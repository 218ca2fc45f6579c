import SyslModel.Proofs.Json.Leaf
/-!
# Reading written JSON

`WritesValue` relates a value to the texts that write it with any blanks between their parts.  Both
layouts are such texts (`writes_compact`, `writes_prettyAt`), and each such text is read as the
value (`readValue_of_writes`), so one statement about reading serves both.

Main statements: `ofString?_compact` and `ofString?_pretty`, that a value is read back from its
compact and from its pretty form.
-/

namespace SyslModel.Json

/-! ## Blanks -/

/-- A text of nothing but blanks. -/
def IsBlanks (text : List Char) : Prop := ∀ c ∈ text, [' ', '\t', '\n', '\r'].contains c = true

/-- A text whose first character is none of the blanks. -/
def NoBlank (text : List Char) : Prop :=
  ∀ c ∈ text.head?, [' ', '\t', '\n', '\r'].contains c = false

theorem IsBlanks.nil : IsBlanks [] := by simp [IsBlanks]

theorem skipBlanks_append {blanks text : List Char} (h : IsBlanks blanks) :
    skipBlanks (blanks ++ text) = skipBlanks text := List.dropWhile_append_of_pos h

theorem skipBlanks_of_noBlank {text : List Char} (h : NoBlank text) : skipBlanks text = text := by
  cases text with
  | nil => rfl
  | cons c text => exact List.dropWhile_cons_of_neg (by simpa using h c rfl)

theorem noBlank_skipBlanks (text : List Char) : NoBlank (skipBlanks text) := by
  intro c hc
  have hstop := List.head?_dropWhile_not [' ', '\t', '\n', '\r'].contains text
  rw [← skipBlanks, Option.mem_def.1 hc] at hstop
  simpa using hstop

/-- Reading a value does not depend on blanks in front of it. -/
theorem readValue_skipBlanks (fuel : Nat) (text : List Char) :
    readValue fuel (skipBlanks text) = readValue fuel text := by
  cases fuel with
  | zero => rfl
  | succ fuel => rw [readValue, readValue, skipBlanks_of_noBlank (noBlank_skipBlanks text)]

theorem readItems_skipBlanks (fuel : Nat) (text : List Char) :
    readItems fuel (skipBlanks text) = readItems fuel text := by
  cases fuel with
  | zero => rfl
  | succ fuel => rw [readItems, readItems, readValue_skipBlanks]

theorem readKey_skipBlanks (text : List Char) : readKey (skipBlanks text) = readKey text := by
  rw [readKey, readKey, skipBlanks_of_noBlank (noBlank_skipBlanks text)]

theorem readMembers_skipBlanks (fuel : Nat) (text : List Char) :
    readMembers fuel (skipBlanks text) = readMembers fuel text := by
  cases fuel with
  | zero => rfl
  | succ fuel => rw [readMembers, readMembers, readKey_skipBlanks]

theorem readValue_blanks {blanks : List Char} (h : IsBlanks blanks) (fuel : Nat)
    (text : List Char) : readValue fuel (blanks ++ text) = readValue fuel text := by
  rw [← readValue_skipBlanks, skipBlanks_append h, readValue_skipBlanks]

theorem readKey_blanks {blanks : List Char} (h : IsBlanks blanks) (text : List Char) :
    readKey (blanks ++ text) = readKey text := by
  rw [← readKey_skipBlanks, skipBlanks_append h, readKey_skipBlanks]

/-! ## Written values -/

/-- Has the value no parts, so that it is the same in every layout? -/
def Value.isLeaf : Value → Bool
  | .array (_ :: _) | .object (_ :: _) => false
  | _ => true

mutual

/-- The text writes the value. -/
inductive WritesValue : Value → List Char → Prop
  /-- A value without parts. -/
  | leaf {v : Value} : v.isLeaf = true → WritesValue v (writeLeaf v).toList
  /-- An array. -/
  | array {items : List Value} {text : List Char} :
      WritesItems items text → WritesValue (.array items) ('[' :: text)
  /-- An object. -/
  | object {members : List (Text × Value)} {text : List Char} :
      WritesMembers members text → WritesValue (.object members) ('\x7b' :: text)

/-- The text writes one or more items and the end of their array. -/
inductive WritesItems : List Value → List Char → Prop
  /-- The last item. -/
  | last {item : Value} {blanks text closing : List Char} :
      IsBlanks blanks → WritesValue item text → IsBlanks closing →
        WritesItems [item] (blanks ++ (text ++ (closing ++ [']'])))
  /-- An item in front of others. -/
  | cons {item : Value} {items : List Value} {blanks text rest : List Char} :
      IsBlanks blanks → WritesValue item text → WritesItems items rest →
        WritesItems (item :: items) (blanks ++ (text ++ ',' :: rest))

/-- The text writes one or more members and the end of their object. -/
inductive WritesMembers : List (Text × Value) → List Char → Prop
  /-- The last member. -/
  | last {key : Text} {value : Value} {blanks inner text closing : List Char} :
      IsBlanks blanks → IsBlanks inner → WritesValue value text → IsBlanks closing →
        WritesMembers [(key, value)]
          (blanks ++ ((writeText key).toList ++ ':' :: (inner ++ (text ++ (closing ++ ['\x7d'])))))
  /-- A member in front of others. -/
  | cons {key : Text} {value : Value} {members : List (Text × Value)}
      {blanks inner text rest : List Char} :
      IsBlanks blanks → IsBlanks inner → WritesValue value text → WritesMembers members rest →
        WritesMembers ((key, value) :: members)
          (blanks ++ ((writeText key).toList ++ ':' :: (inner ++ (text ++ ',' :: rest))))

end

/-- The first characters of values. -/
def isOpening (c : Char) : Bool := "ntf\"[\x7b-".toList.contains c || c.isDigit

theorem exists_opening_leaf (v : Value) :
    ∃ c tail, (writeLeaf v).toList = c :: tail ∧ isOpening c = true := by
  cases v with
  | integer n =>
    cases n with
    | ofNat n =>
      obtain ⟨d, digits, hd⟩ := List.exists_cons_of_ne_nil (Decimal.repr_ne_nil n)
      have hdigit : d.isDigit = true := Decimal.isDigit_of_mem_repr (n := n) (by simp [hd])
      exact ⟨d, digits, hd, by simp [isOpening, hdigit]⟩
    | negSucc n => exact ⟨'-', (n + 1).repr.toList, by simp [writeLeaf, Decimal.text], rfl⟩
  | text t =>
    obtain ⟨tail, htail, -⟩ := readText_writeText t
    exact ⟨'"', tail, htail, rfl⟩
  | bool b =>
    cases b with
    | true => exact ⟨'t', "rue".toList, rfl, by decide⟩
    | false => exact ⟨'f', "alse".toList, rfl, by decide⟩
  | null => exact ⟨'n', "ull".toList, rfl, by decide⟩
  | real => exact ⟨'-', "0".toList, rfl, by decide⟩
  | array _ => exact ⟨'[', [']'], by simp [writeLeaf], by decide⟩
  | object _ => exact ⟨'\x7b', ['\x7d'], by simp [writeLeaf], by decide⟩

theorem WritesValue.exists_opening {v : Value} {text : List Char} (h : WritesValue v text) :
    ∃ c tail, text = c :: tail ∧ isOpening c = true := by
  cases h with
  | leaf _ => exact exists_opening_leaf v
  | array _ => exact ⟨'[', _, rfl, by decide⟩
  | object _ => exact ⟨'\x7b', _, rfl, by decide⟩

theorem noBlank_of_opening {c : Char} (h : isOpening c = true) (text : List Char) :
    NoBlank (c :: text) := by
  intro d hd
  obtain rfl : c = d := by simpa using hd
  rw [Bool.eq_false_iff]
  intro hblank
  have hcases : c = ' ' ∨ c = '\t' ∨ c = '\n' ∨ c = '\r' := by simpa using hblank
  rcases hcases with rfl | rfl | rfl | rfl <;> exact absurd h (by decide)

/-! ## Reading what is written -/

/-- No blank, and nothing that a number could go on with. -/
theorem endsNumber_cons {c : Char} (h : [',', ']', '\x7d', ' ', '\n'].contains c = true)
    (text : List Char) : EndsNumber (c :: text) := by
  intro d hd
  obtain rfl : c = d := by simpa using hd
  have hcases : c = ',' ∨ c = ']' ∨ c = '\x7d' ∨ c = ' ' ∨ c = '\n' := by simpa using h
  rcases hcases with rfl | rfl | rfl | rfl | rfl <;> decide

/-- Where a number begins, a number is read. -/
theorem readValue_number {c : Char} (hc : c = '-' ∨ c.isDigit = true) (fuel : Nat)
    (text : List Char) : readValue (fuel + 1) (c :: text) = readNumber (c :: text) := by
  have hopening : isOpening c = true := by
    rcases hc with rfl | hc
    · decide
    · simp [isOpening, hc]
  rw [readValue.eq_def]
  simp only [skipBlanks_of_noBlank (noBlank_of_opening hopening text)]
  split
  all_goals try rfl
  all_goals
    next heq =>
      obtain ⟨rfl, -⟩ := List.cons.inj heq
      rcases hc with hc | hc <;> exact absurd hc (by decide)

/-- A value without parts is read back. -/
theorem readValue_leaf {v : Value} (h : v.isLeaf = true) (fuel : Nat) {rest : List Char}
    (hrest : EndsNumber rest) :
    readValue (fuel + 1) ((writeLeaf v).toList ++ rest) = some (v, rest) := by
  cases v with
  | null => rfl
  | bool b => cases b <;> rfl
  | real =>
    have hzero : "0".toList ≠ [] ∧ ∀ c ∈ "0".toList, c.isDigit = true :=
      ⟨by simp, by simp⟩
    have hread := readUnsigned_append true hzero.1 hzero.2 (.inr rfl) hrest
    exact (readValue_number (.inl rfl) fuel _).trans hread
  | integer n =>
    obtain ⟨c, tail, hc, hnumber⟩ : ∃ c tail, (Decimal.text n).toList = c :: tail ∧
        (c = '-' ∨ c.isDigit = true) := by
      cases n with
      | ofNat n =>
        obtain ⟨d, digits, hd⟩ := List.exists_cons_of_ne_nil (Decimal.repr_ne_nil n)
        exact ⟨d, digits, hd, .inr (Decimal.isDigit_of_mem_repr (n := n) (by simp [hd]))⟩
      | negSucc n => exact ⟨'-', (n + 1).repr.toList, by simp [Decimal.text], .inl rfl⟩
    rw [← readNumber_text n hrest, writeLeaf, hc]
    exact readValue_number hnumber fuel _
  | text t =>
    obtain ⟨tail, htail, hread⟩ := readText_writeText t
    rw [writeLeaf, htail, List.cons_append, readValue.eq_def]
    simp only [skipBlanks_of_noBlank (noBlank_of_opening (c := '"') (by decide) _), hread]
    rfl
  | array items =>
    cases items with
    | nil => rfl
    | cons _ _ => cases h
  | object members =>
    cases members with
    | nil => rfl
    | cons _ _ => cases h

/-- The key of a member is read back, with the colon behind it. -/
theorem readKey_writeText (key : Text) (rest : List Char) :
    readKey ((writeText key).toList ++ ':' :: rest) = some (key, rest) := by
  obtain ⟨tail, htail, hread⟩ := readText_writeText key
  have hquote := noBlank_of_opening (c := '"') (by decide)
  rw [htail, List.cons_append, readKey, skipBlanks_of_noBlank (hquote _)]
  simp only [hread]
  rfl

/-- An array with items, of which the first begins with the character given. -/
theorem readValue_array {text : List Char} {c : Char} {tail : List Char}
    (hc : skipBlanks text = c :: tail) (hne : c ≠ ']') (fuel : Nat) :
    readValue (fuel + 1) ('[' :: text) = (readItems fuel text).map fun r => (.array r.1, r.2) := by
  have hopening := noBlank_of_opening (c := '[') (by decide) text
  rw [readValue.eq_def]
  simp only [skipBlanks_of_noBlank hopening, hc]
  rw [← readItems_skipBlanks, hc]
  split
  · next heq => exact absurd (List.cons.inj heq).1 hne
  · rfl

/-- An object with members, of which the first begins with the character given. -/
theorem readValue_object {text : List Char} {c : Char} {tail : List Char}
    (hc : skipBlanks text = c :: tail) (hne : c ≠ '\x7d') (fuel : Nat) :
    readValue (fuel + 1) ('\x7b' :: text)
      = (readMembers fuel text).map fun r => (.object r.1, r.2) := by
  have hopening := noBlank_of_opening (c := '\x7b') (by decide) text
  rw [readValue.eq_def]
  simp only [skipBlanks_of_noBlank hopening, hc]
  rw [← readMembers_skipBlanks, hc]
  split
  · next heq => exact absurd (List.cons.inj heq).1 hne
  · rfl

/-- Items begin, behind blanks, with the first character of a value. -/
theorem WritesItems.exists_opening {items : List Value} {text : List Char}
    (h : WritesItems items text) (rest : List Char) :
    ∃ c tail, skipBlanks (text ++ rest) = c :: tail ∧ isOpening c = true := by
  have hitem {item : Value} {blanks text : List Char} (hblanks : IsBlanks blanks)
      (hvalue : WritesValue item text) (rest : List Char) :
      ∃ c tail, skipBlanks (blanks ++ (text ++ rest)) = c :: tail ∧ isOpening c = true := by
    obtain ⟨c, tail, rfl, hc⟩ := hvalue.exists_opening
    rw [skipBlanks_append hblanks]
    exact ⟨c, tail ++ rest, skipBlanks_of_noBlank (noBlank_of_opening hc _), hc⟩
  cases h with
  | last hblanks hvalue _ =>
    simp only [List.append_assoc]
    exact hitem hblanks hvalue _
  | cons hblanks hvalue _ =>
    simp only [List.append_assoc]
    exact hitem hblanks hvalue _

/-- Members begin, behind blanks, with the quote of a key. -/
theorem WritesMembers.exists_quote {members : List (Text × Value)} {text : List Char}
    (h : WritesMembers members text) (rest : List Char) :
    ∃ tail, skipBlanks (text ++ rest) = '"' :: tail := by
  have hkey {blanks : List Char} (hblanks : IsBlanks blanks) (key : Text) (rest : List Char) :
      ∃ tail, skipBlanks (blanks ++ ((writeText key).toList ++ rest)) = '"' :: tail := by
    obtain ⟨tail, htail, -⟩ := readText_writeText key
    rw [skipBlanks_append hblanks, htail]
    exact ⟨tail ++ rest, skipBlanks_of_noBlank (noBlank_of_opening (by decide) _)⟩
  cases h with
  | last hblanks _ _ _ =>
    simp only [List.append_assoc]
    exact hkey hblanks _ _
  | cons hblanks _ _ _ =>
    simp only [List.append_assoc]
    exact hkey hblanks _ _

/-- Behind the last part of an array or of an object stand blanks and a bracket. -/
theorem endsNumber_closing {closing : List Char} (h : IsBlanks closing) {c : Char}
    (hc : [',', ']', '\x7d', ' ', '\n'].contains c = true) (rest : List Char) :
    EndsNumber (closing ++ c :: rest) := by
  cases closing with
  | nil => exact endsNumber_cons hc rest
  | cons d closing =>
    intro e he
    obtain rfl : d = e := by simpa using he
    have hd : d = ' ' ∨ d = '\t' ∨ d = '\n' ∨ d = '\r' := by
      simpa using h d List.mem_cons_self
    rcases hd with rfl | rfl | rfl | rfl <;> decide

mutual

/-- A text that writes a value is read as the value. -/
theorem readValue_of_writes : ∀ {v : Value} {text : List Char}, WritesValue v text →
    ∀ (fuel : Nat) (rest : List Char), 2 * text.length ≤ fuel → EndsNumber rest →
      readValue fuel (text ++ rest) = some (v, rest)
  | v, _, .leaf h, fuel, rest, hfuel, hrest => by
    obtain ⟨c, tail, hc, -⟩ := exists_opening_leaf v
    obtain ⟨fuel, rfl⟩ : ∃ n, fuel = n + 1 := by
      rw [hc, List.length_cons] at hfuel
      exact ⟨fuel - 1, by omega⟩
    exact readValue_leaf h fuel hrest
  | _, _, .array h, fuel, rest, hfuel, hrest => by
    rw [List.length_cons] at hfuel
    obtain ⟨fuel, rfl⟩ : ∃ n, fuel = n + 1 := ⟨fuel - 1, by omega⟩
    obtain ⟨c, tail, hc, hopening⟩ := h.exists_opening rest
    have hne : c ≠ ']' := by
      rintro rfl
      exact absurd hopening (by decide)
    rw [List.cons_append, readValue_array hc hne, readItems_of_writes h fuel rest (by omega)]
    rfl
  | _, _, .object h, fuel, rest, hfuel, hrest => by
    rw [List.length_cons] at hfuel
    obtain ⟨fuel, rfl⟩ : ∃ n, fuel = n + 1 := ⟨fuel - 1, by omega⟩
    obtain ⟨tail, hquote⟩ := h.exists_quote rest
    rw [List.cons_append, readValue_object hquote (by decide),
      readMembers_of_writes h fuel rest (by omega)]
    rfl

/-- A text that writes items and the end of their array is read as these items. -/
theorem readItems_of_writes : ∀ {items : List Value} {text : List Char}, WritesItems items text →
    ∀ (fuel : Nat) (rest : List Char), 2 * text.length ≤ fuel →
      readItems fuel (text ++ rest) = some (items, rest)
  | _, _, @WritesItems.last _ _ _ closing hblanks h hclosing, fuel, rest, hfuel => by
    simp only [List.length_append, List.length_cons] at hfuel
    obtain ⟨fuel, rfl⟩ : ∃ n, fuel = n + 1 := ⟨fuel - 1, by omega⟩
    have hvalue := readValue_of_writes h fuel (closing ++ ']' :: rest) (by omega)
      (endsNumber_closing hclosing (by decide) rest)
    have hend : skipBlanks (closing ++ ']' :: rest) = ']' :: rest := skipBlanks_append hclosing
    simp only [List.append_assoc, List.singleton_append]
    rw [readItems, readValue_blanks hblanks, hvalue]
    simp only [hend]
  | _, _, @WritesItems.cons _ _ _ _ others hblanks h hothers, fuel, rest, hfuel => by
    simp only [List.length_append, List.length_cons] at hfuel
    obtain ⟨fuel, rfl⟩ : ∃ n, fuel = n + 1 := ⟨fuel - 1, by omega⟩
    have hvalue := readValue_of_writes h fuel (',' :: (others ++ rest)) (by omega)
      (endsNumber_cons (by decide) _)
    have hrest := readItems_of_writes hothers fuel rest (by omega)
    have hcomma : skipBlanks (',' :: (others ++ rest)) = ',' :: (others ++ rest) := rfl
    simp only [List.append_assoc, List.cons_append]
    rw [readItems, readValue_blanks hblanks, hvalue]
    simp only [hcomma, hrest]
    rfl

/-- A text that writes members and the end of their object is read as these members. -/
theorem readMembers_of_writes : ∀ {members : List (Text × Value)} {text : List Char},
    WritesMembers members text → ∀ (fuel : Nat) (rest : List Char), 2 * text.length ≤ fuel →
      readMembers fuel (text ++ rest) = some (members, rest)
  | _, _, @WritesMembers.last _ _ _ _ _ closing hblanks hinner h hclosing, fuel, rest, hfuel => by
    simp only [List.length_append, List.length_cons] at hfuel
    obtain ⟨fuel, rfl⟩ : ∃ n, fuel = n + 1 := ⟨fuel - 1, by omega⟩
    have hvalue := readValue_of_writes h fuel (closing ++ '\x7d' :: rest) (by omega)
      (endsNumber_closing hclosing (by decide) rest)
    have hend : skipBlanks (closing ++ '\x7d' :: rest) = '\x7d' :: rest :=
      skipBlanks_append hclosing
    simp only [List.append_assoc, List.cons_append, List.nil_append]
    rw [readMembers, readKey_blanks hblanks, readKey_writeText]
    simp only [readValue_blanks hinner, hvalue, hend]
  | _, _, @WritesMembers.cons _ _ _ _ _ _ others hblanks hinner h hothers, fuel, rest, hfuel => by
    simp only [List.length_append, List.length_cons] at hfuel
    obtain ⟨fuel, rfl⟩ : ∃ n, fuel = n + 1 := ⟨fuel - 1, by omega⟩
    have hvalue := readValue_of_writes h fuel (',' :: (others ++ rest)) (by omega)
      (endsNumber_cons (by decide) _)
    have hrest := readMembers_of_writes hothers fuel rest (by omega)
    have hcomma : skipBlanks (',' :: (others ++ rest)) = ',' :: (others ++ rest) := rfl
    simp only [List.append_assoc, List.cons_append]
    rw [readMembers, readKey_blanks hblanks, readKey_writeText]
    simp only [readValue_blanks hinner, hvalue, hcomma, hrest]
    rfl

end

/-- A text that writes a value denotes it. -/
theorem ofString?_of_writes {v : Value} {text : String} (h : WritesValue v text.toList) :
    Value.ofString? text = some v := by
  have hread := readValue_of_writes h (2 * text.toList.length + 2) [] (by omega)
    (by simp [EndsNumber])
  rw [List.append_nil] at hread
  simp [Value.ofString?, hread, skipBlanks]

/-! ## The two layouts -/

/-- The text writes a member: its key, a colon and its value. -/
def WritesMember (member : Text × Value) (text : List Char) : Prop :=
  ∃ inner value, IsBlanks inner ∧ WritesValue member.2 value ∧
    text = (writeText member.1).toList ++ ':' :: (inner ++ value)

section Parts

variable {lead closing : String}

/-- Written items with commas between them and the same blanks in front of each. -/
theorem writesItems_intercalate (hlead : IsBlanks lead.toList) (hclosing : IsBlanks closing.toList)
    {items : List Value} {parts : List String}
    (h : List.Forall₂ (fun item part => WritesValue item part.toList) items parts)
    (hne : items ≠ []) :
    WritesItems items
      (lead ++ ("," ++ lead).intercalate parts ++ closing ++ "]").toList := by
  induction h with
  | nil => exact absurd rfl hne
  | @cons item part items parts hitem h ih =>
    cases h with
    | nil => simpa using WritesItems.last hlead hitem hclosing
    | @cons next part' items parts hnext h =>
      have hrest := ih (List.cons_ne_nil _ _)
      simpa [String.intercalate_cons_cons] using WritesItems.cons hlead hitem hrest

/-- Written members with commas between them and the same blanks in front of each. -/
theorem writesMembers_intercalate (hlead : IsBlanks lead.toList)
    (hclosing : IsBlanks closing.toList) {members : List (Text × Value)} {parts : List String}
    (h : List.Forall₂ (fun member part => WritesMember member part.toList) members parts)
    (hne : members ≠ []) :
    WritesMembers members
      (lead ++ ("," ++ lead).intercalate parts ++ closing ++ "\x7d").toList := by
  induction h with
  | nil => exact absurd rfl hne
  | @cons member part members parts hmember h ih =>
    obtain ⟨inner, value, hinner, hvalue, hpart⟩ := hmember
    cases h with
    | nil => simpa [hpart] using WritesMembers.last hlead hinner hvalue hclosing
    | @cons next part' members parts hnext h =>
      have hrest := ih (List.cons_ne_nil _ _)
      simpa [String.intercalate_cons_cons, hpart] using
        WritesMembers.cons hlead hinner hvalue hrest

end Parts

mutual

/-- The compact form of a value writes it. -/
theorem writes_compact : (v : Value) → WritesValue v v.compact.toList
  | .null => .leaf rfl
  | .bool _ => .leaf rfl
  | .integer _ => .leaf rfl
  | .real => .leaf rfl
  | .text _ => .leaf rfl
  | .array [] => .leaf rfl
  | .object [] => .leaf rfl
  | .array (item :: items) => by
    have h := @writesItems_intercalate "" "" IsBlanks.nil IsBlanks.nil _ _
      (writes_compactItems (item :: items)) (List.cons_ne_nil _ _)
    simpa [Value.compact] using WritesValue.array h
  | .object (member :: members) => by
    have h := @writesMembers_intercalate "" "" IsBlanks.nil IsBlanks.nil _ _
      (writes_compactMembers (member :: members)) (List.cons_ne_nil _ _)
    simpa [Value.compact] using WritesValue.object h

theorem writes_compactItems : (items : List Value) →
    List.Forall₂ (fun item part => WritesValue item part.toList) items (compactItems items)
  | [] => .nil
  | item :: items => .cons (writes_compact item) (writes_compactItems items)

theorem writes_compactMembers : (members : List (Text × Value)) →
    List.Forall₂ (fun member part => WritesMember member part.toList) members
      (compactMembers members)
  | [] => .nil
  | (key, value) :: members =>
    .cons ⟨[], _, IsBlanks.nil, writes_compact value, by simp⟩ (writes_compactMembers members)

end

theorem isBlanks_indentation (level : Nat) : IsBlanks ("\n" ++ indentation level).toList := by
  intro c hc
  have hcases : c = '\n' ∨ c = ' ' := by
    rcases List.mem_cons.1 (by simpa using hc) with rfl | hc
    · exact .inl rfl
    · exact .inr (by simp_all [indentation])
  rcases hcases with rfl | rfl <;> decide

mutual

/-- The pretty form of a value writes it. -/
theorem writes_prettyAt (level : Nat) : (v : Value) → WritesValue v (v.prettyAt level).toList
  | .null => .leaf rfl
  | .bool _ => .leaf rfl
  | .integer _ => .leaf rfl
  | .real => .leaf rfl
  | .text _ => .leaf rfl
  | .array [] => .leaf rfl
  | .object [] => .leaf rfl
  | .array (item :: items) => by
    have h := writesItems_intercalate (isBlanks_indentation (level + 1))
      (isBlanks_indentation level) (writes_prettyItems (level + 1) (item :: items))
      (List.cons_ne_nil _ _)
    simpa [Value.prettyAt, block] using WritesValue.array h
  | .object (member :: members) => by
    have h := writesMembers_intercalate (isBlanks_indentation (level + 1))
      (isBlanks_indentation level) (writes_prettyMembers (level + 1) (member :: members))
      (List.cons_ne_nil _ _)
    simpa [Value.prettyAt, block] using WritesValue.object h

theorem writes_prettyItems (level : Nat) : (items : List Value) →
    List.Forall₂ (fun item part => WritesValue item part.toList) items (prettyItems level items)
  | [] => .nil
  | item :: items => .cons (writes_prettyAt level item) (writes_prettyItems level items)

theorem writes_prettyMembers (level : Nat) : (members : List (Text × Value)) →
    List.Forall₂ (fun member part => WritesMember member part.toList) members
      (prettyMembers level members)
  | [] => .nil
  | (key, value) :: members =>
    .cons ⟨[' '], _, by simp [IsBlanks], writes_prettyAt level value, by simp⟩
      (writes_prettyMembers level members)

end

/-- A value is read back from its compact form. -/
theorem ofString?_compact (v : Value) : Value.ofString? v.compact = some v :=
  ofString?_of_writes (writes_compact v)

/-- A value is read back from its pretty form. -/
theorem ofString?_pretty (v : Value) : Value.ofString? v.pretty = some v :=
  ofString?_of_writes (writes_prettyAt 0 v)

end SyslModel.Json
