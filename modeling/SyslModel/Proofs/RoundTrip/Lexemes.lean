import SyslModel.Proofs.NameMap
import SyslModel.Proofs.Text.Decimal
import SyslModel.Proofs.Token.LongestMatch
import SyslModel.Proofs.Token.Priority
import SyslModel.Text
import SyslModel.Tree
/-!
# Trees that can be written down, and their tokens

Which trees have a text that is read again, and the tokens that stand at their leaves.
-/

namespace SyslModel

/-!
## Trees that can be written down

Not every tree has a text: a name may be no identifier, a text may hold a line feed, a declared type
may be a reference.  A tree is writable if its names are tokens of the kind that stands for them, no
name is given twice, and every part has one of the forms that the grammar knows.
-/

/-- The text is a token of this kind, read alone. -/
def TokenKind.Writes (kind : TokenKind) (text : String) : Prop := kind.HighestFor text.toList

/-- A text without a line feed under a key. -/
structure WritableAttribute (key : String) (value : Attribute) : Prop where
  /-- The key is a lowercase identifier. -/
  key : TokenKind.smallIdentifier.Writes key
  /-- The value is a text on one line. -/
  value : ∃ text, value = .text text ∧ '\n' ∉ text.toList

/-- A flag under its name. -/
structure WritableFlag (name : String) (value : Attribute) : Prop where
  /-- The name is a lowercase identifier. -/
  name : TokenKind.smallIdentifier.Writes name
  /-- The value is a flag. -/
  value : ∃ negated, value = .flag negated

/-- A shape that has a name. -/
inductive WritableShape : Shape DataType → Prop
  /-- A primitive. -/
  | primitive (p : Primitive) : WritableShape (.primitive p)
  /-- A field of a declared type, by a dotted name. -/
  | foreignKey {target : Reference} (text : String) :
      TokenKind.foreignKey.Writes text → target.path = Reference.segments text →
        WritableShape (.foreignKey target)
  /-- A declared type, by name. -/
  | typeRef {target : Reference} (text : String) :
      TokenKind.identifier.Writes text → target.path = Reference.segments text →
        WritableShape (.typeRef target)

/-- A type by its name alone. -/
structure WritableTypeRef (t : DataType) : Prop where
  /-- The shape has a name. -/
  shape : WritableShape t.shape
  /-- The type is required. -/
  required : t.optional = false
  /-- There are no attributes. -/
  attrs : t.attrs = .empty

/-- A field under its name. -/
structure WritableField (name : String) (t : DataType) : Prop where
  /-- The name is a lowercase identifier, or the word of a primitive. -/
  name : TokenKind.smallIdentifier.Writes name ∨ ∃ p : Primitive, name = p.keyword
  /-- The shape has a name. -/
  shape : WritableShape t.shape
  /-- The attributes are flags. -/
  flags : t.attrs.Each WritableFlag

/-- An item of an enumeration. -/
structure WritableItem (name : String) (value : Int) : Prop where
  /-- The name is an identifier of either case. -/
  name : TokenKind.identifier.Writes name ∨ TokenKind.smallIdentifier.Writes name
  /-- The value fits. -/
  value : Decimal.isSigned64 value = true

/-- A shape that can be declared under a marker. -/
inductive WritableBody : Marker → Shape DataType → Prop
  /-- A table. -/
  | relation {fields : Fields} :
    fields.Each WritableField → WritableBody .table (.relation (.ofFields fields))
  /-- A record. -/
  | tuple {fields : Fields} : fields.Each WritableField → WritableBody .type (.tuple fields)
  /-- An enumeration. -/
  | enumeration {items : NameMap Int} : items.Each WritableItem →
      WritableBody .enumeration (.enumeration items)

/-- A declared type under its name. -/
structure WritableDeclaration (name : String) (t : DataType) : Prop where
  /-- The name is an identifier. -/
  name : TokenKind.identifier.Writes name
  /-- The type is required. -/
  required : t.optional = false
  /-- The attributes are texts. -/
  attrs : t.attrs.Each WritableAttribute
  /-- The shape can be declared. -/
  body : ∃ m, WritableBody m t.shape

/-- An endpoint. -/
structure WritableEndpoint (e : Endpoint) : Prop where
  /-- The name is a path without its first slash. -/
  name : TokenKind.path.Writes ("/" ++ e.name)
  /-- The attributes are texts. -/
  attrs : e.attrs.Each WritableAttribute

/-- A declared type under its name, or an endpoint under its own. -/
inductive WritableMember (name : String) : Member → Prop
  /-- A declared type. -/
  | type {declared : DataType} : WritableDeclaration name declared →
      WritableMember name (.type declared)
  /-- An endpoint. -/
  | endpoint {e : Endpoint} : e.name = name → WritableEndpoint e → WritableMember name (.endpoint e)

/-- An application. -/
structure WritableApplication (app : Application) : Prop where
  /-- The name is an identifier. -/
  name : TokenKind.identifier.Writes app.name
  /-- The attributes are texts. -/
  attrs : app.attrs.Each WritableAttribute
  /-- The members can be written. -/
  members : app.members.Each WritableMember

/-- A model, whose applications stand under their names. -/
def WritableModel (m : Model) : Prop :=
  m.apps.Each fun name app => app.name = name ∧ WritableApplication app

/-!
## Texts that are tokens

Keywords, the decimal text of an integer and the quoted form of a text are tokens of the kinds that
stand for them.  In the other direction, what a quoted token stands for has no line feed in it.
-/

section Lexemes

open scoped Computability

/-! ### Keywords -/

namespace TokenKind

theorem marker_writes (m : Marker) : (marker m).Writes m.keyword := by
  have hfits : (marker m).Matches m.keyword.toList := mem_literal.2 rfl
  refine ⟨hfits, fun other hother hne => ?_⟩
  cases other with
  | marker n =>
    have heq : marker n = marker m := eq_of_rank_eq rfl hother hfits
    exact absurd heq hne
  | _ => simp [rank]

theorem method_writes (m : Method) : (method m).Writes m.keyword := by
  have hfits : (method m).Matches m.keyword.toList := mem_literal.2 rfl
  refine ⟨hfits, fun other hother hne => ?_⟩
  cases other with
  | marker n =>
    have heq : m.keyword.toList = n.keyword.toList := hother
    cases m <;> cases n <;> simp [Method.keyword, Marker.keyword] at heq
  | method n =>
    have heq : method n = method m := eq_of_rank_eq rfl hother hfits
    exact absurd heq hne
  | _ => simp [rank]

theorem primitive_writes (p : Primitive) : (primitive p).Writes p.keyword := by
  have hfits : (primitive p).Matches p.keyword.toList := mem_literal.2 rfl
  refine ⟨hfits, fun other hother hne => ?_⟩
  cases other with
  | marker n =>
    have heq : p.keyword.toList = n.keyword.toList := hother
    cases p <;> cases n <;> simp [Primitive.keyword, Marker.keyword] at heq
  | method n =>
    have heq : p.keyword.toList = n.keyword.toList := hother
    cases p <;> cases n <;> simp [Primitive.keyword, Method.keyword] at heq
  | primitive q =>
    have heq : primitive q = primitive p := eq_of_rank_eq rfl hother hfits
    exact absurd heq hne
  | _ => simp [rank]

/-! ### Integers -/

/-- What begins with a digit or a minus sign is an integer. -/
theorem eq_integer_of_opens {kind : TokenKind} {c : Char} (h : integer.opens c = true)
    (hk : kind.opens c = true) : kind = integer := by
  have hc : c = '-' ∨ c.isDigit = true := by simpa [opens] using h
  have hletter : c.isUpper = false ∧ c.isLower = false := by
    rcases hc with rfl | hc
    · decide
    · exact not_letter_of_isDigit hc
  have hrank : kind.rank = 1 := by
    cases kind with
    | marker m =>
      obtain rfl : c = '!' := by simpa [opens] using hk
      exact absurd h (by decide)
    | method | foreignKey =>
      have hupper : c.isUpper = true := hk
      simp [hletter.1] at hupper
    | primitive | qualifiedName =>
      have hlower : c.isLower = true := hk
      simp [hletter.2] at hlower
    | endOfFile => cases hk
    | _ => rfl
  exact (eq_openedBy hrank hk).trans (eq_openedBy rfl h).symm

end TokenKind

namespace Decimal

theorem isDigit_of_mem_repr {n : Nat} {c : Char} (h : c ∈ n.repr.toList) : c.isDigit = true := by
  rw [Nat.toList_repr] at h
  exact Nat.isDigit_of_mem_toDigits (by decide) (by decide) h

theorem repr_ne_nil (n : Nat) : n.repr.toList ≠ [] := by
  rw [Nat.toList_repr]
  exact Nat.toDigits_ne_nil

theorem natural?_repr (n : Nat) : natural? n.repr.toList = some n := by
  have hall : n.repr.toList.all Char.isDigit = true :=
    List.all_eq_true.2 fun c hc => isDigit_of_mem_repr hc
  rw [natural?, if_pos ⟨repr_ne_nil n, hall⟩, Nat.toList_repr,
    Nat.ofDigitChars_toDigits (by decide) (by decide)]

/-- The written form of an integer denotes it. -/
theorem value?_text (n : Int) : value? (text n).toList = some n := by
  cases n with
  | ofNat n =>
    obtain ⟨c, digits, hdigits⟩ := List.exists_cons_of_ne_nil (repr_ne_nil n)
    have hc : c.isDigit = true := isDigit_of_mem_repr (hdigits ▸ List.mem_cons_self)
    rw [text, hdigits, value?_of_isDigit hc, ← hdigits, natural?_repr]
    rfl
  | negSucc n =>
    have htext : (text (.negSucc n)).toList = '-' :: (n + 1).repr.toList := by simp [text]
    rw [htext, value?, natural?_repr]
    rfl

theorem text_matches (n : Int) : TokenKind.integer.Matches (text n).toList := by
  have hdigits (n : Nat) : n.repr.toList ∈ oneOrMore (oneOf Char.isDigit) :=
    mem_oneOrMore_oneOf.2 ⟨repr_ne_nil n, fun _ => isDigit_of_mem_repr⟩
  cases n with
  | ofNat n =>
    exact Language.mem_mul.2 ⟨[], .inl rfl, _, hdigits n, rfl⟩
  | negSucc n =>
    refine Language.mem_mul.2 ⟨['-'], .inr rfl, _, hdigits (n + 1), ?_⟩
    simp [text]

theorem text_writes (n : Int) : TokenKind.integer.Writes (text n) := by
  have hfits := text_matches n
  refine ⟨hfits, fun other hother hne => ?_⟩
  obtain ⟨c, tail, heq⟩ := List.exists_cons_of_ne_nil (hfits.ne_nil (by simp))
  rw [heq] at hfits hother
  exact absurd (TokenKind.eq_integer_of_opens hfits.opens hother.opens) hne

end Decimal

/-! ### Quoted texts -/

namespace Quoted

/-- The quoted form of a text on one line is a quoted token. -/
theorem write_matches {text : String} (h : '\n' ∉ text.toList) :
    TokenKind.quoted.Matches (write text).toList := by
  have hitems : ∀ chars : List Char, '\n' ∉ chars → escape chars ∈ Pattern.quotedItem∗ := by
    intro chars hchars
    induction chars with
    | nil => exact Language.nil_mem_kstar _
    | cons c chars ih =>
      rw [List.mem_cons, not_or] at hchars
      have hline : c ≠ '\n' := Ne.symm hchars.1
      have hrest := ih hchars.2
      by_cases hc : c = '"' ∨ c = '\\'
      · rw [escape, if_pos hc]
        have hitem : ['\\', c] ∈ Pattern.quotedItem := by
          refine .inr (mem_literal_mul.2 ⟨[c], ⟨c, ?_, rfl⟩, rfl⟩)
          simpa [isInLine] using hline
        exact append_mem_star hitem hrest
      · rw [escape, if_neg hc]
        rw [not_or] at hc
        have hitem : [c] ∈ Pattern.quotedItem := by
          refine .inl ⟨c, ?_, rfl⟩
          simpa [isPlain, hc.1, hc.2] using hline
        exact append_mem_star hitem hrest
  have htext : (write text).toList = ['"'] ++ (escape text.toList ++ ['"']) := by simp [write]
  rw [htext]
  exact mem_literal_mul.2 ⟨_, Language.append_mem_mul (hitems _ h) rfl, rfl⟩

theorem mem_of_mem_unescape {text : List Char} {c : Char} (h : c ∈ unescape text) : c ∈ text := by
  fun_induction unescape text with
  | case1 => exact h
  | case2 => cases h
  | case3 d text ih =>
    rcases List.mem_cons.1 h with rfl | h
    · simp
    · simp [ih h]
  | case4 d text _ _ ih =>
    rcases List.mem_cons.1 h with rfl | h
    · simp
    · simp [ih h]

theorem mem_of_mem_inner {literal : List Char} {c : Char} (h : c ∈ inner literal) :
    c ∈ literal := by
  unfold inner at h
  split at h
  · split at h
    · exact List.mem_cons_of_mem _ (List.mem_of_mem_dropLast h)
    · exact h
  · exact h

theorem newline_notMem_of_matches {text : List Char} (h : TokenKind.quoted.Matches text) :
    '\n' ∉ text := by
  obtain ⟨body, hbody, rfl⟩ := mem_literal_mul.1 h
  obtain ⟨items, hitems, _, rfl, rfl⟩ := Language.mem_mul.1 hbody
  have hline : '\n' ∉ items := by
    refine star_induction (motive := fun text => '\n' ∉ text) (by simp) ?_ items hitems
    rintro item (⟨c, hc, rfl⟩ | hitem) rest _ ih
    · have hc : '\n' ≠ c := by
        rintro rfl
        exact absurd hc (by decide)
      simp [hc, ih]
    · obtain ⟨_, ⟨c, hc, rfl⟩, rfl⟩ := mem_literal_mul.1 hitem
      have hc : '\n' ≠ c := by
        rintro rfl
        exact absurd hc (by decide)
      simp [hc, ih]
  simp [hline]

/-- What a quoted token stands for is on one line. -/
theorem newline_notMem_read {text : String} (h : TokenKind.quoted.Matches text.toList) :
    '\n' ∉ (read text).toList := by
  intro hmem
  rw [read, String.toList_ofList] at hmem
  exact newline_notMem_of_matches h (mem_of_mem_inner (mem_of_mem_unescape hmem))

end Quoted

end Lexemes

end SyslModel
