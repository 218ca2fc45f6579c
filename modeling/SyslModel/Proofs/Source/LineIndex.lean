import Mathlib.Data.List.Induction
import SyslModel.Proofs.Source.Slice
import SyslModel.Source
/-!
# Lines and columns

Two ways of telling the line and the column of a place: from the text in front of it, character by
character, and from the starts of the lines.  Both come to the same (`LineIndex.position?_eq`).
-/

namespace SyslModel

/-!
## Lines and columns of a place

A reader carries its position over the text character by character.  `Position.first_after` says
what this comes to: the line is one more than the line feeds in front of the place, and the column
one more than the characters behind the last of them.
-/

namespace Position

theorem lastLine_concat (text : List Char) (c : Char) :
    lastLine (text ++ [c]) = if c = '\n' then [] else lastLine text ++ [c] := by
  rw [lastLine, List.reverse_append, List.reverse_singleton, List.singleton_append,
    List.takeWhile_cons]
  by_cases hc : c = '\n'
  · simp [hc]
  · simp [hc, lastLine]

/-- The position behind a text, counted from its start. -/
theorem first_after (text : List Char) :
    first.after text = ⟨text.count '\n' + 1, (lastLine text).length + 1⟩ := by
  induction text using List.reverseRecOn with
  | nil => rfl
  | append_singleton text c ih =>
    rw [after_append, ih, after_cons, after_nil, lastLine_concat, List.count_append, next]
    by_cases hc : c = '\n'
    · simp [hc]
    · simp [hc]

/-- Behind a line feed the line starts anew. -/
theorem first_after_newline (text : List Char) :
    first.after (text ++ ['\n']) = ⟨text.count '\n' + 2, 1⟩ := by
  rw [after_append, first_after]
  rfl

/-- A text moves a position down by its line feeds. -/
theorem line_after (p : Position) (text : List Char) :
    (p.after text).line = p.line + text.count '\n' := by
  induction text generalizing p with
  | nil => rfl
  | cons c text ih =>
    rw [after_cons, ih, List.count_cons, next]
    by_cases hc : c = '\n'
    · simp only [hc, if_true, beq_self_eq_true]
      omega
    · simp [hc]

end Position

/-!
## Looking positions up

A text in front of an offset is divided in two: whole lines, and what stands behind them on the line
of the offset.  `LineIndex.position?_eq` says that looking the offset up finds that line, wherever
the offset is: there are as many starts of lines up to it as line feeds in front of it, and all
others are behind it.

The column then counts the characters of the line if the offset is between two characters
(`position?_between`), and bytes if it is inside one (`position?_inside`).
-/

/-- Does a line start behind this text? -/
def StartsLine (before : List Char) : Prop := ∀ c ∈ before.getLast?, c = '\n'

/-- A line feed is a single byte, so no place is inside it. -/
theorem ne_newline_of_inside {c : Char} {low place : Nat} (hlow : low < place)
    (hhigh : place < low + c.utf8Size) : c ≠ '\n' := by
  rintro rfl
  have hone : '\n'.utf8Size = 1 := rfl
  omega

theorem count_append_line {front current : List Char} (h : '\n' ∉ current) :
    (front ++ current).count '\n' = front.count '\n' := by
  rw [List.count_append, List.count_eq_zero.2 h, Nat.add_zero]

/-! ### Cutting -/

theorem cutAt?_zero (text : List Char) : cutAt? text 0 = some ([], text) := by
  cases text <;> rfl

theorem cutAt?_cons {bytes : Nat} (h : 0 < bytes) (c : Char) (text : List Char) :
    cutAt? (c :: text) bytes =
      if c.utf8Size ≤ bytes then
        (cutAt? text (bytes - c.utf8Size)).map fun cut => (c :: cut.1, cut.2)
      else none := by
  cases bytes with
  | zero => cases h
  | succ bytes => rfl

/-- A cut goes through a text as far as the text goes. -/
theorem cutAt?_append (front rest : List Char) (bytes : Nat) :
    cutAt? (front ++ rest) (utf8Length front + bytes) =
      (cutAt? rest bytes).map fun cut => (front ++ cut.1, cut.2) := by
  induction front with
  | nil => simp
  | cons c front ih =>
    have hpos := c.utf8Size_pos
    have hbytes : c.utf8Size + utf8Length front + bytes - c.utf8Size =
        utf8Length front + bytes := by omega
    rw [utf8Length_cons, List.cons_append, cutAt?_cons (by omega), if_pos (by omega), hbytes, ih,
      Option.map_map]
    rfl

theorem cutAt?_between (front rest : List Char) :
    cutAt? (front ++ rest) (utf8Length front) = some (front, rest) := by
  have h := cutAt?_append front rest 0
  rwa [cutAt?_zero, Nat.add_zero, Option.map_some, List.append_nil] at h

theorem cutAt?_inside (front rest : List Char) {c : Char} {bytes : Nat} (hpos : 0 < bytes)
    (hlt : bytes < c.utf8Size) :
    cutAt? (front ++ c :: rest) (utf8Length front + bytes) = none := by
  rw [cutAt?_append, cutAt?_cons hpos, if_neg (by omega)]
  rfl

/-- Between two characters the text between two offsets is there. -/
theorem slice?_between (front current rest : List Char) :
    slice? (front ++ (current ++ rest)) (utf8Length front) (utf8Length (front ++ current)) =
      some current := by
  rw [slice?, utf8Length_append, if_pos (Nat.le_add_right _ _), Nat.add_sub_cancel_left,
    cutAt?_between]
  show (cutAt? (current ++ rest) (utf8Length current)).bind _ = _
  rw [cutAt?_between]
  rfl

/-- Inside a character it is not. -/
theorem slice?_inside (front current rest : List Char) {c : Char} {offset : Nat}
    (hlow : utf8Length (front ++ current) < offset)
    (hhigh : offset < utf8Length (front ++ current) + c.utf8Size) :
    slice? (front ++ (current ++ c :: rest)) (utf8Length front) offset = none := by
  rw [utf8Length_append] at hlow hhigh
  obtain ⟨bytes, rfl⟩ := Nat.exists_eq_add_of_lt hlow
  have hoffset : utf8Length front + utf8Length current + bytes + 1 - utf8Length front =
      utf8Length current + (bytes + 1) := by omega
  rw [slice?, if_pos (by omega), cutAt?_between, hoffset]
  show (cutAt? (current ++ c :: rest) (utf8Length current + (bytes + 1))).bind _ = _
  rw [cutAt?_inside current rest (Nat.succ_pos _) (by omega)]
  rfl

/-! ### Starts of lines -/

theorem behindLineFeeds_append (offset : Nat) (first second : List Char) :
    behindLineFeeds offset (first ++ second) =
      behindLineFeeds offset first ++ behindLineFeeds (offset + utf8Length first) second := by
  induction first generalizing offset with
  | nil => simp [behindLineFeeds]
  | cons c first ih =>
    simp only [List.cons_append, behindLineFeeds, ih, utf8Length_cons, Nat.add_assoc]
    by_cases hc : c = '\n'
    · simp [hc]
    · simp [hc]

theorem length_behindLineFeeds (offset : Nat) (text : List Char) :
    (behindLineFeeds offset text).length = text.count '\n' := by
  induction text generalizing offset with
  | nil => rfl
  | cons c text ih =>
    by_cases hc : c = '\n'
    · simp [behindLineFeeds, hc, ih]
    · simp [behindLineFeeds, hc, ih]

theorem behindLineFeeds_of_notMem {text : List Char} (h : '\n' ∉ text) (offset : Nat) :
    behindLineFeeds offset text = [] := by
  apply List.eq_nil_of_length_eq_zero
  rw [length_behindLineFeeds, List.count_eq_zero.2 h]

/-- The starts of the lines up to one behind a text: there is one for each line feed in the text,
and the last is where the line starts. -/
theorem exists_starts {front : List Char} (h : StartsLine front) :
    ∃ before, 0 :: behindLineFeeds 0 front = before ++ [utf8Length front] ∧
      before.length = front.count '\n' := by
  cases front using List.reverseRecOn with
  | nil => exact ⟨[], rfl, rfl⟩
  | append_singleton front c =>
    obtain rfl : c = '\n' := h c (by simp)
    refine ⟨0 :: behindLineFeeds 0 front, ?_, ?_⟩
    · rw [behindLineFeeds_append, utf8Length_append, Nat.zero_add]
      rfl
    · rw [List.length_cons, length_behindLineFeeds, List.count_append]
      rfl

namespace LineIndex

/-- The line of an offset, and where it starts: `front` stands in front of the line, and all further
lines start behind the offset. -/
theorem line?_eq {source : String} {front rest : List Char} {offset : Nat}
    (hsource : source.toList = front ++ rest) (hstarts : StartsLine front)
    (hle : utf8Length front ≤ offset)
    (hlater : ∀ start ∈ behindLineFeeds (utf8Length front) rest, offset < start) :
    (ofSource source).line? offset = some (front.count '\n') ∧
      (ofSource source).starts[front.count '\n']? = some (utf8Length front) := by
  obtain ⟨before, hbefore, hcount⟩ := exists_starts hstarts
  have hlist : (ofSource source).starts.toList =
      before ++ utf8Length front :: behindLineFeeds (utf8Length front) rest := by
    have happend := behindLineFeeds_append 0 front rest
    rw [Nat.zero_add] at happend
    show 0 :: behindLineFeeds 0 source.toList = _
    rw [hsource, happend, ← List.cons_append, hbefore, List.append_assoc]
    rfl
  have hstart : (ofSource source).starts[front.count '\n']? = some (utf8Length front) := by
    rw [← Array.getElem?_toList, hlist, ← hcount]
    simp
  obtain ⟨line, start, hline, hfound, hfirst, hothers⟩ := (ofSource source).exists_line offset
  obtain ⟨hsize, hget⟩ := Array.getElem?_eq_some_iff.1 hstart
  -- An earlier line would not be the last up to the offset, a later one starts behind it.
  have hnotLess : ¬ line < front.count '\n' := by
    intro hlt
    have := hothers _ hsize hlt
    omega
  have hnotMore : ¬ front.count '\n' < line := by
    intro hlt
    obtain ⟨more, rfl⟩ := Nat.exists_eq_add_of_lt hlt
    rw [← Array.getElem?_toList, hlist, ← hcount, Nat.add_assoc,
      List.getElem?_append_right (Nat.le_add_right _ _), Nat.add_sub_cancel_left,
      List.getElem?_cons_succ] at hfound
    have := hlater start (List.mem_of_getElem? hfound)
    omega
  obtain rfl : line = front.count '\n' := by omega
  exact ⟨hline, hstart⟩

/-- The position of an offset that comes down to a place on the line behind `front`. -/
theorem position?_eq {source : String} {front rest : List Char} {offset place : Nat}
    (hsource : source.toList = front ++ rest) (hstarts : StartsLine front)
    (hplace : min offset (utf8Length source.toList) = place) (hle : utf8Length front ≤ place)
    (hlater : ∀ start ∈ behindLineFeeds (utf8Length front) rest, place < start) :
    (ofSource source).position? offset = some ⟨front.count '\n' + 1,
      ((slice? source.toList (utf8Length front) place).map List.length).getD
        (place - utf8Length front) + 1⟩ := by
  obtain ⟨hline, hstart⟩ := line?_eq hsource hstarts hle hlater
  have htext : (ofSource source).text = source.toList := rfl
  simp [position?, htext, hplace, hline, hstart, hle]

/-- Between two characters the column counts the characters of the line in front of the place. -/
theorem position?_between {source : String} {front current rest : List Char} {offset : Nat}
    (hsource : source.toList = front ++ (current ++ rest)) (hstarts : StartsLine front)
    (hline : '\n' ∉ current)
    (hplace : min offset (utf8Length source.toList) = utf8Length (front ++ current)) :
    (ofSource source).position? offset = some ⟨front.count '\n' + 1, current.length + 1⟩ := by
  have hlater : ∀ start ∈ behindLineFeeds (utf8Length front) (current ++ rest),
      utf8Length (front ++ current) < start := by
    rw [behindLineFeeds_append, behindLineFeeds_of_notMem hline, List.nil_append,
      ← utf8Length_append]
    exact fun start => lt_of_mem_behindLineFeeds
  have hle : utf8Length front ≤ utf8Length (front ++ current) := by simp
  rw [position?_eq hsource hstarts hplace hle hlater, hsource, slice?_between]
  rfl

/-- Inside a character it counts the bytes of the line. -/
theorem position?_inside {source : String} {front current rest : List Char} {c : Char}
    {offset place : Nat} (hsource : source.toList = front ++ (current ++ c :: rest))
    (hstarts : StartsLine front) (hline : '\n' ∉ current)
    (hplace : min offset (utf8Length source.toList) = place)
    (hlow : utf8Length (front ++ current) < place)
    (hhigh : place < utf8Length (front ++ current) + c.utf8Size) :
    (ofSource source).position? offset =
      some ⟨front.count '\n' + 1, place - utf8Length front + 1⟩ := by
  have hc : '\n' ∉ current ++ [c] := by
    simp [hline, Ne.symm (ne_newline_of_inside hlow hhigh)]
  have hlater : ∀ start ∈ behindLineFeeds (utf8Length front) (current ++ c :: rest),
      place < start := by
    intro start hstart
    rw [List.append_cons, behindLineFeeds_append, behindLineFeeds_of_notMem hc] at hstart
    have hlt := lt_of_mem_behindLineFeeds hstart
    simp only [utf8Length_append, utf8Length_cons, utf8Length_nil] at hlt hhigh
    omega
  have hle : utf8Length front ≤ place := by
    rw [utf8Length_append] at hlow
    omega
  rw [position?_eq hsource hstarts hplace hle hlater, hsource, slice?_inside _ _ _ hlow hhigh]
  rfl

end LineIndex

/-! ### Dividing a text -/

namespace Position

/-- A text is whole lines and its last line. -/
theorem exists_eq_append_lastLine (text : List Char) :
    ∃ front, text = front ++ lastLine text ∧ StartsLine front ∧ '\n' ∉ lastLine text := by
  induction text using List.reverseRecOn with
  | nil => exact ⟨[], rfl, nofun, List.not_mem_nil⟩
  | append_singleton text c ih =>
    rw [lastLine_concat]
    by_cases hc : c = '\n'
    · exact ⟨text ++ [c], by simp [hc], by simp [StartsLine, hc], by simp [hc]⟩
    · obtain ⟨front, htext, hstarts, hline⟩ := ih
      refine ⟨front, ?_, hstarts, by simp [hc, hline, Ne.symm hc]⟩
      rw [if_neg hc, ← List.append_assoc, ← htext]

/-- Looking up the offset behind a text gives the position that a reader of the text has come to. -/
theorem position?_after {source : String} {before rest : List Char} {offset : Nat}
    (hsource : source.toList = before ++ rest)
    (hplace : min offset (utf8Length source.toList) = utf8Length before) :
    (LineIndex.ofSource source).position? offset = some (first.after before) := by
  obtain ⟨front, hbefore, hstarts, hline⟩ := exists_eq_append_lastLine before
  have hcount : before.count '\n' = front.count '\n' := by
    rw [hbefore, count_append_line hline]
  rw [first_after, hcount]
  rw [hbefore] at hplace
  rw [hbefore, List.append_assoc] at hsource
  exact LineIndex.position?_between hsource hstarts hline hplace

end Position

/-- An offset of a text is between two characters or inside one. -/
theorem exists_between_or_inside {text : List Char} {place : Nat} (h : place ≤ utf8Length text) :
    (∃ before rest, text = before ++ rest ∧ utf8Length before = place) ∨
      ∃ before c rest, text = before ++ c :: rest ∧ utf8Length before < place ∧
        place < utf8Length before + c.utf8Size := by
  induction text generalizing place with
  | nil => exact .inl ⟨[], [], rfl, (Nat.le_zero.1 h).symm⟩
  | cons c text ih =>
    by_cases hzero : place = 0
    · exact .inl ⟨[], c :: text, rfl, hzero.symm⟩
    by_cases hsize : place < c.utf8Size
    · exact .inr ⟨[], c, text, rfl, Nat.pos_of_ne_zero hzero, by simpa using hsize⟩
    rw [utf8Length_cons] at h
    rcases @ih (place - c.utf8Size) (by omega) with ⟨before, rest, rfl, hplace⟩ |
      ⟨before, d, rest, rfl, hlow, hhigh⟩
    · refine .inl ⟨c :: before, rest, rfl, ?_⟩
      rw [utf8Length_cons]
      omega
    · refine .inr ⟨c :: before, d, rest, rfl, ?_, ?_⟩ <;> rw [utf8Length_cons] <;> omega

end SyslModel
