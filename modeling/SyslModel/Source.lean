/-!
# Places in a source

A place in a source is told in two ways: as an offset, which counts the bytes of its UTF-8 text, or
as a position, which is a line and a column.  Spans are made of offsets.  A reader that goes over
the source from left to right carries both along (`Location`), and a `LineIndex` finds the position
of any offset (`Position.atOffset`).
-/

namespace SyslModel

/-!
## Spans of the source text

A span is a range of byte offsets in the UTF-8 text of a source, its end excluded.  `Span.cover`
joins two spans into the smallest one that holds both.
-/

/-- A range of byte offsets: from `start` up to but not including `stop`. -/
structure Span where
  /-- The first byte of the range. -/
  start : Nat
  /-- The byte after the last one of the range. -/
  stop : Nat
  deriving DecidableEq, Inhabited

namespace Span

/-- The empty span at the start of a source, which stands for "nowhere". -/
def origin : Span := ⟨0, 0⟩

/-- The empty span at an offset. -/
def emptyAt (offset : Nat) : Span := ⟨offset, offset⟩

/-- The smallest span that covers two others. -/
def cover (a b : Span) : Span := ⟨min a.start b.start, max a.stop b.stop⟩

/-- The spans that grow out of the first one by covering the others in turn. -/
def covers : List Span → List Span
  | [] => []
  | first :: others => first :: grow first others
where
  /-- The covers of `reached` with one more span each. -/
  grow (reached : Span) : List Span → List Span
    | [] => []
    | next :: others => reached.cover next :: grow (reached.cover next) others

end Span

/-!
## Lines, columns and offsets

Lines and columns count from one; a column counts characters, and only a line feed ends a line.
Offsets count the bytes of the UTF-8 text.

A `Location` is an offset together with its position, and `Location.after` carries it over a text,
so that a left-to-right reader knows where it stands without looking back.
-/

/-- The number of bytes of a text in UTF-8. -/
def utf8Length (text : List Char) : Nat := text.foldr (fun c length => c.utf8Size + length) 0

@[simp] theorem utf8Length_nil : utf8Length [] = 0 := rfl

@[simp] theorem utf8Length_cons (c : Char) (text : List Char) :
    utf8Length (c :: text) = c.utf8Size + utf8Length text := rfl

@[simp] theorem utf8Length_append (first second : List Char) :
    utf8Length (first ++ second) = utf8Length first + utf8Length second := by
  induction first with
  | nil => simp
  | cons c rest ih => simp [ih, Nat.add_assoc]

/-- A place in a text as people count it. -/
structure Position where
  /-- The line, counted from one. -/
  line : Nat
  /-- The column, counted from one. -/
  column : Nat
  deriving DecidableEq, Inhabited

namespace Position

/-- The first position of every text. -/
def first : Position := ⟨1, 1⟩

/-- The position after one more character. -/
def next (p : Position) (c : Char) : Position :=
  if c = '\n' then ⟨p.line + 1, 1⟩ else ⟨p.line, p.column + 1⟩

/-- The position after a text. -/
def after (p : Position) (text : List Char) : Position := text.foldl next p

/-- Reading order: by line, then by column. -/
def le (p q : Position) : Bool :=
  p.line < q.line || (p.line == q.line && p.column ≤ q.column)

/-- Positions in reading order. -/
def inOrder (positions : List Position) : List Position := positions.mergeSort le

/-- The line and the column, with a colon between them. -/
def display (p : Position) : String := p.line.repr ++ ":" ++ p.column.repr

/-- What stands after the last line feed of a text. -/
def lastLine (text : List Char) : List Char :=
  (text.reverse.takeWhile (· ≠ '\n')).reverse

@[simp] theorem after_nil (p : Position) : p.after [] = p := rfl

@[simp] theorem after_cons (p : Position) (c : Char) (text : List Char) :
    p.after (c :: text) = (p.next c).after text := rfl

theorem after_append (p : Position) (a b : List Char) : p.after (a ++ b) = (p.after a).after b := by
  simp [after, List.foldl_append]

end Position

/-- A byte offset together with its position. -/
structure Location where
  /-- The byte offset. -/
  offset : Nat
  /-- The line and the column of the offset. -/
  position : Position
  deriving DecidableEq, Inhabited

namespace Location

/-- Where every text starts. -/
def first : Location := ⟨0, Position.first⟩

/-- The location after a text. -/
def after (place : Location) (text : List Char) : Location :=
  ⟨place.offset + utf8Length text, place.position.after text⟩

@[simp] theorem after_nil (place : Location) : place.after [] = place := rfl

theorem after_append (place : Location) (a b : List Char) :
    place.after (a ++ b) = (place.after a).after b := by
  simp [after, Position.after_append, Nat.add_assoc]

end Location

/-!
## Positions of offsets

A `LineIndex` knows the offset at which each line of a text starts, so that the position of an
offset is found without going over the text: a binary search finds the line, and the column counts
the characters from its start.  `Position.atOffset` is the position of any offset of a source.

Looking a position up could fail in several ways.  `LineIndex.position?_isSome` says that the order
of the lines rules them all out.
-/

/-! ### Parts of a text -/

/-- Cuts a text behind so many bytes, unless that is inside a character or behind the end. -/
def cutAt? : List Char → Nat → Option (List Char × List Char)
  | text, 0 => some ([], text)
  | [], _ => none
  | c :: text, bytes =>
    if c.utf8Size ≤ bytes then
      (cutAt? text (bytes - c.utf8Size)).map fun cut => (c :: cut.1, cut.2)
    else none

/-- The text between two offsets that are in order and not inside a character. -/
def slice? (text : List Char) (start stop : Nat) : Option (List Char) :=
  if start ≤ stop then do
    let behind ← cutAt? text start
    let part ← cutAt? behind.2 (stop - start)
    pure part.1
  else none

/-! ### The starts of the lines -/

/-- The offsets behind the line feeds of a text that starts at an offset. -/
def behindLineFeeds (offset : Nat) : List Char → List Nat
  | [] => []
  | c :: text =>
    let others := behindLineFeeds (offset + c.utf8Size) text
    if c = '\n' then (offset + 1) :: others else others

theorem lt_of_mem_behindLineFeeds {text : List Char} {offset start : Nat}
    (h : start ∈ behindLineFeeds offset text) : offset < start := by
  induction text generalizing offset with
  | nil => cases h
  | cons c text ih =>
    have hsize := c.utf8Size_pos
    have hothers : start ∈ behindLineFeeds (offset + c.utf8Size) text → offset < start := by
      intro hmem
      have := ih hmem
      omega
    simp only [behindLineFeeds] at h
    split at h
    · rcases List.mem_cons.1 h with rfl | h
      · omega
      · exact hothers h
    · exact hothers h

theorem behindLineFeeds_increasing (offset : Nat) (text : List Char) :
    (behindLineFeeds offset text).Pairwise (· < ·) := by
  induction text generalizing offset with
  | nil => exact .nil
  | cons c text ih =>
    simp only [behindLineFeeds]
    split
    · next hc =>
      refine List.pairwise_cons.2 ⟨fun start hstart => ?_, ih _⟩
      have hlt := lt_of_mem_behindLineFeeds hstart
      rw [hc] at hlt
      exact hlt
    · exact ih _

/-- A text with the offsets at which its lines start. -/
structure LineIndex where
  /-- The text. -/
  text : List Char
  /-- Where each line starts, from the first one on. -/
  starts : Array Nat
  /-- The lines stand one behind another. -/
  increasing : starts.toList.Pairwise (· < ·)
  /-- The first line starts where the text does. -/
  starts_zero : starts[0]? = some 0

namespace LineIndex

/-- The lines of a source: one starts with it, and one behind each line feed. -/
def ofSource (source : String) : LineIndex where
  text := source.toList
  starts := (0 :: behindLineFeeds 0 source.toList).toArray
  increasing := List.pairwise_cons.2
    ⟨fun _ => lt_of_mem_behindLineFeeds, behindLineFeeds_increasing 0 source.toList⟩
  starts_zero := rfl

/-- Looks for an offset among increasing ones from `low` up to but not including `high`, by halves:
the place where it stands, or else the one where it would have to be put in. -/
def search (starts : Array Nat) (offset low high : Nat) (h : high ≤ starts.size) :
    Except Nat Nat :=
  if hlt : low < high then
    let middle := (low + high) / 2
    if starts[middle] = offset then .ok middle
    else if starts[middle] < offset then search starts offset (middle + 1) high h
    else search starts offset low middle (by omega)
  else .error low
  termination_by high - low

/-- The line of an offset, counted from zero: the line that starts there, or the one in front of the
place where such a line would have to be put in.  In front of the first line there is none. -/
def line? (index : LineIndex) (offset : Nat) : Option Nat :=
  match search index.starts offset 0 index.starts.size (Nat.le_refl _) with
  | .ok line => some line
  | .error 0 => none
  | .error (next + 1) => some next

/-- The position of an offset.  An offset past the end counts as the end.  Inside a character the
column counts the bytes of the line instead of its characters.  There is no position if there is no
line, if it is not in the index or if it starts behind the offset; none of this happens
(`position?_isSome`). -/
def position? (index : LineIndex) (offset : Nat) : Option Position := do
  let offset := min offset (utf8Length index.text)
  let line ← index.line? offset
  let start ← index.starts[line]?
  let bytes ← if start ≤ offset then some (offset - start) else none
  let column := ((slice? index.text start offset).map List.length).getD bytes
  pure ⟨line + 1, column + 1⟩

/-! ### Searching -/

/-- What a search among increasing offsets comes to. -/
inductive Finds (starts : Array Nat) (offset : Nat) : Except Nat Nat → Prop
  /-- The offset stands there. -/
  | found {place : Nat} : starts[place]? = some offset → Finds starts offset (.ok place)
  /-- Smaller offsets stand in front of the place, larger ones from the place on. -/
  | missing {place : Nat} : place ≤ starts.size →
      (∀ (i : Nat) (h : i < starts.size), i < place → starts[i] < offset) →
      (∀ (i : Nat) (h : i < starts.size), place ≤ i → offset < starts[i]) →
      Finds starts offset (.error place)

theorem getElem_lt {starts : Array Nat} (hinc : starts.toList.Pairwise (· < ·)) {i j : Nat}
    (hij : i < j) (hj : j < starts.size) : starts[i] < starts[j] := by
  have := List.pairwise_iff_getElem.1 hinc i j (by simpa using Nat.lt_trans hij hj)
    (by simpa using hj) hij
  simpa using this

/-- With smaller offsets in front of the range and larger ones behind it, the search comes to what
it should. -/
theorem finds_search {starts : Array Nat} (hinc : starts.toList.Pairwise (· < ·))
    (offset low high : Nat) (h : high ≤ starts.size) (hle : low ≤ high)
    (hlow : ∀ (i : Nat) (hi : i < starts.size), i < low → starts[i] < offset)
    (hhigh : ∀ (i : Nat) (hi : i < starts.size), high ≤ i → offset < starts[i]) :
    Finds starts offset (search starts offset low high h) := by
  fun_induction search starts offset low high h with
  | case1 low high h hlt middle heq =>
    refine .found ?_
    rw [Array.getElem?_eq_getElem (by omega), heq]
  | case2 low high h hlt middle hne hless ih =>
    refine ih (by omega) (fun i hi hlt' => ?_) hhigh
    rcases Nat.lt_or_eq_of_le (Nat.le_of_lt_succ hlt') with hlt' | rfl
    · have := getElem_lt hinc hlt' (by omega)
      omega
    · exact hless
  | case3 low high h hlt middle hne hless ih =>
    refine ih (by omega) hlow fun i hi hle' => ?_
    rcases Nat.lt_or_eq_of_le hle' with hlt' | rfl
    · have := getElem_lt hinc hlt' hi
      omega
    · omega
  | case4 low high h hlt =>
    exact .missing (by omega) hlow fun i hi hle' => hhigh i hi (by omega)

/-- Every offset has a line, which starts at the offset or before it, and all further lines start
behind it. -/
theorem exists_line (index : LineIndex) (offset : Nat) :
    ∃ line start, index.line? offset = some line ∧ index.starts[line]? = some start ∧
      start ≤ offset ∧
      ∀ (i : Nat) (h : i < index.starts.size), line < i → offset < index.starts[i] := by
  have hfinds := finds_search index.increasing offset 0 index.starts.size (Nat.le_refl _)
    (Nat.zero_le _) (fun i _ hi => absurd hi (Nat.not_lt_zero i))
    (fun i hi hle => absurd hi (Nat.not_lt.2 hle))
  unfold line?
  generalize search index.starts offset 0 index.starts.size _ = result at hfinds
  obtain ⟨hpos, hzero⟩ := Array.getElem?_eq_some_iff.1 index.starts_zero
  cases hfinds with
  | @found place hplace =>
    refine ⟨place, offset, rfl, hplace, Nat.le_refl _, fun i hi hlt => ?_⟩
    obtain ⟨hsize, rfl⟩ := Array.getElem?_eq_some_iff.1 hplace
    exact getElem_lt index.increasing hlt hi
  | @missing place hsize hbefore hbehind =>
    cases place with
    | zero =>
      -- The first line starts at zero, which is behind no offset.
      have := hbehind 0 hpos (Nat.le_refl _)
      omega
    | succ next =>
      refine ⟨next, index.starts[next], rfl, Array.getElem?_eq_getElem hsize, ?_, hbehind⟩
      exact Nat.le_of_lt (hbefore next hsize (Nat.lt_succ_self next))

/-- Every offset has a position. -/
theorem position?_isSome (index : LineIndex) (offset : Nat) :
    (index.position? offset).isSome := by
  simp only [position?]
  generalize min offset (utf8Length index.text) = place
  obtain ⟨line, start, hline, hstart, hle, -⟩ := index.exists_line place
  simp [hline, hstart, hle]

/-- The position of an offset. -/
def position (index : LineIndex) (offset : Nat) : Position :=
  (index.position? offset).get (index.position?_isSome offset)

end LineIndex

/-- The position of a byte offset of a source. -/
def Position.atOffset (source : String) (offset : Nat) : Position :=
  (LineIndex.ofSource source).position offset

end SyslModel
