import SyslModel.Proofs.Diagnostics
import SyslModel.Proofs.Source.LineIndex
import SyslModel.Proofs.Token.Cut
/-!
# Where tokens stand

No token and no error goes on behind the end of its line, and every token carries the position of
the offset at which it starts.
-/

namespace SyslModel

/-!
## Tokens stay on their line

`tokenize_append_newline` puts any two texts behind each other, with a line feed between them.  The
tokens and the errors are then those of the one and those of the other, and what comes from the
second text stands further on by bytes and lines, in the same column.

Bad text is no exception: it is joined with bad text that it touches, but never across a line feed.
-/

/-- The places of a text, once it stands below another one, with a line feed between the two. -/
def Relocation.below (text : String) : Relocation :=
  .shift (text.utf8ByteSize + 1) fun p => ⟨p.line + (text.toList.count '\n' + 1), p.column⟩

/-- The error elsewhere. -/
def LexicalError.relocate (m : Relocation) (e : LexicalError) : LexicalError :=
  { e with span := m.span e.span, position := m.position e.position }

/-! ### Below a text -/

theorem Position.behind_newline (text : List Char) (p : Position) :
    (first.after (text ++ ['\n'])).behind p = ⟨p.line + (text.count '\n' + 1), p.column⟩ := by
  rw [first_after_newline]
  unfold behind
  split
  · next hline => exact congrArg₂ mk (by dsimp only; omega) (Nat.add_sub_cancel_left 1 _)
  · exact congrArg₂ mk (by dsimp only; omega) rfl

/-- Behind a text and a line feed is below the text. -/
theorem Relocation.behind_newline (text : String) :
    Relocation.behind (text.toList ++ ['\n']) = .below text := by
  have hbytes : utf8Length (text.toList ++ ['\n']) = text.utf8ByteSize + 1 := by
    rw [utf8Length_append, utf8Length_toList]
    rfl
  have hposition : (Position.first.after (text.toList ++ ['\n'])).behind =
      fun p => ⟨p.line + (text.toList.count '\n' + 1), p.column⟩ :=
    funext (Position.behind_newline text.toList)
  rw [Relocation.behind, hbytes, hposition, Relocation.below]

theorem error?_behind (before text : List Char) (piece : Piece) :
    PlacedPiece.error? ⟨Location.first.after (before ++ text), piece⟩ =
      (PlacedPiece.error? ⟨Location.first.after text, piece⟩).map
        (LexicalError.relocate (.behind before)) := by
  rw [Location.first_after_append]
  unfold PlacedPiece.error?
  cases piece.kind with
  | token kind => rfl
  | blank => rfl
  | bad =>
    refine congrArg (fun span => some (LexicalError.mk _ span _)) ?_
    exact congrArg (Span.mk _) (Nat.add_right_comm _ _ _)

/-- The stretches of two texts with a line feed between them. -/
theorem stretches_append_newline (first second : String) :
    stretches (first ++ "\n" ++ second) = stretches first ++
      ⟨Location.first.after first.toList, ⟨.blank, ['\n']⟩⟩ ::
        placed (Location.first.after ((first.toList ++ ['\n']) ++ []))
          (joinRuns .bad (pieces second.toList)) := by
  have htext : (first ++ "\n" ++ second).toList = first.toList ++ '\n' :: second.toList := by simp
  rw [stretches, htext, pieces_append_newline, joinRuns_append_cons (by decide), placed_append,
    joinRuns_flatten, pieces_flatten, placed, stretches, List.append_nil, Location.after_append]

/-! ### The tokens and the errors -/

theorem errors_below (first second : String) :
    (tokenize (first ++ "\n" ++ second)).errors =
      (tokenize first).errors ++ (tokenize second).errors.map (.relocate (.below first)) := by
  have hbelow := filterMap_placed_behind (error?_behind (first.toList ++ ['\n'])) []
    (joinRuns .bad (pieces second.toList))
  rw [Relocation.behind_newline] at hbelow
  rw [errors_eq, stretches_append_newline, List.filterMap_append, List.filterMap_cons_none rfl,
    hbelow, ← errors_eq]
  exact congrArg _ (congrArg _ (errors_eq second).symm)

theorem tokens_below (first second : String) :
    (tokenize (first ++ "\n" ++ second)).tokens =
      (tokenize first).tokens.dropLast
        ++ (tokenize second).tokens.map (.relocate (.below first)) := by
  obtain ⟨tokens, final, htokens, -⟩ := final_token first
  obtain ⟨tokens', final', htokens', -⟩ := final_token second
  have hnewline : (first ++ "\n").toList = first.toList ++ ['\n'] := String.toList_append
  rw [tokens_append_newline htokens htokens', hnewline, Relocation.behind_newline, htokens,
    List.dropLast_concat, htokens']

/-- Whatever two texts are, with a line feed between them they have the tokens of the first one but
for its end, and behind them all tokens of the second one; and they have the errors of the first one
and those of the second.  All that comes from the second text is below the first. -/
theorem tokenize_append_newline (first second : String) :
    tokenize (first ++ "\n" ++ second) =
      { tokens := (tokenize first).tokens.dropLast
          ++ (tokenize second).tokens.map (Token.relocate (.below first))
        errors := (tokenize first).errors
          ++ (tokenize second).errors.map (LexicalError.relocate (.below first)) } :=
  congrArg₂ Lexed.mk (tokens_below first second) (errors_below first second)

/-- A string that is not closed, even one with a backslash at the end of its line, ends there. -/
example : (tokenize ("\"a\\" ++ "\n" ++ "$ B")).errors =
    [⟨.unterminatedString, ⟨0, 3⟩, ⟨1, 1⟩⟩, ⟨.unrecognized "$", ⟨4, 5⟩, ⟨2, 1⟩⟩] := by
  decide +kernel

/-!
## Offsets and positions

`exactPositions` says what the position of any offset of any source is, and that looking it up never
fails.  On the places between characters, positions are in the order of offsets, so different places
have different positions.

Tokens carry positions that were found another way, by going over the source from its start.  They
are the positions of the offsets where the tokens start, and so they are in order too.
-/

/-- Is the offset between two characters of a source, or at one of its ends? -/
def IsBoundary (source : String) (offset : Nat) : Prop :=
  ∃ before after, source.toList = before ++ after ∧ utf8Length before = offset

namespace Position

/-- In front of another position, in reading order. -/
def Before (p q : Position) : Prop := p.le q = true ∧ p ≠ q

/-- The position of a place in a source. -/
structure IsAt (source : String) (place : Nat) (p : Position) : Prop where
  /-- The line is one more than the line feeds among the bytes in front of the place. -/
  line : p.line = (source.toByteArray.data.toList.take place).count newlineByte + 1
  /-- Between two characters the column is one more than the characters in front of the place, from
  the last line feed on. -/
  between : ∀ front current rest, source.toList = front ++ (current ++ rest) → StartsLine front →
    '\n' ∉ current → place = utf8Length (front ++ current) → p.column = current.length + 1
  /-- Inside a character it is one more than the bytes in front of the place, from the last line
  feed on. -/
  inside : ∀ front current c rest, source.toList = front ++ (current ++ c :: rest) →
    StartsLine front → '\n' ∉ current → utf8Length (front ++ current) < place →
    place < utf8Length (front ++ current) + c.utf8Size →
    p.column = place - utf8Length front + 1

end Position

/-- How the offsets of a source, positions and tokens belong together. -/
structure ExactPositions (source : String) : Prop where
  /-- Every offset is looked up, as the place that it comes down to: offsets behind the source count
  as its end. -/
  lookup : ∀ offset,
    (LineIndex.ofSource source).position? offset = some (Position.atOffset source offset) ∧
      (Position.atOffset source offset).IsAt source (min offset source.utf8ByteSize)
  /-- Between characters the positions are in the order of the offsets. -/
  increasing : ∀ a b, IsBoundary source a → IsBoundary source b → a < b →
    (Position.atOffset source a).Before (Position.atOffset source b)
  /-- So no two places have the same position. -/
  injective : ∀ a b, IsBoundary source a → IsBoundary source b →
    Position.atOffset source a = Position.atOffset source b → a = b
  /-- A token has the position of the offset where it starts. -/
  token : ∀ t ∈ (tokenize source).tokens, IsBoundary source t.span.start ∧
    t.position = Position.atOffset source t.span.start
  /-- The positions of the tokens are in order, that of the end of the file included. -/
  tokens_ordered : ((tokenize source).tokens.map Token.position).Pairwise Position.Before

/-! ### Reading order -/

namespace Position

theorem before_iff {p q : Position} :
    p.Before q ↔ p.line < q.line ∨ p.line = q.line ∧ p.column < q.column := by
  obtain ⟨line, column⟩ := p
  obtain ⟨line', column'⟩ := q
  simp only [Before, le, ne_eq, mk.injEq, Bool.or_eq_true, Bool.and_eq_true, decide_eq_true_eq,
    beq_iff_eq]
  omega

theorem Before.trans {p q r : Position} (h : p.Before q) (h' : q.Before r) : p.Before r := by
  rw [before_iff] at *
  omega

theorem before_next (p : Position) (c : Char) : p.Before (p.next c) := by
  rw [before_iff, next]
  by_cases hc : c = '\n'
  · simp [hc]
  · simp [hc]

/-- Every character leads on. -/
theorem before_after (p : Position) (c : Char) (text : List Char) :
    p.Before (p.after (c :: text)) := by
  induction text generalizing p c with
  | nil => exact before_next p c
  | cons d text ih => exact (before_next p c).trans (ih (p.next c) d)

theorem Before.irrefl (p : Position) : ¬ p.Before p := fun h => h.2 rfl

/-! ### Looking up -/

theorem position?_atOffset (source : String) (offset : Nat) :
    (LineIndex.ofSource source).position? offset = some (atOffset source offset) :=
  (Option.some_get _).symm

theorem atOffset_eq {source : String} {offset : Nat} {p : Position}
    (h : (LineIndex.ofSource source).position? offset = some p) : atOffset source offset = p :=
  Option.some.inj ((position?_atOffset source offset).symm.trans h)

/-- Between two characters the position is the one that a reader of the source has come to. -/
theorem atOffset_boundary {source : String} {before rest : List Char}
    (h : source.toList = before ++ rest) :
    atOffset source (utf8Length before) = first.after before := by
  have hplace : min (utf8Length before) (utf8Length source.toList) = utf8Length before := by
    rw [h, utf8Length_append]
    omega
  exact atOffset_eq (position?_after h hplace)

/-- The line feeds in front of a place may be counted byte by byte. -/
theorem line_atOffset (source : String) (offset : Nat) :
    (atOffset source offset).line =
      (source.toByteArray.data.toList.take (min offset source.utf8ByteSize)).count newlineByte
        + 1 := by
  rw [← utf8Length_toList, toByteArray_eq]
  rcases exists_between_or_inside (Nat.min_le_right offset (utf8Length source.toList)) with
    ⟨before, rest, hsource, hplace⟩ | ⟨before, c, rest, hsource, hlow, hhigh⟩
  · rw [atOffset_eq (position?_after hsource hplace.symm), first_after, ← hplace, hsource,
      take_utf8Bytes, count_utf8Bytes]
  · obtain ⟨front, hbefore, hstarts, hline⟩ := exists_eq_append_lastLine before
    have hsplit : source.toList = front ++ (lastLine before ++ c :: rest) := by
      rw [hsource, ← List.append_assoc, ← hbefore]
    have hinside := LineIndex.position?_inside hsplit hstarts hline rfl (hbefore ▸ hlow)
      (hbefore ▸ hhigh)
    have hcount : before.count '\n' = front.count '\n' := by
      rw [hbefore, count_append_line hline]
    obtain ⟨bytes, hplace⟩ := Nat.exists_eq_add_of_le (Nat.le_of_lt hlow)
    rw [atOffset_eq hinside, hplace, hsource,
      count_take_utf8Bytes (ne_newline_of_inside hlow hhigh) (by omega), hcount]

/-- Every offset has the position of the place that it comes down to. -/
theorem isAt_atOffset (source : String) (offset : Nat) :
    (atOffset source offset).IsAt source (min offset source.utf8ByteSize) where
  line := line_atOffset source offset
  between front current rest hsource hstarts hline hplace := by
    rw [← utf8Length_toList] at hplace
    rw [atOffset_eq (LineIndex.position?_between hsource hstarts hline hplace)]
  inside front current c rest hsource hstarts hline hlow hhigh := by
    rw [← utf8Length_toList] at hlow hhigh ⊢
    rw [atOffset_eq (LineIndex.position?_inside hsource hstarts hline rfl hlow hhigh)]

/-! ### The order of the offsets -/

/-- Of two places between characters the second is some characters behind the first. -/
theorem atOffset_before {source : String} {a b : Nat} (ha : IsBoundary source a)
    (hb : IsBoundary source b) (hlt : a < b) :
    (atOffset source a).Before (atOffset source b) := by
  obtain ⟨before, rest, hsource, rfl⟩ := ha
  obtain ⟨before', rest', hsource', rfl⟩ := hb
  rw [atOffset_boundary hsource, atOffset_boundary hsource']
  rcases List.append_eq_append_iff.1 (hsource.symm.trans hsource') with
    ⟨gap, rfl, -⟩ | ⟨gap, rfl, -⟩
  · rw [after_append]
    cases gap with
    | nil => simp at hlt
    | cons c gap => exact before_after _ c gap
  · rw [utf8Length_append] at hlt
    omega

theorem atOffset_injective {source : String} {a b : Nat} (ha : IsBoundary source a)
    (hb : IsBoundary source b) (h : atOffset source a = atOffset source b) : a = b := by
  rcases Nat.lt_trichotomy a b with hlt | heq | hlt
  · exact absurd (h ▸ atOffset_before ha hb hlt) (Before.irrefl _)
  · exact heq
  · exact absurd (h ▸ atOffset_before hb ha hlt) (Before.irrefl _)

/-- The position that a token carries is found at the offset where it starts. -/
theorem token_boundary {source : String} {t : Token} (h : t ∈ (tokenize source).tokens) :
    IsBoundary source t.span.start ∧ t.position = atOffset source t.span.start := by
  obtain ⟨before, text, behind, hslice, hposition⟩ := anchored_of_mem_tokens h
  refine ⟨⟨before, text ++ behind, hslice.split, hslice.start_eq.symm⟩, ?_⟩
  rw [hposition, hslice.start_eq, atOffset_boundary hslice.split, first_after]

theorem tokens_before (source : String) :
    ((tokenize source).tokens.map Token.position).Pairwise Before := by
  have hspans := tokens_ordered source
  rw [List.pairwise_map] at hspans ⊢
  refine hspans.imp_of_mem fun {t u} ht hu hlt => ?_
  obtain ⟨htstart, htposition⟩ := token_boundary ht
  obtain ⟨hustart, huposition⟩ := token_boundary hu
  rw [htposition, huposition]
  exact atOffset_before htstart hustart hlt.1

end Position

/-- Offsets, positions and tokens of every source belong together. -/
theorem exactPositions (source : String) : ExactPositions source where
  lookup offset := ⟨Position.position?_atOffset source offset,
    Position.isAt_atOffset source offset⟩
  increasing _ _ := Position.atOffset_before
  injective _ _ := Position.atOffset_injective
  token _ := Position.token_boundary
  tokens_ordered := Position.tokens_before source

/-- Inside a character an offset may share its position with a place between characters, here with
the end of the line. -/
example : Position.atOffset "aé\nb" 2 = ⟨1, 3⟩ ∧ Position.atOffset "aé\nb" 3 = ⟨1, 3⟩ ∧
    Position.atOffset "aé\nb" 4 = ⟨2, 1⟩ ∧ Position.atOffset "aé\nb" 9 = ⟨2, 2⟩ := by
  decide +kernel

end SyslModel
