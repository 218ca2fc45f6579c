import SyslModel.Proofs.Source.Slice
import SyslModel.Proofs.Token.Cut
/-!
# A source without its errors

`blanked source` is the source with a space in place of each byte of its lexical errors: its bytes
are those of the source outside of the errors, and spaces inside (`bytes_blanked`).

Errors are made of bad pieces, so this is the text of the pieces of the source, once each of the bad
ones has been replaced by as many spaces as it has bytes (`toList_blanked`).
-/

namespace SyslModel

/-! ## The source without its errors -/

/-- A text that stands at an offset, with spaces for the characters that one of the spans holds; for
each of them there are as many as it has bytes. -/
def blankOut (spans : List Span) (offset : Nat) : List Char → List Char
  | [] => []
  | c :: text =>
    (if spans.any fun s => s.holds ⟨offset, offset + c.utf8Size⟩ then
      List.replicate c.utf8Size ' '
    else [c]) ++ blankOut spans (offset + c.utf8Size) text

/-- The source with spaces for its lexical errors. -/
def blanked (source : String) : String :=
  String.ofList (blankOut ((tokenize source).errors.map LexicalError.span) 0 source.toList)

/-! ## Byte by byte -/

/-- Is the byte at an offset one of the span? -/
def Span.hasByte (s : Span) (offset : Nat) : Bool := s.start ≤ offset && offset < s.stop

theorem Span.hasByte_iff {s : Span} {offset : Nat} :
    s.hasByte offset = true ↔ s.start ≤ offset ∧ offset < s.stop := by
  simp [hasByte]

theorem utf8Bytes_spaces (n : Nat) :
    utf8Bytes (List.replicate n ' ') = List.replicate n 32 := by
  induction n with
  | zero => rfl
  | succ n ih =>
    rw [List.replicate_succ, List.replicate_succ, ← ih]
    rfl

/-- A slice has all bytes of a character or none. -/
theorem SliceAt.holds_or_apart {source front text back before after : List Char} {span : Span}
    {c : Char} (h : SliceAt source span front text back) (hc : source = before ++ c :: after) :
    span.holds (Span.ofChar before c) = true ∨ span.stop ≤ utf8Length before ∨
      utf8Length before + c.utf8Size ≤ span.start := by
  have hstart := h.start_eq
  have hstop := h.stop_eq
  rw [utf8Length_append] at hstop
  rw [Span.holds_iff]
  dsimp only [Span.ofChar]
  rcases append_eq_append_cons (h.split.symm.trans hc) with ⟨middle, rfl, hrest⟩ | ⟨rest, hfront, -⟩
  · rw [utf8Length_append]
    rcases append_eq_append_cons hrest with ⟨gap, rfl, -⟩ | ⟨rest, htext, -⟩
    · rw [utf8Length_append]
      omega
    · rw [htext, utf8Length_append, utf8Length_cons] at hstop
      omega
  · rw [hfront, utf8Length_append, utf8Length_cons] at hstart
    omega

/-- Blanking out slices of a source replaces their bytes. -/
theorem utf8Bytes_blankOut {source : List Char} {spans : List Span}
    (hspans : ∀ s ∈ spans, ∃ text, IsSlice source s text) {before text : List Char}
    (h : source = before ++ text) :
    utf8Bytes (blankOut spans (utf8Length before) text) = (utf8Bytes text).mapIdx fun i byte =>
      if spans.any fun s => s.hasByte (utf8Length before + i) then 32 else byte := by
  induction text generalizing before with
  | nil => rfl
  | cons c text ih =>
    have hlength : utf8Length (before ++ [c]) = utf8Length before + c.utf8Size := by
      rw [utf8Length_append]
      rfl
    have hbytes : utf8Bytes (c :: text) = String.utf8EncodeChar c ++ utf8Bytes text := rfl
    have hothers := @ih (before ++ [c]) (by simp [h])
    rw [hlength] at hothers
    rw [blankOut, utf8Bytes_append, hothers, hbytes, List.mapIdx_append,
      String.length_utf8EncodeChar]
    refine congrArg₂ _ ?_ (by simp only [Nat.add_assoc, Nat.add_comm c.utf8Size])
    -- The spans have all bytes of the character, or none of them has any.
    have hbyte : ∀ i < c.utf8Size, (spans.any fun s => s.hasByte (utf8Length before + i)) =
        spans.any fun s => s.holds ⟨utf8Length before, utf8Length before + c.utf8Size⟩ := by
      intro i hi
      rw [Bool.eq_iff_iff, List.any_eq_true, List.any_eq_true]
      refine exists_congr fun s => and_congr_right fun hs => ?_
      obtain ⟨_, _, _, hslice⟩ := hspans s hs
      have hcases := hslice.holds_or_apart h
      rw [Span.holds_iff] at hcases ⊢
      rw [Span.hasByte_iff]
      dsimp only [Span.ofChar] at hcases ⊢
      omega
    split
    · next hany =>
      rw [utf8Bytes_spaces, ← String.length_utf8EncodeChar, eq_comm, List.mapIdx_eq_replicate_iff]
      intro i hi
      rw [hbyte i (String.length_utf8EncodeChar c ▸ hi), if_pos hany]
    · next hany =>
      refine List.ext_getElem (by simp [utf8Bytes]) fun i hi _ => ?_
      have hsize : i < c.utf8Size := by simpa [utf8Bytes] using hi
      rw [List.getElem_mapIdx, hbyte i hsize, if_neg hany]
      simp [utf8Bytes]

/-- The bytes of a source with its errors blanked out: those of the errors are spaces, and all
others are as they were. -/
theorem bytes_blanked (source : String) :
    (blanked source).toByteArray.data.toList = source.toByteArray.data.toList.mapIdx fun i byte =>
      if (tokenize source).errors.any fun e => e.span.hasByte i then 32 else byte := by
  have hspans : ∀ s ∈ (tokenize source).errors.map LexicalError.span,
      ∃ text, IsSlice source.toList s text := by
    intro s hs
    obtain ⟨e, he, rfl⟩ := List.mem_map.1 hs
    obtain ⟨before, text, after, hslice, -⟩ := error_slice he
    exact ⟨text, before, after, hslice⟩
  have hblank := utf8Bytes_blankOut hspans (List.nil_append source.toList).symm
  rw [toByteArray_eq, toByteArray_eq, blanked, String.toList_ofList]
  simpa [List.any_map, Function.comp_def] using hblank

/-! ## Piece by piece -/

/-- What stands in place of a piece once errors are blanked out: as many spaces as a bad piece has
bytes, else the piece itself. -/
def Piece.blanked (piece : Piece) : List Piece :=
  if piece.kind = .bad then List.replicate (utf8Length piece.text) ⟨.blank, [' ']⟩ else [piece]

theorem flatMap_text_spaces (n : Nat) :
    (List.replicate n (⟨.blank, [' ']⟩ : Piece)).flatMap Piece.text = List.replicate n ' ' := by
  induction n with
  | zero => rfl
  | succ n ih => rw [List.replicate_succ, List.flatMap_cons, ih, List.replicate_succ]; rfl

theorem Piece.blanked_bad {piece : Piece} (h : piece.kind = .bad) :
    piece.blanked = List.replicate (utf8Length piece.text) ⟨.blank, [' ']⟩ := if_pos h

theorem Piece.blanked_of_ne {piece : Piece} (h : piece.kind ≠ .bad) : piece.blanked = [piece] :=
  if_neg h

/-- The text of pieces in which the bad ones are blanked out. -/
def blankedText (pieces : List Piece) : List Char :=
  (pieces.flatMap Piece.blanked).flatMap Piece.text

theorem blankedText_cons_bad {piece : Piece} (h : piece.kind = .bad) (others : List Piece) :
    blankedText (piece :: others) =
      List.replicate (utf8Length piece.text) ' ' ++ blankedText others := by
  rw [blankedText, List.flatMap_cons, List.flatMap_append, piece.blanked_bad h,
    flatMap_text_spaces]
  rfl

theorem blankedText_cons_of_ne {piece : Piece} (h : piece.kind ≠ .bad) (others : List Piece) :
    blankedText (piece :: others) = piece.text ++ blankedText others := by
  rw [blankedText, List.flatMap_cons, List.flatMap_append, piece.blanked_of_ne h,
    List.flatMap_singleton]
  rfl

/-- Bad pieces may be joined before they are blanked out. -/
theorem flatMap_blanked_joinRuns (pieces : List Piece) :
    (joinRuns .bad pieces).flatMap Piece.blanked = pieces.flatMap Piece.blanked := by
  induction pieces with
  | nil => rfl
  | cons piece others ih =>
    rcases joinRuns_cons .bad piece others with ⟨heq, -⟩ | ⟨next, rest, hnext, hp, hn, heq⟩
    · rw [heq, List.flatMap_cons, ih, List.flatMap_cons]
    · rw [hnext, List.flatMap_cons, Piece.blanked_bad hn] at ih
      rw [heq, List.flatMap_cons, Piece.blanked_bad rfl, utf8Length_append,
        ← List.replicate_append_replicate, List.append_assoc, ih, List.flatMap_cons,
        Piece.blanked_bad hp]

/-- A character of a stretch lies in an error exactly if the stretch is bad. -/
theorem any_holds_errors {source : String} {p : PlacedPiece} (hp : p ∈ stretches source)
    {inner : Span} (hlt : inner.start < inner.stop) (hin : p.span.holds inner = true) :
    ((tokenize source).errors.map LexicalError.span).any (fun s => s.holds inner) =
      decide (p.piece.kind = .bad) := by
  rw [Bool.eq_iff_iff, List.any_eq_true, decide_eq_true_eq]
  constructor
  · rintro ⟨s, hs, hholds⟩
    obtain ⟨e, he, rfl⟩ := List.mem_map.1 hs
    obtain ⟨q, hq, hqe⟩ := mem_errors he
    obtain ⟨hbad, -, hspan, -⟩ := error?_eq_some_iff.1 hqe
    rw [hspan, Span.holds_iff] at hholds
    rw [Span.holds_iff] at hin
    rcases stretches_disjoint hp hq with rfl | happart
    · exact hbad
    · omega
  · intro hbad
    have hmem : ⟨PlacedPiece.fault p.piece.text, p.span, p.place.position⟩ ∈
        (tokenize source).errors := by
      rw [errors_eq]
      exact List.mem_filterMap.2 ⟨p, hp, error?_eq_some_iff.2 ⟨hbad, rfl, rfl, rfl⟩⟩
    exact ⟨p.span, List.mem_map.2 ⟨_, hmem, rfl⟩, hin⟩

/-- A text is blanked out as a whole if the spans hold either all of its characters or none. -/
theorem blankOut_text {spans : List Span} {offset : Nat} {text : List Char} (hold : Prop)
    [Decidable hold] (h : ∀ inner : Span, offset ≤ inner.start → inner.start < inner.stop →
      inner.stop ≤ offset + utf8Length text → spans.any (fun s => s.holds inner) = decide hold) :
    blankOut spans offset text =
      if hold then List.replicate (utf8Length text) ' ' else text := by
  induction text generalizing offset with
  | nil => exact (ite_self _).symm
  | cons c text ih =>
    have hpos := Char.utf8Size_pos c
    rw [utf8Length_cons] at h
    have hfirst := h ⟨offset, offset + c.utf8Size⟩ (by dsimp only; omega) (by dsimp only; omega)
      (by dsimp only; omega)
    have hothers := @ih (offset + c.utf8Size) fun inner hstart hlt hstop =>
      h inner (by omega) hlt (by omega)
    rw [blankOut, hfirst, hothers, utf8Length_cons]
    by_cases hold : hold
    · simp [hold]
    · simp [hold]

theorem blankOut_append (spans : List Span) (offset : Nat) (first second : List Char) :
    blankOut spans offset (first ++ second) =
      blankOut spans offset first ++ blankOut spans (offset + utf8Length first) second := by
  induction first generalizing offset with
  | nil => rfl
  | cons c first ih =>
    rw [List.cons_append, blankOut, ih, blankOut, List.append_assoc, utf8Length_cons,
      Nat.add_assoc]

theorem blankOut_placed {spans : List Span} {place : Location} {pieces : List Piece}
    (h : ∀ p ∈ placed place pieces,
      blankOut spans p.place.offset p.piece.text = p.piece.blanked.flatMap Piece.text) :
    blankOut spans place.offset (pieces.flatMap Piece.text) = blankedText pieces := by
  induction pieces generalizing place with
  | nil => rfl
  | cons piece others ih =>
    rw [placed, List.forall_mem_cons] at h
    obtain ⟨hpiece, hothers⟩ := h
    rw [List.flatMap_cons, blankOut_append, hpiece, ← Location.after_offset, ih hothers,
      blankedText, blankedText, List.flatMap_cons, List.flatMap_append]

/-- To blank out the errors of a source is to blank out its bad pieces. -/
theorem toList_blanked (source : String) :
    (blanked source).toList = blankedText (pieces source.toList) := by
  have hall : ∀ p ∈ stretches source,
      blankOut ((tokenize source).errors.map LexicalError.span) p.place.offset p.piece.text =
        p.piece.blanked.flatMap Piece.text := by
    intro p hp
    have hblank := blankOut_text (p.piece.kind = .bad) fun inner hstart hlt hstop =>
      any_holds_errors hp hlt (Span.holds_iff.2 ⟨hstart, hstop⟩)
    rw [← p.start_eq, hblank]
    by_cases hbad : p.piece.kind = .bad
    · rw [if_pos hbad, Piece.blanked_bad hbad, flatMap_text_spaces]
    · rw [if_neg hbad, Piece.blanked_of_ne hbad, List.flatMap_singleton]
  have hplaced := blankOut_placed hall
  rw [joinRuns_flatten, pieces_flatten] at hplaced
  rw [blanked, String.toList_ofList, blankedText, ← flatMap_blanked_joinRuns]
  exact hplaced

end SyslModel
