import SyslModel.Proofs.Source.LineIndex
import SyslModel.Proofs.Token.Blanked
/-!
# Errors act like white space

Once its errors are blanked out, a source is cut into the same pieces, but that the bad ones are
spaces (`pieces_blanked`).  Reading takes up again exactly where bad text ends, and no token depends
on bad text behind it.  So the tokens are the same, up to the columns where they start
(`tokens_blanked`).

There is one exception.  A method or a primitive in front of a dot has lost its special meaning, and
has it again once a space stands there.
-/

namespace SyslModel

/-! ## Reading takes up again behind an error -/

/-- A text without spaces that is at the front once errors are blanked out was there before. -/
theorem prefix_of_blankedText {pieces : List Piece} (hne : ∀ p ∈ pieces, p.text ≠ [])
    {text : List Char} (hspace : ' ' ∉ text) (h : text <+: blankedText pieces) :
    text <+: pieces.flatMap Piece.text := by
  induction pieces generalizing text with
  | nil => exact h
  | cons piece others ih =>
    obtain ⟨hpiece, hothers⟩ := List.forall_mem_cons.1 hne
    by_cases hbad : piece.kind = .bad
    · cases text with
      | nil => exact List.nil_prefix
      | cons c text =>
        obtain ⟨n, hn⟩ := Nat.exists_eq_succ_of_ne_zero (utf8Length_pos hpiece).ne'
        rw [blankedText_cons_bad hbad, hn, List.replicate_succ, List.cons_append,
          List.cons_prefix_cons] at h
        exact absurd (h.1 ▸ List.mem_cons_self) hspace
    · obtain ⟨rest, hrest⟩ := h
      rw [blankedText_cons_of_ne hbad] at hrest
      rw [List.flatMap_cons]
      rcases List.append_eq_append_iff.1 hrest with ⟨back, htext, -⟩ | ⟨more, rfl, hmore⟩
      · rw [htext, List.append_assoc]
        exact List.prefix_append _ _
      · rw [List.prefix_append_right_inj]
        exact ih hothers (fun hmem => hspace (List.mem_append_right _ hmem)) ⟨rest, hmore.symm⟩

theorem head?_blankedText {piece : Piece} (hne : piece.text ≠ []) (others : List Piece) :
    (blankedText (piece :: others)).head? =
      if piece.kind = .bad then some ' ' else piece.text.head? := by
  obtain ⟨c, text, htext⟩ := List.exists_cons_of_ne_nil hne
  by_cases hbad : piece.kind = .bad
  · obtain ⟨n, hn⟩ := Nat.exists_eq_succ_of_ne_zero (utf8Length_pos hne).ne'
    rw [blankedText_cons_bad hbad, hn, if_pos hbad]
    rfl
  · rw [blankedText_cons_of_ne hbad, htext, if_neg hbad]
    rfl

section Suffix

variable {source : List Char} {piece : Piece} {tail : List Piece}

/-- Bad text does not reach past its line. -/
theorem newline_notMem_of_bad (hs : piece :: tail <:+ pieces source) (hk : piece.kind = .bad) :
    '\n' ∉ piece.text := by
  obtain ⟨hfront, -⟩ := frontPiece_of_suffix hs
  have hne : piece.text ++ tail.flatMap Piece.text ≠ [] := by
    simp [text_ne_nil_of_mem_pieces (hs.subset List.mem_cons_self)]
  obtain ⟨-, ⟨c, rest, hsource, -, htext⟩ | ⟨line, rest, -, hline, -, htext⟩⟩ :=
    frontPiece_of_bad hne (by rw [hfront, hk])
  · rw [hfront] at htext
    rw [htext, List.mem_singleton]
    rintro rfl
    rw [hsource, Scans.frontPiece_blank (by decide)] at hfront
    rw [← hfront] at hk
    cases hk
  · rw [hfront] at htext
    rw [htext]
    exact List.not_mem_cons_of_ne_of_not_mem (by decide) hline

/-- Where a line ends it still does: a line feed is no error. -/
theorem EndsLine.blanked (hs : tail <:+ pieces source) (h : EndsLine (tail.flatMap Piece.text)) :
    EndsLine (blankedText tail) := by
  cases tail with
  | nil => exact h
  | cons next others =>
    have hne := text_ne_nil_of_mem_pieces (hs.subset List.mem_cons_self)
    have hline : ∀ c ∈ next.text.head?, c = '\n' := by
      intro c hc
      refine h c ?_
      rw [List.flatMap_cons, List.head?_append, Option.mem_def.1 hc]
      rfl
    intro c hc
    rw [head?_blankedText hne] at hc
    split at hc
    · next hbad =>
      obtain ⟨d, text, htext⟩ := List.exists_cons_of_ne_nil hne
      obtain rfl := hline d (by rw [htext]; rfl)
      exact absurd (htext ▸ List.mem_cons_self) (newline_notMem_of_bad hs hbad)
    · exact hline c hc

/-- No dot stands in front any more. -/
theorem head?_blankedText_ne_dot (hs : tail <:+ pieces source) :
    (blankedText tail).head? ≠ some '.' := by
  cases tail with
  | nil => simp [blankedText]
  | cons next others =>
    have hne := text_ne_nil_of_mem_pieces (hs.subset List.mem_cons_self)
    intro hdot
    rw [head?_blankedText hne] at hdot
    split at hdot
    · exact absurd (Option.some.inj hdot) (by decide)
    · next hgood =>
      obtain ⟨text, htext⟩ := List.head?_eq_some_iff.1 hdot
      have hfront := (frontPiece_of_suffix hs).1
      rw [htext] at hfront
      exact hgood (hfront ▸ frontPiece_dot _)

end Suffix

/-- A piece that is not bad is still the piece in front when the errors behind it are blanked
out. -/
theorem frontPiece_blankedText {source : List Char} {piece : Piece} {tail : List Piece}
    (hs : piece :: tail <:+ pieces source) (hbad : piece.kind ≠ .bad) (hsteady : piece.Steady) :
    frontPiece (piece.text ++ blankedText tail) = piece := by
  have htail : tail <:+ pieces source := (List.suffix_cons _ _).trans hs
  have hne : ∀ p ∈ piece :: tail, p.text ≠ [] := fun p hp =>
    text_ne_nil_of_mem_pieces (hs.subset hp)
  obtain ⟨hpiece, hothers⟩ := List.forall_mem_cons.1 hne
  exact frontPiece_of_rest hpiece hbad (frontPiece_of_suffix hs).1 (EndsLine.blanked htail)
    (fun _ => prefix_of_blankedText hothers) (head?_blankedText_ne_dot htail) fun _ => hsteady

theorem pieces_spaces (n : Nat) (rest : List Char) :
    pieces (List.replicate n ' ' ++ rest) = List.replicate n ⟨.blank, [' ']⟩ ++ pieces rest := by
  induction n with
  | zero => rfl
  | succ n ih =>
    rw [List.replicate_succ, List.cons_append, pieces_of_ne_nil (List.cons_ne_nil _ _),
      Scans.frontPiece_blank (by decide), List.replicate_succ, List.cons_append, ← ih]
    rfl

/-- Blanking out errors changes no other piece. -/
theorem pieces_blankedText {source : List Char} (hsteady : ∀ p ∈ pieces source, p.Steady)
    {tail : List Piece} (hs : tail <:+ pieces source) :
    pieces (blankedText tail) = tail.flatMap Piece.blanked := by
  induction tail with
  | nil => exact pieces_nil
  | cons piece tail ih =>
    have ih := ih ((List.suffix_cons _ _).trans hs)
    have hmem : piece ∈ pieces source := hs.subset List.mem_cons_self
    rw [List.flatMap_cons]
    by_cases hbad : piece.kind = .bad
    · rw [blankedText_cons_bad hbad, pieces_spaces, ih, Piece.blanked_bad hbad]
    · have hne := text_ne_nil_of_mem_pieces hmem
      rw [blankedText_cons_of_ne hbad, pieces_of_ne_nil (by simp [hne]),
        frontPiece_blankedText hs hbad (hsteady piece hmem), List.drop_left, ih,
        Piece.blanked_of_ne hbad]
      rfl

/-! ## The tokens are the same -/

/-- Everything at the start of its line; the bytes stay. -/
def Relocation.forgetColumn : Relocation := ⟨id, fun p => ⟨p.line, 1⟩, fun _ _ => rfl⟩

/-- Two locations that differ in their columns at most. -/
structure Location.SameLine (place place' : Location) : Prop where
  /-- The byte offsets are equal. -/
  offset : place.offset = place'.offset
  /-- The lines are equal. -/
  line : place.position.line = place'.position.line

namespace Location.SameLine

variable {place place' : Location}

theorem after (h : SameLine place place') (text : List Char) :
    SameLine (place.after text) (place'.after text) where
  offset := by rw [after_offset, after_offset, h.offset]
  line := by
    show (place.position.after text).line = (place'.position.after text).line
    rw [Position.line_after, Position.line_after, h.line]

/-- A text on one line takes up as many bytes as the spaces in its place. -/
theorem after_spaces (h : SameLine place place') {text : List Char} (hline : '\n' ∉ text) :
    SameLine (place.after (List.replicate (utf8Length text) ' ')) (place'.after text) where
  offset := by
    have hspaces (n : Nat) : utf8Length (List.replicate n ' ') = n := by
      induction n with
      | zero => rfl
      | succ n ih => rw [List.replicate_succ, utf8Length_cons, ih]; exact Nat.add_comm 1 n
    rw [after_offset, after_offset, hspaces, h.offset]
  line := by
    show (place.position.after _).line = (place'.position.after text).line
    rw [Position.line_after, Position.line_after, h.line, List.count_eq_zero.2 hline,
      List.count_eq_zero.2 fun hmem => absurd (List.eq_of_mem_replicate hmem) (by decide)]

/-- A piece is the same token in both, but for its column. -/
theorem token? (h : SameLine place place') (piece : Piece) :
    (PlacedPiece.token? ⟨place, piece⟩).map (Token.relocate .forgetColumn) =
      (PlacedPiece.token? ⟨place', piece⟩).map (Token.relocate .forgetColumn) := by
  obtain ⟨offset, line, column⟩ := place
  obtain ⟨offset', line', column'⟩ := place'
  obtain ⟨rfl, rfl⟩ := h
  unfold PlacedPiece.token?
  cases piece.kind <;> rfl

theorem endOfFile (h : SameLine place place') :
    (Token.endOfFile place).relocate .forgetColumn =
      (Token.endOfFile place').relocate .forgetColumn := by
  obtain ⟨offset, line, column⟩ := place
  obtain ⟨offset', line', column'⟩ := place'
  obtain ⟨rfl, rfl⟩ := h
  rfl

end Location.SameLine

/-- The tokens of pieces at a place, and the end of the file behind them. -/
def tokensFrom (place : Location) (pieces : List Piece) : List Token :=
  (placed place pieces).filterMap PlacedPiece.token?
    ++ [Token.endOfFile (place.after (pieces.flatMap Piece.text))]

theorem tokensFrom_cons (place : Location) (piece : Piece) (others : List Piece) :
    tokensFrom place (piece :: others) =
      (PlacedPiece.token? ⟨place, piece⟩).toList ++ tokensFrom (place.after piece.text) others := by
  rw [tokensFrom, placed, List.filterMap_cons, List.flatMap_cons, Location.after_append, tokensFrom]
  cases PlacedPiece.token? ⟨place, piece⟩ <;> rfl

theorem tokensFrom_spaces (place : Location) (n : Nat) (others : List Piece) :
    tokensFrom place (List.replicate n ⟨.blank, [' ']⟩ ++ others) =
      tokensFrom (place.after (List.replicate n ' ')) others := by
  induction n generalizing place with
  | zero => rfl
  | succ n ih =>
    rw [List.replicate_succ, List.cons_append, tokensFrom_cons, ih, ← Location.after_append,
      List.replicate_succ]
    rfl

/-- Pieces have the same tokens once the bad ones are blanked out, up to columns. -/
theorem tokensFrom_blanked {pieces : List Piece}
    (hline : ∀ p ∈ pieces, p.kind = .bad → '\n' ∉ p.text) {place place' : Location}
    (h : place.SameLine place') :
    (tokensFrom place (pieces.flatMap Piece.blanked)).map (Token.relocate .forgetColumn) =
      (tokensFrom place' pieces).map (Token.relocate .forgetColumn) := by
  induction pieces generalizing place place' with
  | nil => exact congrArg (fun t => [t]) h.endOfFile
  | cons piece others ih =>
    obtain ⟨hpiece, hothers⟩ := List.forall_mem_cons.1 hline
    rw [List.flatMap_cons]
    by_cases hbad : piece.kind = .bad
    · have hnone : PlacedPiece.token? ⟨place', piece⟩ = none := by
        simp [PlacedPiece.token?, hbad]
      rw [Piece.blanked_bad hbad, tokensFrom_spaces, tokensFrom_cons, hnone]
      exact ih hothers (h.after_spaces (hpiece hbad))
    · have hpieces : piece.blanked ++ others.flatMap Piece.blanked
          = piece :: others.flatMap Piece.blanked := by
        rw [Piece.blanked_of_ne hbad]
        rfl
      rw [hpieces, tokensFrom_cons, tokensFrom_cons, List.map_append, List.map_append,
        ih hothers (h.after piece.text), ← Option.toList_map, ← Option.toList_map, h.token?]

/-! ## Blanking out the errors of a source -/

/-- A piece that is a token is one of the tokens. -/
theorem exists_mem_tokens {source : String} {piece : Piece} {kind : TokenKind}
    (h : piece ∈ pieces source.toList) (hk : piece.kind = .token kind) :
    ∃ t ∈ (tokenize source).tokens, t.kind = kind ∧ t.text.toList = piece.text := by
  rw [← map_piece_placed Location.first (pieces source.toList)] at h
  obtain ⟨p, hp, rfl⟩ := List.mem_map.1 h
  refine ⟨⟨kind, String.ofList p.piece.text, p.span, p.place.position⟩, ?_, rfl,
    String.toList_ofList⟩
  rw [tokens_eq_pieces]
  exact List.mem_append_left _
    (List.mem_filterMap.2 ⟨p, hp, token?_eq_some_iff.2 ⟨hk, rfl, rfl, rfl⟩⟩)

/-- A keyword in front of a dot aside, a source is cut into the same pieces when its errors are
blanked out. -/
theorem pieces_blanked {source : String}
    (hkeyword : ∀ t ∈ (tokenize source).tokens,
      t.kind = .identifier ∨ t.kind = .smallIdentifier → ¬ IsKeyword t.text.toList) :
    pieces (blanked source).toList = (pieces source.toList).flatMap Piece.blanked := by
  rw [toList_blanked]
  refine pieces_blankedText (fun piece hpiece hk => ?_) List.suffix_rfl
  have htoken {kind : TokenKind} (hkind : piece.kind = .token kind)
      (hname : kind = .identifier ∨ kind = .smallIdentifier) : ¬ IsKeyword piece.text := by
    obtain ⟨t, ht, rfl, htext⟩ := exists_mem_tokens hpiece hkind
    exact htext ▸ hkeyword t ht hname
  rcases hk with hkind | hkind
  · exact htoken hkind (.inl rfl)
  · exact htoken hkind (.inr rfl)

theorem errors_blanked {source : String}
    (h : pieces (blanked source).toList = (pieces source.toList).flatMap Piece.blanked) :
    (tokenize (blanked source)).errors = [] := by
  rw [errors_eq_nil_iff, h, List.forall_mem_flatMap]
  intro piece _ p hp
  by_cases hbad : piece.kind = .bad
  · rw [Piece.blanked_bad hbad] at hp
    rw [List.eq_of_mem_replicate hp]
    decide
  · rw [Piece.blanked_of_ne hbad] at hp
    rwa [List.mem_singleton.1 hp]

theorem tokens_blanked {source : String}
    (h : pieces (blanked source).toList = (pieces source.toList).flatMap Piece.blanked) :
    (tokenize (blanked source)).tokens.map (Token.relocate .forgetColumn) =
      (tokenize source).tokens.map (Token.relocate .forgetColumn) := by
  have htokens (s : String) :
      (tokenize s).tokens = tokensFrom Location.first (pieces s.toList) := by
    rw [tokens_eq_pieces, tokensFrom, pieces_flatten]
  rw [htokens, htokens, h]
  refine tokensFrom_blanked ?_ ⟨rfl, rfl⟩
  intro p hp hbad
  obtain ⟨before, tail, hsplit⟩ := List.append_of_mem hp
  exact newline_notMem_of_bad ⟨before, hsplit.symm⟩ hbad

/-- With a space in place of the dot the word is a method again. -/
example : (tokenize "GET.").tokens.map (·.kind) = [.identifier, .endOfFile] ∧
    (tokenize (blanked "GET.")).tokens.map (·.kind) = [.method .get, .endOfFile] := by
  decide +kernel

end SyslModel
