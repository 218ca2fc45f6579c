import Mathlib.Data.List.Chain
import SyslModel.Proofs.Source.Slice
import SyslModel.Token.Lexed
/-!
# Stretches of pieces

`joinRuns` puts neighbouring pieces of one kind together; joining the bad ones gives the pieces
that `tokenize` reports.  The statements say what joining keeps: the text, the pieces of other
kinds with all that stands behind them (`suffix_of_suffix_joinRuns`), and whatever can be said of a
run piece by piece (`run_of_suffix_joinRuns`).

The second part is about places.  A placed piece is a slice of the source, placed pieces follow one
another, and each character lies in exactly one of them.
-/

namespace SyslModel

/-- The pieces with neighbouring ones of a kind joined. -/
def joinRuns (kind : PieceKind) : List Piece → List Piece
  | [] => []
  | piece :: others =>
    match joinRuns kind others with
    | [] => [piece]
    | next :: rest =>
      if piece.kind = kind ∧ next.kind = kind then ⟨kind, piece.text ++ next.text⟩ :: rest
      else piece :: next :: rest

theorem joinBad_eq_joinRuns (pieces : List Piece) : joinBad pieces = joinRuns .bad pieces := by
  induction pieces with
  | nil => rfl
  | cons piece others ih =>
    rw [joinBad, joinRuns, ← ih]
    split
    · next text rest hkind hothers => simp [hothers, hkind]
    · next hne =>
      cases hothers : joinBad others with
      | nil => rfl
      | cons next rest =>
        have hboth : ¬ (piece.kind = .bad ∧ next.kind = .bad) := by
          rintro ⟨hp, hn⟩
          obtain ⟨kind, text⟩ := next
          obtain rfl : kind = .bad := hn
          exact hne text rest hp hothers
        simp [hboth]

/-- What a piece in front does to joined pieces: it stays by itself or is joined to the first. -/
theorem joinRuns_cons (kind : PieceKind) (piece : Piece) (others : List Piece) :
    joinRuns kind (piece :: others) = piece :: joinRuns kind others ∧
        (∀ next ∈ (joinRuns kind others).head?, ¬ (piece.kind = kind ∧ next.kind = kind)) ∨
      ∃ next rest, joinRuns kind others = next :: rest ∧ piece.kind = kind ∧ next.kind = kind ∧
        joinRuns kind (piece :: others) = ⟨kind, piece.text ++ next.text⟩ :: rest := by
  rw [joinRuns]
  cases joinRuns kind others with
  | nil => exact .inl ⟨rfl, by simp⟩
  | cons next rest =>
    by_cases h : piece.kind = kind ∧ next.kind = kind
    · exact .inr ⟨next, rest, rfl, h.1, h.2, if_pos h⟩
    · exact .inl ⟨if_neg h, by simpa using h⟩

section Join

variable {kind : PieceKind} {pieces : List Piece}

theorem joinRuns_flatten :
    (joinRuns kind pieces).flatMap Piece.text = pieces.flatMap Piece.text := by
  induction pieces with
  | nil => rfl
  | cons piece others ih =>
    rcases joinRuns_cons kind piece others with ⟨h, -⟩ | ⟨next, rest, hnext, -, -, h⟩
    · rw [h, List.flatMap_cons, ih, List.flatMap_cons]
    · rw [hnext, List.flatMap_cons] at ih
      rw [h, List.flatMap_cons, List.flatMap_cons, ← ih, List.append_assoc]

theorem joinRuns_text_ne_nil (h : ∀ p ∈ pieces, p.text ≠ []) :
    ∀ p ∈ joinRuns kind pieces, p.text ≠ [] := by
  induction pieces with
  | nil => simp [joinRuns]
  | cons piece others ih =>
    have hpiece : piece.text ≠ [] := h piece List.mem_cons_self
    have ih := ih fun p hp => h p (List.mem_cons_of_mem _ hp)
    rcases joinRuns_cons kind piece others with ⟨heq, -⟩ | ⟨next, rest, hnext, -, -, heq⟩
    · rw [heq]
      exact List.forall_mem_cons.2 ⟨hpiece, ih⟩
    · rw [hnext] at ih
      rw [heq]
      exact List.forall_mem_cons.2
        ⟨by simp [hpiece], fun p hp => ih p (List.mem_cons_of_mem _ hp)⟩

/-- Joining makes no kind of piece appear or vanish. -/
theorem forall_kind_joinRuns (test : PieceKind → Prop) :
    (∀ p ∈ joinRuns kind pieces, test p.kind) ↔ ∀ p ∈ pieces, test p.kind := by
  induction pieces with
  | nil => rfl
  | cons piece others ih =>
    rw [List.forall_mem_cons, ← ih]
    rcases joinRuns_cons kind piece others with ⟨heq, -⟩ | ⟨next, rest, hnext, hp, hn, heq⟩
    · rw [heq, List.forall_mem_cons]
    · rw [heq, hnext, List.forall_mem_cons, List.forall_mem_cons, hp, hn, and_self_left]

/-- After joining, no two neighbours are of the kind. -/
theorem joinRuns_isChain :
    (joinRuns kind pieces).IsChain fun p q => ¬ (p.kind = kind ∧ q.kind = kind) := by
  induction pieces with
  | nil => exact .nil
  | cons piece others ih =>
    rcases joinRuns_cons kind piece others with ⟨heq, hfirst⟩ | ⟨next, rest, hnext, -, hkind, heq⟩
    · rw [heq]
      exact List.isChain_cons.2 ⟨hfirst, ih⟩
    · rw [hnext, List.isChain_cons] at ih
      rw [heq]
      exact List.isChain_cons.2 ⟨fun q hq hboth => ih.1 q hq ⟨hkind, hboth.2⟩, ih.2⟩

/-- Nothing is joined across a piece of another kind. -/
theorem joinRuns_append_cons {piece : Piece} (hk : piece.kind ≠ kind) (others : List Piece) :
    joinRuns kind (pieces ++ piece :: others) =
      joinRuns kind pieces ++ piece :: joinRuns kind others := by
  induction pieces with
  | nil =>
    rcases joinRuns_cons kind piece others with ⟨heq, -⟩ | ⟨-, -, -, hkind, -⟩
    · exact heq
    · exact absurd hkind hk
  | cons first pieces ih =>
    rw [List.cons_append, joinRuns, ih, joinRuns]
    cases joinRuns kind pieces with
    | nil => exact if_neg fun hboth => hk hboth.2
    | cons next rest =>
      rw [List.cons_append]
      dsimp only
      split <;> rfl

/-- Joining keeps the pieces of other kinds, and the text behind each of them. -/
theorem suffix_of_suffix_joinRuns {piece : Piece} {tail : List Piece} (hk : piece.kind ≠ kind)
    (h : piece :: tail <:+ joinRuns kind pieces) :
    ∃ tail', piece :: tail' <:+ pieces ∧ tail'.flatMap Piece.text = tail.flatMap Piece.text := by
  induction pieces with
  | nil => simp [joinRuns] at h
  | cons first others ih =>
    rcases joinRuns_cons kind first others with ⟨heq, -⟩ | ⟨next, rest, hnext, -, -, heq⟩
    · rw [heq, List.suffix_cons_iff] at h
      rcases h with h | h
      · obtain ⟨rfl, rfl⟩ := List.cons.inj h
        exact ⟨others, List.suffix_rfl, joinRuns_flatten.symm⟩
      · obtain ⟨tail', hs, ht⟩ := ih h
        exact ⟨tail', List.suffix_cons_iff.2 (.inr hs), ht⟩
    · rw [heq, List.suffix_cons_iff] at h
      rcases h with h | h
      · exact absurd (congrArg Piece.kind (List.cons.inj h).1) hk
      · obtain ⟨tail', hs, ht⟩ := ih (hnext ▸ List.suffix_cons_iff.2 (.inr h))
        exact ⟨tail', List.suffix_cons_iff.2 (.inr hs), ht⟩

/-- A property of runs that the empty run has, and that a piece in front keeps, holds of the joined
pieces. -/
theorem run_of_suffix_joinRuns (Run : List Char → List Char → Prop)
    (nil : ∀ after, Run [] after)
    (cons : ∀ (piece : Piece) (tail : List Piece), piece :: tail <:+ pieces → piece.kind = kind →
      ∀ text after, tail.flatMap Piece.text = text ++ after → Run text after →
        Run (piece.text ++ text) after)
    {piece : Piece} {tail : List Piece} (hk : piece.kind = kind)
    (h : piece :: tail <:+ joinRuns kind pieces) : Run piece.text (tail.flatMap Piece.text) := by
  induction pieces generalizing piece tail with
  | nil => simp [joinRuns] at h
  | cons first others ih =>
    have ih := @ih fun p t hs => cons p t (List.suffix_cons_iff.2 (.inr hs))
    have hfirst := cons first others List.suffix_rfl
    have hothers : (joinRuns kind others).flatMap Piece.text = others.flatMap Piece.text :=
      joinRuns_flatten
    rcases joinRuns_cons kind first others with ⟨heq, -⟩ | ⟨next, rest, hnext, hf, hn, heq⟩
    · rw [heq, List.suffix_cons_iff] at h
      rcases h with h | h
      · obtain ⟨rfl, rfl⟩ := List.cons.inj h
        have hrun := hfirst hk [] _ hothers.symm (nil _)
        rwa [List.append_nil] at hrun
      · exact ih hk h
    · rw [heq, List.suffix_cons_iff] at h
      rcases h with h | h
      · obtain ⟨rfl, rfl⟩ := List.cons.inj h
        rw [hnext, List.flatMap_cons] at hothers
        exact hfirst hf next.text _ hothers.symm (ih hn (hnext ▸ List.suffix_rfl))
      · exact ih hk (hnext ▸ List.suffix_cons_iff.2 (.inr h))

end Join

/-! ## Places -/

@[simp] theorem Location.after_offset (place : Location) (text : List Char) :
    (place.after text).offset = place.offset + utf8Length text := rfl

theorem PlacedPiece.start_eq (p : PlacedPiece) : p.span.start = p.place.offset := rfl

theorem PlacedPiece.stop_eq (p : PlacedPiece) :
    p.span.stop = p.place.offset + utf8Length p.piece.text := rfl

theorem map_piece_placed (place : Location) (pieces : List Piece) :
    (placed place pieces).map PlacedPiece.piece = pieces := by
  induction pieces generalizing place with
  | nil => rfl
  | cons piece others ih => rw [placed, List.map_cons, ih]

/-- A placed piece is one of the pieces, behind the text of those before it. -/
theorem mem_placed {place : Location} {pieces : List Piece} {p : PlacedPiece}
    (h : p ∈ placed place pieces) :
    ∃ before tail, pieces = before ++ p.piece :: tail ∧
      p.place = place.after (before.flatMap Piece.text) := by
  induction pieces generalizing place with
  | nil => simp [placed] at h
  | cons piece others ih =>
    rcases List.mem_cons.1 h with rfl | h
    · exact ⟨[], others, rfl, rfl⟩
    · obtain ⟨before, tail, rfl, hplace⟩ := ih h
      refine ⟨piece :: before, tail, rfl, ?_⟩
      rw [hplace, List.flatMap_cons, Location.after_append]

/-- A placed piece is a slice of the source that the pieces make up, and its place is the one behind
what stands in front of it. -/
theorem slice_and_place_of_mem_placed {pieces : List Piece} {p : PlacedPiece}
    (h : p ∈ placed Location.first pieces) :
    ∃ before tail, p.piece :: tail <:+ pieces ∧
      SliceAt (pieces.flatMap Piece.text) p.span before p.piece.text (tail.flatMap Piece.text) ∧
      p.place = Location.first.after before := by
  obtain ⟨before, tail, rfl, hplace⟩ := mem_placed h
  refine ⟨before.flatMap Piece.text, tail, List.suffix_append _ _, ⟨?_, ?_, ?_⟩, hplace⟩
  · rw [List.flatMap_append, List.flatMap_cons]
  · rw [p.start_eq, hplace]
    simp [Location.first]
  · rw [p.stop_eq, hplace]
    simp [Location.first]

theorem sliceAt_of_mem_placed {pieces : List Piece} {p : PlacedPiece}
    (h : p ∈ placed Location.first pieces) :
    ∃ before tail, p.piece :: tail <:+ pieces ∧
      SliceAt (pieces.flatMap Piece.text) p.span before p.piece.text (tail.flatMap Piece.text) := by
  obtain ⟨before, tail, hs, hslice, -⟩ := slice_and_place_of_mem_placed h
  exact ⟨before, tail, hs, hslice⟩

theorem offset_le_of_mem_placed {place : Location} {pieces : List Piece} {p : PlacedPiece}
    (h : p ∈ placed place pieces) : place.offset ≤ p.span.start := by
  obtain ⟨before, _, _, hplace⟩ := mem_placed h
  rw [p.start_eq, hplace, Location.after_offset]
  exact Nat.le_add_right _ _

/-- Placed pieces follow one another. -/
theorem placed_pairwise (place : Location) (pieces : List Piece) :
    (placed place pieces).Pairwise fun p q => p.span.stop ≤ q.span.start := by
  induction pieces generalizing place with
  | nil => exact .nil
  | cons piece others ih =>
    refine List.pairwise_cons.2 ⟨fun q hq => ?_, ih _⟩
    exact offset_le_of_mem_placed hq

/-- Pieces of a kind that never touch stay apart when they are placed. -/
theorem placed_pairwise_of_isChain {kind : PieceKind} {place : Location} {pieces : List Piece}
    (hc : pieces.IsChain fun p q => ¬ (p.kind = kind ∧ q.kind = kind))
    (hne : ∀ p ∈ pieces, p.text ≠ []) :
    (placed place pieces).Pairwise fun p q =>
      p.piece.kind = kind → q.piece.kind = kind → p.span.stop < q.span.start := by
  induction pieces generalizing place with
  | nil => exact .nil
  | cons piece others ih =>
    rw [List.isChain_cons] at hc
    have hothers := List.forall_mem_cons.1 hne
    refine List.pairwise_cons.2 ⟨fun q hq hp hk => ?_, ih hc.2 hothers.2⟩
    -- The piece right behind is of another kind, so `q` is further on.
    cases others with
    | nil => simp [placed] at hq
    | cons next rest =>
      rcases List.mem_cons.1 hq with rfl | hq
      · exact absurd ⟨hp, hk⟩ (hc.1 next rfl)
      · have hle := offset_le_of_mem_placed hq
        have hpos := utf8Length_pos (hothers.2 next List.mem_cons_self)
        rw [Location.after_offset, Location.after_offset] at hle
        show place.offset + utf8Length piece.text < q.span.start
        omega

/-- Joining the pieces of a kind changes nothing for those who ignore that kind. -/
theorem filterMap_placed_joinRuns {α : Type} {kind : PieceKind} {f : PlacedPiece → Option α}
    (hf : ∀ p, p.piece.kind = kind → f p = none) (place : Location) (pieces : List Piece) :
    (placed place (joinRuns kind pieces)).filterMap f = (placed place pieces).filterMap f := by
  induction pieces generalizing place with
  | nil => rfl
  | cons piece others ih =>
    rcases joinRuns_cons kind piece others with ⟨heq, -⟩ | ⟨next, rest, hnext, hp, hn, heq⟩
    · rw [heq, placed, placed, List.filterMap_cons, List.filterMap_cons, ih]
    · have ih := ih (place.after piece.text)
      rw [hnext, placed, List.filterMap_cons_none (hf _ hn)] at ih
      rw [heq, placed, placed, List.filterMap_cons_none (hf _ rfl),
        List.filterMap_cons_none (hf _ hp), ← ih, Location.after_append]

/-! ## Each character lies in one piece -/

theorem countP_holds_eq_zero {place : Location} {pieces : List Piece} {inner : Span}
    (h : inner.start < place.offset) :
    (placed place pieces).countP (fun p => p.span.holds inner) = 0 := by
  rw [List.countP_eq_zero]
  intro p hp hholds
  have hle := offset_le_of_mem_placed hp
  rw [Span.holds_iff] at hholds
  omega

/-- A character behind a front is behind its whole text or one of its characters. -/
theorem append_eq_append_cons {front rest before after : List Char} {c : Char}
    (h : front ++ rest = before ++ c :: after) :
    (∃ middle, before = front ++ middle ∧ rest = middle ++ c :: after) ∨
      ∃ back, front = before ++ c :: back ∧ after = back ++ rest := by
  rcases List.append_eq_append_iff.1 h with ⟨middle, hb, hr⟩ | ⟨back, hf, hr⟩
  · exact .inl ⟨middle, hb, hr⟩
  · cases back with
    | nil => exact .inl ⟨[], by simpa using hf.symm, by simpa using hr.symm⟩
    | cons d back =>
      obtain ⟨rfl, ha⟩ := List.cons.inj hr
      exact .inr ⟨back, hf, ha⟩

/-- Each character of the text lies in exactly one of the placed pieces. -/
theorem countP_holds_eq_one {pieces : List Piece} {before after : List Char} {c : Char}
    (h : pieces.flatMap Piece.text = before ++ c :: after) (place : Location) (inner : Span)
    (hstart : inner.start = place.offset + utf8Length before)
    (hstop : inner.stop = inner.start + c.utf8Size) :
    (placed place pieces).countP (fun p => p.span.holds inner) = 1 := by
  have hpos := Char.utf8Size_pos c
  induction pieces generalizing place before with
  | nil => simp at h
  | cons piece others ih =>
    rw [List.flatMap_cons] at h
    rw [placed, List.countP_cons]
    rcases append_eq_append_cons h with ⟨middle, rfl, hothers⟩ | ⟨back, htext, -⟩
    · rw [utf8Length_append] at hstart
      rw [ih hothers (place.after piece.text) (by rw [Location.after_offset]; omega)]
      have hout : Span.holds (PlacedPiece.span ⟨place, piece⟩) inner = false := by
        rw [Bool.eq_false_iff, ne_eq, Span.holds_iff, PlacedPiece.stop_eq]
        dsimp only
        omega
      simp [hout]
    · have hlen : utf8Length piece.text = utf8Length before + (c.utf8Size + utf8Length back) := by
        rw [htext, utf8Length_append, utf8Length_cons]
      rw [countP_holds_eq_zero (by rw [Location.after_offset]; omega)]
      have hin : Span.holds (PlacedPiece.span ⟨place, piece⟩) inner = true := by
        rw [Span.holds_iff, PlacedPiece.start_eq, PlacedPiece.stop_eq]
        dsimp only
        omega
      simp [hin]

end SyslModel
