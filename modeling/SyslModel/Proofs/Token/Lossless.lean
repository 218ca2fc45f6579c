import SyslModel.Proofs.Token.Scan
/-!
# Nothing is lost and nothing is read twice

`tokenize_lossless` says of every source how its tokens, its lexical errors and the text that is
skipped divide the source among them.  The three lists of spans come from one list of stretches that
follow one another, so each statement is a fact about that list.
-/

namespace SyslModel

/-- What a lexical fault tells about its text, with `after` behind it. -/
def LexicalFault.Describes (text after : List Char) : LexicalFault → Prop
  | .unrecognized shown => shown = String.ofList text
  | .unterminatedString => text.head? = some '"' ∧ '\n' ∉ text ∧ EndsLine after

/-- Tokens and errors that divide a source: slices of it that are in order and disjoint, with
nothing but skipped text between them. -/
structure Lossless (source : String) (lexed : Lexed) : Prop where
  /-- A token is a slice of the source that is not empty. -/
  token_slice : ∀ t ∈ lexed.tokens, t.kind ≠ .endOfFile →
    t.span.start < t.span.stop ∧ IsSlice source.toList t.span t.text.toList
  /-- Tokens are in the order of the source and do not overlap. -/
  tokens_ordered : (lexed.tokens.map Token.span).Pairwise fun a b =>
    a.start < b.start ∧ a.stop ≤ b.start
  /-- An error is a slice of the source that is not empty, and its fault describes the slice. -/
  error_slice : ∀ e ∈ lexed.errors, ∃ before text after,
    SliceAt source.toList e.span before text after ∧ text ≠ [] ∧ e.fault.Describes text after
  /-- Errors are in the order of the source, and no two of them touch. -/
  errors_apart : (lexed.errors.map LexicalError.span).Pairwise fun a b => a.stop < b.start
  /-- No token overlaps an error. -/
  disjoint : ∀ t ∈ lexed.tokens, ∀ e ∈ lexed.errors,
    t.span.stop ≤ e.span.start ∨ e.span.stop ≤ t.span.start
  /-- Between them lie gaps of skipped text that do not touch, and each character of the source lies
  in exactly one token, error or gap. -/
  covered : ∃ gaps : List Span,
    (gaps.Pairwise fun a b => a.stop < b.start) ∧
    (∀ gap ∈ gaps, ∃ before text after,
      SliceAt source.toList gap before text after ∧ text ≠ [] ∧ Skipped after text) ∧
    ∀ before c after, source.toList = before ++ c :: after →
      (lexed.tokens.map Token.span ++ lexed.errors.map LexicalError.span ++ gaps).countP
        (fun span => span.holds (Span.ofChar before c)) = 1
  /-- The last token, and no other, is the end of the file, an empty text behind the last byte. -/
  final : ∃ front last, lexed.tokens = front ++ [last] ∧ last.kind = .endOfFile ∧ last.text = "" ∧
    last.span = Span.emptyAt source.utf8ByteSize ∧ ∀ t ∈ front, t.kind ≠ .endOfFile

/-! ## The stretches in order -/

theorem PlacedPiece.start_lt_stop {p : PlacedPiece} (h : p.piece.text ≠ []) :
    p.span.start < p.span.stop := by
  have := utf8Length_pos h
  rw [p.start_eq, p.stop_eq]
  omega

theorem SliceAt.stop_le {source : List Char} {span : Span} {before text after : List Char}
    (h : SliceAt source span before text after) : span.stop ≤ utf8Length source := by
  rw [h.stop_eq, h.split, utf8Length_append, utf8Length_append, utf8Length_append]
  omega

theorem stop_le_of_mem_stretches {source : String} {p : PlacedPiece} (hp : p ∈ stretches source) :
    p.span.stop ≤ utf8Length source.toList := by
  obtain ⟨before, tail, _, hslice⟩ := sliceAt_of_mem_stretches hp
  exact hslice.stop_le

theorem endOfFile_span (source : String) :
    (Token.endOfFile (Location.first.after source.toList)).span
      = Span.emptyAt source.utf8ByteSize := by
  rw [← utf8Length_toList]
  simp [Token.endOfFile, Location.first]

/-- Of two stretches one is behind the other, unless they are the same. -/
theorem stretches_disjoint {source : String} {p q : PlacedPiece} (hp : p ∈ stretches source)
    (hq : q ∈ stretches source) :
    p = q ∨ p.span.stop ≤ q.span.start ∨ q.span.stop ≤ p.span.start := by
  have hpair := placed_pairwise Location.first (joinRuns .bad (pieces source.toList))
  refine List.Pairwise.forall_of_forall_of_flip (R := fun p q : PlacedPiece =>
    p = q ∨ p.span.stop ≤ q.span.start ∨ q.span.stop ≤ p.span.start) ?_ ?_ ?_ hp hq
  · intro p _
    exact .inl rfl
  · exact hpair.imp fun h => .inr (.inl h)
  · exact hpair.imp fun h => .inr (.inr h)

/-! ## The division -/

theorem tokens_ordered (source : String) :
    ((tokenize source).tokens.map Token.span).Pairwise fun a b =>
      a.start < b.start ∧ a.stop ≤ b.start := by
  rw [tokens_eq, List.map_append, List.pairwise_append]
  refine ⟨?_, List.pairwise_singleton _ _, ?_⟩
  · rw [List.pairwise_map, List.pairwise_filterMap]
    refine (placed_pairwise _ _).imp_of_mem ?_
    intro p q hp hq hle t ht u hu
    obtain ⟨-, -, hspan, -⟩ := token?_eq_some_iff.1 ht
    obtain ⟨-, -, hspan', -⟩ := token?_eq_some_iff.1 hu
    have hlt := PlacedPiece.start_lt_stop (text_ne_nil_of_mem_stretches hp)
    rw [hspan, hspan']
    omega
  · intro a ha b hb
    obtain ⟨t, ht, rfl⟩ := List.mem_map.1 ha
    obtain ⟨p, hp, hpt⟩ := List.mem_filterMap.1 ht
    obtain ⟨-, -, hspan, -⟩ := token?_eq_some_iff.1 hpt
    obtain rfl : b = Span.emptyAt source.utf8ByteSize := by
      simpa [endOfFile_span] using hb
    have hlt := PlacedPiece.start_lt_stop (text_ne_nil_of_mem_stretches hp)
    have hle := stop_le_of_mem_stretches hp
    rw [utf8Length_toList] at hle
    rw [hspan]
    dsimp only [Span.emptyAt]
    omega

theorem errors_apart (source : String) :
    ((tokenize source).errors.map LexicalError.span).Pairwise fun a b => a.stop < b.start := by
  rw [errors_eq, List.pairwise_map, List.pairwise_filterMap]
  have hne : ∀ p ∈ joinRuns .bad (pieces source.toList), p.text ≠ [] :=
    joinRuns_text_ne_nil fun _ => text_ne_nil_of_mem_pieces
  refine (placed_pairwise_of_isChain joinRuns_isChain hne).imp ?_
  intro p q hlt e he f hf
  obtain ⟨hk, -, hspan, -⟩ := error?_eq_some_iff.1 he
  obtain ⟨hk', -, hspan', -⟩ := error?_eq_some_iff.1 hf
  rw [hspan, hspan']
  exact hlt hk hk'

/-- The stretches with the blank ones joined as well. -/
def tiles (source : String) : List PlacedPiece :=
  placed Location.first (joinRuns .blank (joinRuns .bad (pieces source.toList)))

/-- The spans of the text that is skipped. -/
def gaps (source : String) : List Span :=
  ((tiles source).filter fun p => p.piece.kind = .blank).map PlacedPiece.span

theorem gaps_apart (source : String) :
    (gaps source).Pairwise fun a b => a.stop < b.start := by
  have hne : ∀ p ∈ joinRuns .blank (joinRuns .bad (pieces source.toList)), p.text ≠ [] :=
    joinRuns_text_ne_nil (joinRuns_text_ne_nil fun _ => text_ne_nil_of_mem_pieces)
  rw [gaps, List.pairwise_map, List.pairwise_filter]
  refine (placed_pairwise_of_isChain joinRuns_isChain hne).imp ?_
  intro p q hlt hp hq
  exact hlt (by simpa using hp) (by simpa using hq)

theorem gap_slice {source : String} {gap : Span} (h : gap ∈ gaps source) :
    ∃ before text after, SliceAt source.toList gap before text after ∧ text ≠ [] ∧
      Skipped after text := by
  obtain ⟨p, hp, rfl⟩ := List.mem_map.1 h
  obtain ⟨hmem, hk⟩ := List.mem_filter.1 hp
  obtain ⟨before, tail, hs, hslice⟩ := sliceAt_of_mem_placed hmem
  rw [joinRuns_flatten, joinRuns_flatten, pieces_flatten] at hslice
  have hne : p.piece.text ≠ [] :=
    joinRuns_text_ne_nil (joinRuns_text_ne_nil fun _ => text_ne_nil_of_mem_pieces) p.piece
      (hs.subset List.mem_cons_self)
  exact ⟨before, p.piece.text, tail.flatMap Piece.text, hslice, hne,
    skipped_of_suffix (by simpa using hk) hs⟩

/-- Each placed piece is a token, an error or blank. -/
theorem countP_split (test : Span → Bool) (placed : List PlacedPiece) :
    ((placed.filterMap PlacedPiece.token?).map Token.span).countP test
      + ((placed.filterMap PlacedPiece.error?).map LexicalError.span).countP test
      + ((placed.filter fun p => p.piece.kind = .blank).map PlacedPiece.span).countP test
      = placed.countP fun p => test p.span := by
  induction placed with
  | nil => rfl
  | cons p others ih =>
    rw [List.countP_cons, ← ih, List.filterMap_cons, List.filterMap_cons, List.filter_cons]
    cases hk : p.piece.kind with
    | token kind =>
      simp [PlacedPiece.token?, PlacedPiece.error?, hk, List.countP_cons]
      omega
    | blank =>
      simp [PlacedPiece.token?, PlacedPiece.error?, hk, List.countP_cons]
      omega
    | bad =>
      simp [PlacedPiece.token?, PlacedPiece.error?, hk, List.countP_cons]
      omega

/-- Each character lies in exactly one token, error or gap. -/
theorem covered_once {source : String} {before after : List Char} {c : Char}
    (h : source.toList = before ++ c :: after) :
    ((tokenize source).tokens.map Token.span ++ (tokenize source).errors.map LexicalError.span
      ++ gaps source).countP (fun span => span.holds (Span.ofChar before c)) = 1 := by
  have htokens : (stretches source).filterMap PlacedPiece.token?
      = (tiles source).filterMap PlacedPiece.token? :=
    (filterMap_placed_joinRuns (fun p hp => by simp [PlacedPiece.token?, hp]) _ _).symm
  have herrors : (stretches source).filterMap PlacedPiece.error?
      = (tiles source).filterMap PlacedPiece.error? :=
    (filterMap_placed_joinRuns (fun p hp => by simp [PlacedPiece.error?, hp]) _ _).symm
  have hend : Span.holds (Span.emptyAt source.utf8ByteSize) (Span.ofChar before c) = false := by
    have := Char.utf8Size_pos c
    rw [Bool.eq_false_iff, ne_eq, Span.holds_iff]
    dsimp only [Span.emptyAt, Span.ofChar]
    omega
  have hflat : (joinRuns .blank (joinRuns .bad (pieces source.toList))).flatMap Piece.text
      = before ++ c :: after := by
    rw [joinRuns_flatten, joinRuns_flatten, pieces_flatten, h]
  have hone : (tiles source).countP (fun p => p.span.holds (Span.ofChar before c)) = 1 :=
    countP_holds_eq_one hflat Location.first _ (by simp [Span.ofChar, Location.first]) rfl
  rw [← countP_split fun span => span.holds (Span.ofChar before c)] at hone
  rw [tokens_eq, errors_eq, htokens, herrors, List.map_append, List.countP_append,
    List.countP_append, List.countP_append, List.map_singleton, endOfFile_span,
    List.countP_singleton, hend, gaps]
  simpa using hone

theorem tokens_errors_disjoint {source : String} {t : Token} {e : LexicalError}
    (ht : t ∈ (tokenize source).tokens) (he : e ∈ (tokenize source).errors) :
    t.span.stop ≤ e.span.start ∨ e.span.stop ≤ t.span.start := by
  obtain ⟨q, hq, hqe⟩ := mem_errors he
  obtain ⟨hbad, -, hspan', -⟩ := error?_eq_some_iff.1 hqe
  rw [hspan']
  rcases mem_tokens ht with ⟨p, hp, hpt⟩ | rfl
  · obtain ⟨hk, -, hspan, -⟩ := token?_eq_some_iff.1 hpt
    rw [hspan]
    rcases stretches_disjoint hp hq with rfl | h
    · simp [hk] at hbad
    · exact h
  · have hle := stop_le_of_mem_stretches hq
    rw [utf8Length_toList] at hle
    rw [endOfFile_span]
    exact .inr hle

theorem token_slice {source : String} {t : Token} (ht : t ∈ (tokenize source).tokens)
    (hk : t.kind ≠ .endOfFile) :
    t.span.start < t.span.stop ∧ IsSlice source.toList t.span t.text.toList := by
  rcases mem_tokens ht with ⟨p, hp, hpt⟩ | rfl
  · obtain ⟨-, htext, hspan, -⟩ := token?_eq_some_iff.1 hpt
    obtain ⟨before, tail, -, hslice⟩ := sliceAt_of_mem_stretches hp
    rw [htext, hspan, String.toList_ofList]
    exact ⟨PlacedPiece.start_lt_stop (text_ne_nil_of_mem_stretches hp), _, _, hslice⟩
  · exact absurd rfl hk

theorem error_slice {source : String} {e : LexicalError} (he : e ∈ (tokenize source).errors) :
    ∃ before text after, SliceAt source.toList e.span before text after ∧ text ≠ [] ∧
      e.fault.Describes text after := by
  obtain ⟨p, hp, hpe⟩ := mem_errors he
  obtain ⟨hk, hfault, hspan, -⟩ := error?_eq_some_iff.1 hpe
  obtain ⟨before, after, hslice, hstuck⟩ := stuck_of_mem_stretches hp hk
  rw [hspan, hfault]
  refine ⟨before, _, after, hslice, text_ne_nil_of_mem_stretches hp, ?_⟩
  unfold PlacedPiece.fault
  split
  · next hq => exact ⟨hq, hstuck.newline_notMem, hstuck.endsLine hq⟩
  · exact rfl

theorem final_token (source : String) :
    ∃ front last, (tokenize source).tokens = front ++ [last] ∧ last.kind = .endOfFile ∧
      last.text = "" ∧ last.span = Span.emptyAt source.utf8ByteSize ∧
      ∀ t ∈ front, t.kind ≠ .endOfFile :=
  ⟨_, _, tokens_eq source, rfl, rfl, endOfFile_span source, token_ne_endOfFile⟩

/-- The last of the tokens is the end of the file, and no other is. -/
theorem kinds_of_tokens {source : String} {tokens : List Token} {final : Token}
    (h : (tokenize source).tokens = tokens ++ [final]) :
    final.kind = .endOfFile ∧ final.text = "" ∧ ∀ t ∈ tokens, t.kind ≠ .endOfFile := by
  obtain ⟨front, last, hfront, hkind, htext, -, hkinds⟩ := final_token source
  obtain ⟨rfl, hlast⟩ := List.append_inj' (hfront.symm.trans h) rfl
  obtain rfl := List.singleton_inj.1 hlast
  exact ⟨hkind, htext, hkinds⟩

/-- The tokens and the errors of any source divide it among them: every character lies in exactly
one token, one error or one gap of skipped text, and the end of the file stands behind them all. -/
theorem tokenize_lossless (source : String) : Lossless source (tokenize source) where
  token_slice := fun _ ht hk => token_slice ht hk
  tokens_ordered := tokens_ordered source
  error_slice := fun _ he => error_slice he
  errors_apart := errors_apart source
  disjoint := fun _ ht _ he => tokens_errors_disjoint ht he
  covered := ⟨gaps source, gaps_apart source, fun _ hg => gap_slice hg,
    fun _ _ _ h => covered_once h⟩
  final := final_token source

end SyslModel
