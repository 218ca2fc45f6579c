import SyslModel.Proofs.Token.Priority
import SyslModel.Proofs.Token.Stretch
/-!
# What a piece can be

The piece at the front of a source is blank, a token or bad, and one statement for each says all
that is known then (`frontPiece_of_blank`, `frontPiece_of_token`, `frontPiece_of_bad`).  Every piece
of a source is the piece at the front of what is left there (`frontPiece_of_suffix`), so the same
holds of all of them.

Joined blank pieces are `Skipped` text: white space and whole comments.  Joined bad pieces are
`Stuck` text: wherever reading took up again, nothing fitted.
-/

namespace SyslModel

/-- A text that is empty or begins with a line feed: the line in front of it ends there. -/
def EndsLine (rest : List Char) : Prop := ∀ c ∈ rest.head?, c = '\n'

/-- No pattern of a token and none of what is skipped fits any text at the front of a source. -/
structure NothingFits (source : List Char) : Prop where
  /-- No kind of token fits. -/
  token : ∀ (kind : TokenKind) (text : List Char), text <+: source → text ≠ [] → ¬ kind.Matches text
  /-- It is no white space. -/
  whiteSpace : ∀ text, text <+: source → text ∉ whiteSpace
  /-- It is no comment. -/
  comment : ∀ text, text <+: source → text ∉ comment

/-- Text that is skipped, with `after` behind it: white space, and comments that go on to the end of
their lines. -/
inductive Skipped (after : List Char) : List Char → Prop
  /-- Nothing more is skipped. -/
  | nil : Skipped after []
  /-- A character of white space. -/
  | blank (c : Char) (text : List Char) :
      isBlank c = true → Skipped after text → Skipped after (c :: text)
  /-- A comment. -/
  | comment (line text : List Char) :
      '\n' ∉ line → EndsLine (text ++ after) → Skipped after text →
        Skipped after ('#' :: (line ++ text))

/-- Bad text, with `after` behind it: at its start, and wherever reading takes up again inside it,
nothing fits.  Reading takes up again behind one character, or behind the line of a double quote. -/
inductive Stuck (after : List Char) : List Char → Prop
  /-- The bad text ends. -/
  | nil : Stuck after []
  /-- A character that is passed over by itself. -/
  | char (c : Char) (text : List Char) :
      c ≠ '"' → NothingFits (c :: (text ++ after)) → Stuck after text → Stuck after (c :: text)
  /-- A double quote that is passed over together with its line. -/
  | quote (line text : List Char) :
      '\n' ∉ line → EndsLine (text ++ after) → NothingFits ('"' :: (line ++ (text ++ after))) →
        Stuck after text → Stuck after ('"' :: (line ++ text))

/-! ## The three cases -/

theorem newline_notMem_takeWhile (rest : List Char) : '\n' ∉ rest.takeWhile (· ≠ '\n') := by
  intro h
  simpa using List.mem_takeWhile_imp h

theorem endsLine_dropWhile (rest : List Char) : EndsLine (rest.dropWhile (· ≠ '\n')) := by
  intro c hc
  have hstop := List.head?_dropWhile_not (fun c => decide (c ≠ '\n')) rest
  rw [Option.mem_def.1 hc] at hstop
  simpa using hstop

theorem frontBlank_eq_nil_iff {source : List Char} :
    frontBlank source = [] ↔ ∀ c ∈ source.head?, c ≠ '#' ∧ isBlank c = false := by
  unfold frontBlank
  split
  · simp
  · next c rest hc =>
    have hc : c ≠ '#' := hc
    by_cases hb : isBlank c = true <;> simp [hb, hc]
  · simp

/-- A blank piece is a character of white space or a comment. -/
theorem frontPiece_of_blank {source : List Char} (h : (frontPiece source).kind = .blank) :
    (∃ c rest, source = c :: rest ∧ isBlank c = true ∧ (frontPiece source).text = [c]) ∨
      ∃ line rest, source = '#' :: (line ++ rest) ∧ '\n' ∉ line ∧ EndsLine rest ∧
        (frontPiece source).text = '#' :: line := by
  unfold frontPiece at h ⊢
  split at h
  · next hne =>
    rw [if_pos hne]
    unfold frontBlank at hne ⊢
    split at hne
    · next rest =>
      refine .inr ⟨_, rest.dropWhile (· ≠ '\n'), ?_, newline_notMem_takeWhile rest,
        endsLine_dropWhile rest, rfl⟩
      rw [List.takeWhile_append_dropWhile]
    · next c rest _ =>
      split at hne
      · next hb => exact .inl ⟨c, rest, rfl, hb, by simp [hb]⟩
      · exact absurd rfl hne
    · exact absurd rfl hne
  · split at h <;> simp at h

/-- A piece that is a token is the token at the front. -/
theorem frontPiece_of_token {source : List Char} {kind : TokenKind}
    (h : (frontPiece source).kind = .token kind) :
    frontBlank source = [] ∧ frontToken source = some (kind, (frontPiece source).text) := by
  unfold frontPiece at h ⊢
  split at h
  · simp at h
  · next hblank =>
    rw [if_neg hblank]
    split at h
    · next kind' text heq =>
      obtain rfl : kind' = kind := by simpa using h
      exact ⟨not_not.1 hblank, heq⟩
    · simp at h

theorem frontBad_cases {source : List Char} (hne : source ≠ []) :
    (∃ c rest, source = c :: rest ∧ c ≠ '"' ∧ frontBad source = [c]) ∨
      ∃ line rest, source = '"' :: (line ++ rest) ∧ '\n' ∉ line ∧ EndsLine rest ∧
        frontBad source = '"' :: line := by
  unfold frontBad
  split
  · next rest =>
    refine .inr ⟨_, rest.dropWhile (· ≠ '\n'), ?_, newline_notMem_takeWhile rest,
      endsLine_dropWhile rest, rfl⟩
    rw [List.takeWhile_append_dropWhile]
  · next hq =>
    obtain ⟨c, rest, rfl⟩ := List.exists_cons_of_ne_nil hne
    refine .inl ⟨c, rest, rfl, ?_, rfl⟩
    rintro rfl
    exact hq rest rfl

/-- Where no piece but a bad one stands, nothing fits. -/
theorem nothingFits_of_bad {source : List Char} (hblank : frontBlank source = [])
    (htoken : frontToken source = none) : NothingFits source := by
  rw [frontBlank_eq_nil_iff] at hblank
  refine ⟨frontToken_eq_none_iff.1 htoken, ?_, ?_⟩
  · rintro text ⟨rest, rfl⟩ hmem
    obtain ⟨hne, hall⟩ := mem_oneOrMore_oneOf.1 hmem
    obtain ⟨c, text, rfl⟩ := List.exists_cons_of_ne_nil hne
    have hc := (hblank c rfl).2
    rw [hall c List.mem_cons_self] at hc
    exact Bool.noConfusion hc
  · rintro text ⟨rest, rfl⟩ hmem
    obtain ⟨line, _, rfl⟩ := mem_literal_mul.1 hmem
    exact (hblank '#' rfl).1 rfl

/-- A bad piece stands where nothing fits; it is one character, or the line of a double quote. -/
theorem frontPiece_of_bad {source : List Char} (hne : source ≠ [])
    (h : (frontPiece source).kind = .bad) :
    NothingFits source ∧
      ((∃ c rest, source = c :: rest ∧ c ≠ '"' ∧ (frontPiece source).text = [c]) ∨
        ∃ line rest, source = '"' :: (line ++ rest) ∧ '\n' ∉ line ∧ EndsLine rest ∧
          (frontPiece source).text = '"' :: line) := by
  unfold frontPiece at h ⊢
  split at h
  · simp at h
  · next hblank =>
    rw [if_neg hblank]
    split at h
    · simp at h
    · next hnone => exact ⟨nothingFits_of_bad (not_not.1 hblank) hnone, frontBad_cases hne⟩

/-- Each piece is the piece at the front of what is left of the source. -/
theorem frontPiece_of_suffix {source : List Char} {piece : Piece} {tail : List Piece}
    (h : piece :: tail <:+ pieces source) :
    frontPiece (piece.text ++ tail.flatMap Piece.text) = piece ∧
      tail = pieces (tail.flatMap Piece.text) := by
  fun_induction pieces source with
  | case1 => simp at h
  | case2 source hne _ _ ih =>
    rcases List.suffix_cons_iff.1 h with h | h
    · obtain ⟨rfl, rfl⟩ := List.cons.inj h
      have hsource := List.prefix_iff_eq_append.1 (frontPiece_isPrefix source)
      rw [pieces_flatten, hsource]
      exact ⟨rfl, rfl⟩
    · exact ih h

/-! ## Runs of pieces -/

/-- Joined blank pieces are skipped text. -/
theorem skipped_of_suffix {source : List Char} {piece : Piece} {tail : List Piece}
    (hk : piece.kind = .blank)
    (h : piece :: tail <:+ joinRuns .blank (joinRuns .bad (pieces source))) :
    Skipped (tail.flatMap Piece.text) piece.text := by
  refine run_of_suffix_joinRuns (fun text after => Skipped after text) (fun _ => .nil) ?_ hk h
  intro piece tail hs hk text after htail hrun
  have hne : piece.kind ≠ .bad := by simp [hk]
  obtain ⟨tail', hs', htail'⟩ := suffix_of_suffix_joinRuns hne hs
  obtain ⟨hfront, -⟩ := frontPiece_of_suffix hs'
  rw [htail'] at hfront
  rw [← hfront] at hk
  rcases frontPiece_of_blank hk with ⟨c, rest, -, hb, htext⟩ | ⟨line, rest, hsplit, hl, he, htext⟩
  · rw [hfront] at htext
    rw [htext]
    exact .blank c text hb hrun
  · rw [hfront] at htext
    rw [htext, List.cons_append, List.cons.injEq, List.append_cancel_left_eq] at hsplit
    rw [htext]
    exact .comment line text hl (htail ▸ hsplit.2 ▸ he) hrun

/-- Joined bad pieces are stuck text. -/
theorem stuck_of_suffix {source : List Char} {piece : Piece} {tail : List Piece}
    (hk : piece.kind = .bad) (h : piece :: tail <:+ joinRuns .bad (pieces source)) :
    Stuck (tail.flatMap Piece.text) piece.text := by
  refine run_of_suffix_joinRuns (fun text after => Stuck after text)
    (fun _ => .nil) ?_ hk h
  intro piece tail hs hk text after htail hrun
  obtain ⟨hfront, -⟩ := frontPiece_of_suffix hs
  have hne : piece.text ++ tail.flatMap Piece.text ≠ [] := by
    have := text_ne_nil_of_mem_pieces (hs.subset List.mem_cons_self)
    simp [this]
  rw [← hfront] at hk
  obtain ⟨hfits, ⟨c, rest, -, hq, htext⟩ | ⟨line, rest, hsplit, hl, he, htext⟩⟩ :=
    frontPiece_of_bad hne hk
  · rw [hfront] at htext
    rw [htext, htail] at hfits
    rw [htext]
    exact .char c text hq hfits hrun
  · rw [hfront] at htext
    rw [htext, List.cons_append, List.cons.injEq, List.append_cancel_left_eq] at hsplit
    rw [htext, htail] at hfits
    rw [htext]
    exact .quote line text hl (htail ▸ hsplit.2 ▸ he) hfits hrun

/-- Stuck text holds no line feed, since a line feed is white space. -/
theorem Stuck.newline_notMem {after text : List Char} (h : Stuck after text) : '\n' ∉ text := by
  have hnl : ∀ rest, ¬ NothingFits ('\n' :: rest) := by
    intro rest hfits
    refine hfits.whiteSpace ['\n'] (by simp) ?_
    exact mem_oneOrMore_oneOf.2 ⟨by simp, by simp [isBlank]⟩
  induction h with
  | nil => simp
  | char c text _ hfits _ ih =>
    rintro (_ | ⟨_, hmem⟩)
    · exact hnl _ hfits
    · exact ih hmem
  | quote line text hline _ _ _ ih =>
    intro hmem
    rcases List.mem_cons.1 hmem with hq | hmem
    · exact absurd hq (by decide)
    · rcases List.mem_append.1 hmem with hmem | hmem
      · exact hline hmem
      · exact ih hmem

/-- Stuck text that starts with a double quote is the rest of its line. -/
theorem Stuck.endsLine {after text : List Char} (h : Stuck after text)
    (hq : text.head? = some '"') : EndsLine after := by
  cases h with
  | nil => simp at hq
  | char c text hc => exact absurd (Option.some.inj hq) hc
  | quote line text hline hends hfits hrest =>
    cases text with
    | nil => exact hends
    | cons c text =>
      obtain rfl : c = '\n' := hends c rfl
      exact absurd List.mem_cons_self hrest.newline_notMem

/-! ## The stretches of a source -/

/-- The placed pieces that the tokens and the errors of a source are read off. -/
def stretches (source : String) : List PlacedPiece :=
  placed Location.first (joinRuns .bad (pieces source.toList))

theorem tokens_eq (source : String) :
    (tokenize source).tokens = (stretches source).filterMap PlacedPiece.token?
      ++ [Token.endOfFile (Location.first.after source.toList)] := by
  rw [stretches, ← joinBad_eq_joinRuns]
  rfl

theorem errors_eq (source : String) :
    (tokenize source).errors = (stretches source).filterMap PlacedPiece.error? := by
  rw [stretches, ← joinBad_eq_joinRuns]
  rfl

theorem token?_eq_some_iff {p : PlacedPiece} {t : Token} :
    p.token? = some t ↔ p.piece.kind = .token t.kind ∧ t.text = String.ofList p.piece.text ∧
      t.span = p.span ∧ t.position = p.place.position := by
  unfold PlacedPiece.token?
  cases h : p.piece.kind with
  | token kind =>
    obtain ⟨kind', text, span, position⟩ := t
    simp [eq_comm]
  | blank => simp
  | bad => simp

theorem error?_eq_some_iff {p : PlacedPiece} {e : LexicalError} :
    p.error? = some e ↔ p.piece.kind = .bad ∧ e.fault = PlacedPiece.fault p.piece.text ∧
      e.span = p.span ∧ e.position = p.place.position := by
  unfold PlacedPiece.error?
  cases h : p.piece.kind with
  | token kind => simp
  | blank => simp
  | bad =>
    obtain ⟨fault, span, position⟩ := e
    simp [eq_comm]

theorem mem_tokens {source : String} {t : Token} (ht : t ∈ (tokenize source).tokens) :
    (∃ p ∈ stretches source, p.token? = some t) ∨
      t = Token.endOfFile (Location.first.after source.toList) := by
  rw [tokens_eq, List.mem_append, List.mem_filterMap, List.mem_singleton] at ht
  exact ht

theorem mem_errors {source : String} {e : LexicalError} (he : e ∈ (tokenize source).errors) :
    ∃ p ∈ stretches source, p.error? = some e := by
  rw [errors_eq, List.mem_filterMap] at he
  exact he

theorem text_ne_nil_of_mem_stretches {source : String} {p : PlacedPiece}
    (hp : p ∈ stretches source) : p.piece.text ≠ [] := by
  obtain ⟨before, tail, heq, _⟩ := mem_placed hp
  have hmem : p.piece ∈ joinRuns .bad (pieces source.toList) := by
    rw [heq]
    exact List.mem_append_right _ List.mem_cons_self
  exact joinRuns_text_ne_nil (fun _ => text_ne_nil_of_mem_pieces) p.piece hmem

theorem sliceAt_of_mem_stretches {source : String} {p : PlacedPiece} (hp : p ∈ stretches source) :
    ∃ before tail, p.piece :: tail <:+ joinRuns .bad (pieces source.toList) ∧
      SliceAt source.toList p.span before p.piece.text (tail.flatMap Piece.text) := by
  obtain ⟨before, tail, hs, hslice⟩ := sliceAt_of_mem_placed hp
  rw [joinRuns_flatten, pieces_flatten] at hslice
  exact ⟨before, tail, hs, hslice⟩

/-- A stretch that is a token is a piece of the source. -/
theorem piece_of_mem_stretches {source : String} {p : PlacedPiece} {kind : TokenKind}
    (hp : p ∈ stretches source) (hk : p.piece.kind = .token kind) :
    ∃ before tail, p.piece :: tail <:+ pieces source.toList ∧
      SliceAt source.toList p.span before p.piece.text (tail.flatMap Piece.text) := by
  obtain ⟨before, tail, hs, hslice⟩ := sliceAt_of_mem_stretches hp
  have hne : p.piece.kind ≠ .bad := by simp [hk]
  obtain ⟨tail', hs', htail⟩ := suffix_of_suffix_joinRuns hne hs
  exact ⟨before, tail', hs', htail ▸ hslice⟩

/-- A stretch that is a token is the token at the front of what is left there. -/
theorem frontToken_of_mem_stretches {source : String} {p : PlacedPiece} {kind : TokenKind}
    (hp : p ∈ stretches source) (hk : p.piece.kind = .token kind) :
    ∃ before after, SliceAt source.toList p.span before p.piece.text after ∧
      frontToken (p.piece.text ++ after) = some (kind, p.piece.text) := by
  obtain ⟨before, tail, hs, hslice⟩ := piece_of_mem_stretches hp hk
  obtain ⟨hfront, -⟩ := frontPiece_of_suffix hs
  have htoken := (frontPiece_of_token (hfront ▸ hk)).2
  rw [hfront] at htoken
  exact ⟨before, tail.flatMap Piece.text, hslice, htoken⟩

/-- A bad stretch is stuck text. -/
theorem stuck_of_mem_stretches {source : String} {p : PlacedPiece} (hp : p ∈ stretches source)
    (hk : p.piece.kind = .bad) :
    ∃ before after, SliceAt source.toList p.span before p.piece.text after ∧
      Stuck after p.piece.text := by
  obtain ⟨before, tail, hs, hslice⟩ := sliceAt_of_mem_stretches hp
  exact ⟨before, tail.flatMap Piece.text, hslice, stuck_of_suffix hk hs⟩

theorem error?_eq_none_iff {p : PlacedPiece} : p.error? = none ↔ p.piece.kind ≠ .bad := by
  unfold PlacedPiece.error?
  cases p.piece.kind <;> simp

theorem filterMap_error?_eq_nil_iff {place : Location} {pieces : List Piece} :
    (placed place pieces).filterMap PlacedPiece.error? = [] ↔ ∀ p ∈ pieces, p.kind ≠ .bad := by
  induction pieces generalizing place with
  | nil => simp [placed]
  | cons piece others ih =>
    rw [List.forall_mem_cons, ← @ih (place.after piece.text), placed,
      List.filterMap_eq_nil_iff, List.forall_mem_cons, error?_eq_none_iff,
      List.filterMap_eq_nil_iff]

/-- A source has no errors exactly if none of its pieces is bad. -/
theorem errors_eq_nil_iff {source : String} :
    (tokenize source).errors = [] ↔ ∀ p ∈ pieces source.toList, p.kind ≠ .bad := by
  rw [errors_eq, stretches, filterMap_error?_eq_nil_iff]
  exact forall_kind_joinRuns fun kind => kind ≠ .bad

theorem TokenKind.before_ne_endOfFile {kind : TokenKind} (h : kind ≠ .endOfFile)
    (rest : List Char) : kind.before rest ≠ .endOfFile := by
  unfold TokenKind.before
  split
  · cases kind <;> simp_all [TokenKind.generic]
  · exact h

/-- No token of the text is the end of the file. -/
theorem kind_ne_endOfFile {source : String} {p : PlacedPiece} {kind : TokenKind}
    (hp : p ∈ stretches source) (hk : p.piece.kind = .token kind) : kind ≠ .endOfFile := by
  obtain ⟨_, after, _, hfront⟩ := frontToken_of_mem_stretches hp hk
  obtain ⟨best, hbest, _, hne, rfl⟩ := frontToken_eq_some_iff.1 hfront
  refine TokenKind.before_ne_endOfFile ?_ _
  rintro rfl
  exact hne (mem_literal.1 hbest.fits)

/-- No token in front of the last one is the end of the file. -/
theorem token_ne_endOfFile {source : String} :
    ∀ t ∈ (stretches source).filterMap PlacedPiece.token?, t.kind ≠ .endOfFile := by
  intro t ht
  obtain ⟨p, hp, hpt⟩ := List.mem_filterMap.1 ht
  exact kind_ne_endOfFile hp (token?_eq_some_iff.1 hpt).1

end SyslModel
