import SyslModel.Proofs.Token.Scan
/-!
# Longest match and priority

`tokenize_longestMatch` says which text and which kind every token of a source has: the longest text
that fits any kind at its place, and the kind of highest precedence among those that fit it.  There
is one exception.  A method or a primitive directly in front of a dot is an identifier.

It also says where errors stand: at the start of an error and wherever reading takes up again inside
it, nothing fits.  A word that lost its special meaning always has an error behind it, the dot, so a
source without errors has no such word.
-/

namespace SyslModel

/-- The word of a method or of a primitive. -/
def IsKeyword (text : List Char) : Prop :=
  (∃ m : Method, text = m.keyword.toList) ∨ ∃ p : Primitive, text = p.keyword.toList

instance (text : List Char) : Decidable (IsKeyword text) :=
  decidable_of_iff
    ((∃ m ∈ Method.all, text = m.keyword.toList) ∨ ∃ p ∈ Primitive.all, text = p.keyword.toList)
    (or_congr ⟨fun ⟨m, _, h⟩ => ⟨m, h⟩, fun ⟨m, h⟩ => ⟨m, by cases m <;> decide, h⟩⟩
      ⟨fun ⟨p, _, h⟩ => ⟨p, h⟩, fun ⟨p, h⟩ => ⟨p, by cases p <;> decide, h⟩⟩)

/-- The kind of a token of this text, with `after` behind it: the highest one, but an identifier for
a keyword in front of a dot. -/
structure Classified (kind : TokenKind) (text after : List Char) : Prop where
  /-- The kind fits the text. -/
  fits : kind.Matches text
  /-- The kind is the highest one that fits, unless the text is a keyword in front of a dot. -/
  highest : ¬ (IsKeyword text ∧ after.head? = some '.') → kind.HighestFor text
  /-- The word of a method is an identifier exactly in front of a dot. -/
  method : ∀ m : Method, text = m.keyword.toList →
    (kind = .identifier ↔ after.head? = some '.')
  /-- The word of a primitive is a lowercase identifier exactly in front of a dot. -/
  primitive : ∀ p : Primitive, text = p.keyword.toList →
    (kind = .smallIdentifier ↔ after.head? = some '.')

/-- Tokens that are the longest match of the highest kind, and errors where nothing fits. -/
structure LongestMatch (source : String) (lexed : Lexed) : Prop where
  /-- A token is the longest text that fits anything at its place, and priority decides its kind. -/
  token : ∀ t ∈ lexed.tokens, t.kind ≠ .endOfFile → ∃ before after,
    SliceAt source.toList t.span before t.text.toList after ∧
      LongestAt (t.text.toList ++ after) t.text.toList ∧ Classified t.kind t.text.toList after
  /-- Nothing fits at the start of an error, nor where reading takes up again inside it. -/
  error : ∀ e ∈ lexed.errors, ∃ before text after,
    SliceAt source.toList e.span before text after ∧ text ≠ [] ∧ Stuck after text
  /-- Without errors no identifier is a keyword. -/
  keyword : lexed.errors = [] → ∀ t ∈ lexed.tokens,
    t.kind = .identifier ∨ t.kind = .smallIdentifier → ¬ IsKeyword t.text.toList

/-! ## The exception -/

namespace TokenKind

theorem before_eq (kind : TokenKind) (after : List Char) :
    kind.before after = if after.head? = some '.' then kind.generic else kind := by
  unfold before
  split
  · simp
  · next hne =>
    rw [if_neg]
    intro hdot
    obtain ⟨rest, rfl⟩ := List.head?_eq_some_iff.1 hdot
    exact hne rest rfl

/-- A text fits the generic form of a kind that it fits. -/
theorem Matches.generic {kind : TokenKind} {text : List Char} (h : kind.Matches text) :
    kind.generic.Matches text := by
  cases kind with
  | method m =>
    obtain rfl := mem_literal.1 h
    cases m <;>
      exact mem_oneOf_mul.2 ⟨_, _, rfl, by decide, mem_oneOf_star.2 (List.all_eq_true.1 rfl)⟩
  | primitive p =>
    obtain rfl := mem_literal.1 h
    cases p <;>
      exact mem_oneOf_mul.2 ⟨_, _, rfl, by decide, mem_oneOf_star.2 (List.all_eq_true.1 rfl)⟩
  | _ => exact h

/-- The highest kind for the word of a method is the method. -/
theorem HighestFor.eq_method {kind : TokenKind} {m : Method}
    (h : kind.HighestFor m.keyword.toList) : kind = .method m := by
  by_contra hne
  have hrank := h.outranks (.method m) rfl (Ne.symm hne)
  cases kind with
  | marker n =>
    have heq : m.keyword.toList = n.keyword.toList := h.fits
    cases m <;> cases n <;> simp [Method.keyword, Marker.keyword] at heq
  | _ => simp [rank] at hrank

/-- The highest kind for the word of a primitive is the primitive. -/
theorem HighestFor.eq_primitive {kind : TokenKind} {p : Primitive}
    (h : kind.HighestFor p.keyword.toList) : kind = .primitive p := by
  by_contra hne
  have hrank := h.outranks (.primitive p) rfl (Ne.symm hne)
  cases kind with
  | marker n =>
    have heq : p.keyword.toList = n.keyword.toList := h.fits
    cases p <;> cases n <;> simp [Primitive.keyword, Marker.keyword] at heq
  | method n =>
    have heq : p.keyword.toList = n.keyword.toList := h.fits
    cases p <;> cases n <;> simp [Primitive.keyword, Method.keyword] at heq
  | _ => simp [rank] at hrank

/-- Only a keyword has a generic form of its own. -/
theorem HighestFor.generic_eq {kind : TokenKind} {text : List Char} (h : kind.HighestFor text)
    (hk : ¬ IsKeyword text) : kind.generic = kind := by
  cases kind with
  | method m => exact absurd (.inl ⟨m, mem_literal.1 h.fits⟩) hk
  | primitive p => exact absurd (.inr ⟨p, mem_literal.1 h.fits⟩) hk
  | _ => rfl

/-- The highest kind, made generic in front of a dot, is the kind that priority gives. -/
theorem HighestFor.classified {best : TokenKind} {text : List Char} (h : best.HighestFor text)
    (after : List Char) : Classified (best.before after) text after where
  fits := by
    rw [before_eq]
    split
    · exact h.fits.generic
    · exact h.fits
  highest := by
    intro hne
    rw [before_eq]
    split
    · next hdot =>
      have hk : ¬ IsKeyword text := fun hk => hne ⟨hk, hdot⟩
      rwa [h.generic_eq hk]
    · exact h
  method := by
    rintro m rfl
    obtain rfl := h.eq_method
    rw [before_eq]
    split <;> simp_all [generic]
  primitive := by
    rintro p rfl
    obtain rfl := h.eq_primitive
    rw [before_eq]
    split <;> simp_all [generic]

end TokenKind

/-! ## The dot behind a keyword -/

theorem not_opens_dot (kind : TokenKind) : kind.opens '.' = false := by
  cases kind with
  | punctuation p => cases p <;> decide
  | _ => rfl

/-- A dot at the front of what is left is bad. -/
theorem frontPiece_dot (rest : List Char) : (frontPiece ('.' :: rest)).kind = .bad := by
  have hblank : frontBlank ('.' :: rest) = [] := by
    rw [frontBlank_eq_nil_iff]
    intro c hc
    obtain rfl : '.' = c := by simpa using hc
    decide
  have htoken : frontToken ('.' :: rest) = none := by
    rw [frontToken_eq_none_iff]
    intro kind text hp hne hm
    obtain ⟨c, tail, rfl⟩ := List.exists_cons_of_ne_nil hne
    obtain ⟨rfl, -⟩ := List.cons_prefix_cons.1 hp
    have := hm.opens
    rw [not_opens_dot] at this
    exact Bool.noConfusion this
  simp [frontPiece, hblank, htoken]

/-- Where a dot stands behind a token there is an error. -/
theorem errors_ne_nil_of_dot {source : String} {piece : Piece} {tail : List Piece}
    (hs : piece :: tail <:+ pieces source.toList)
    (hdot : (tail.flatMap Piece.text).head? = some '.') : (tokenize source).errors ≠ [] := by
  obtain ⟨rest, hrest⟩ := List.head?_eq_some_iff.1 hdot
  obtain ⟨-, htail⟩ := frontPiece_of_suffix hs
  rw [hrest, pieces_of_ne_nil (by simp)] at htail
  intro hnil
  have hmem : frontPiece ('.' :: rest) ∈ pieces source.toList :=
    hs.subset (List.mem_cons_of_mem _ (htail ▸ List.mem_cons_self))
  exact errors_eq_nil_iff.1 hnil _ hmem (frontPiece_dot rest)

/-! ## Longest match -/

/-- What is known of a token of a source: where it stands, and that it is the longest match there of
the kind that priority gives. -/
theorem token_classified {source : String} {t : Token} (ht : t ∈ (tokenize source).tokens)
    (hk : t.kind ≠ .endOfFile) :
    ∃ before after, SliceAt source.toList t.span before t.text.toList after ∧
      LongestAt (t.text.toList ++ after) t.text.toList ∧ Classified t.kind t.text.toList after := by
  rcases mem_tokens ht with ⟨p, hp, hpt⟩ | rfl
  · obtain ⟨hkind, htext, hspan, -⟩ := token?_eq_some_iff.1 hpt
    obtain ⟨before, after, hslice, hfront⟩ := frontToken_of_mem_stretches hp hkind
    obtain ⟨best, hbest, hlongest, -, heq⟩ := frontToken_eq_some_iff.1 hfront
    rw [List.drop_left] at heq
    rw [htext, hspan, heq, String.toList_ofList]
    exact ⟨before, after, hslice, hlongest, hbest.classified after⟩
  · exact absurd rfl hk

/-- Without errors the kind of a token is the highest one for its text. -/
theorem token_highestFor {source : String} (herr : (tokenize source).errors = []) {t : Token}
    (ht : t ∈ (tokenize source).tokens) (hk : t.kind ≠ .endOfFile) :
    t.kind.HighestFor t.text.toList := by
  rcases mem_tokens ht with ⟨p, hp, hpt⟩ | rfl
  · obtain ⟨hkind, htext, hspan, -⟩ := token?_eq_some_iff.1 hpt
    obtain ⟨before, tail, hs, hslice⟩ := piece_of_mem_stretches hp hkind
    obtain ⟨hfront, -⟩ := frontPiece_of_suffix hs
    have htoken := (frontPiece_of_token (hfront ▸ hkind)).2
    rw [hfront] at htoken
    obtain ⟨best, hbest, -, -, heq⟩ := frontToken_eq_some_iff.1 htoken
    rw [List.drop_left] at heq
    rw [htext, heq, String.toList_ofList]
    refine (hbest.classified _).highest ?_
    rintro ⟨-, hdot⟩
    exact errors_ne_nil_of_dot hs hdot herr
  · exact absurd rfl hk

theorem error_stuck {source : String} {e : LexicalError} (he : e ∈ (tokenize source).errors) :
    ∃ before text after, SliceAt source.toList e.span before text after ∧ text ≠ [] ∧
      Stuck after text := by
  obtain ⟨p, hp, hpe⟩ := mem_errors he
  obtain ⟨hk, -, hspan, -⟩ := error?_eq_some_iff.1 hpe
  obtain ⟨before, after, hslice, hstuck⟩ := stuck_of_mem_stretches hp hk
  exact ⟨before, _, after, hspan ▸ hslice, text_ne_nil_of_mem_stretches hp, hstuck⟩

/-- The highest kind of a keyword is no identifier. -/
theorem TokenKind.HighestFor.not_isKeyword {kind : TokenKind} {text : List Char}
    (h : kind.HighestFor text) (hk : kind = .identifier ∨ kind = .smallIdentifier) :
    ¬ IsKeyword text := by
  rintro (⟨m, rfl⟩ | ⟨p, rfl⟩)
  · rw [h.eq_method] at hk
    simp at hk
  · rw [h.eq_primitive] at hk
    simp at hk

/-- Every token of a source is the longest match at its place and of the kind that priority gives;
where an error stands, nothing fits; and only in front of an error is a keyword an identifier. -/
theorem tokenize_longestMatch (source : String) : LongestMatch source (tokenize source) where
  token := fun _ ht hk => token_classified ht hk
  error := fun _ he => error_stuck he
  keyword := by
    intro herr t ht hk
    have hne : t.kind ≠ .endOfFile := by
      rcases hk with hk | hk <;> simp [hk]
    exact (token_highestFor herr ht hne).not_isKeyword hk

end SyslModel
