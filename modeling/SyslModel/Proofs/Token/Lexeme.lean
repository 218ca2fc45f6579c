import SyslModel.Proofs.Token.LongestMatch
/-!
# Tokens by their surroundings

A token is told by its own text and by little of what stands behind it.  So a text that was put
together is read part by part, and a piece at the front of a source stays the same in front of
another rest.
-/

namespace SyslModel

/-!
## Reading a text that was put together

`Scans source lexemes rest` says that reading goes from the front of a source to the rest of it over
these tokens, with nothing but white space between them.  A text is scanned part by part:

* `Scans.word` — a token of any kind, in front of a character that no word goes on with;
* `Scans.mark`, `Scans.quoted` — punctuation and quoted texts, in front of anything;
* `tokenize_of_scans` — a source that is scanned to its end has these tokens and no errors.
-/

/-- The rest of a source that no word reaches into. -/
def EndsWord (rest : List Char) : Prop := ∀ c ∈ rest.head?, isPathChar c = false

/-- Does the kind end only where another character stands, unlike punctuation and quoted texts? -/
def TokenKind.isWord : TokenKind → Bool
  | .punctuation _ | .quoted | .endOfFile => false
  | _ => true

/-! ### The characters of a token behind its first -/

theorem isPathChar_of_isWordChar {c : Char} (h : isWordChar c = true) : isPathChar c = true := by
  simp [isPathChar, h]

theorem isWordChar_eq (c : Char) :
    isWordChar c = (c.isUpper || c.isLower || c.isDigit || c == '_') := rfl

theorem isWordChar_of_isUpper {c : Char} (h : c.isUpper = true) : isWordChar c = true := by
  simp [isWordChar_eq, h]

theorem isWordChar_of_isLower {c : Char} (h : c.isLower = true) : isWordChar c = true := by
  simp [isWordChar_eq, h]

theorem isWordChar_of_isDigit {c : Char} (h : c.isDigit = true) : isWordChar c = true := by
  simp [isWordChar_eq, h]

theorem isWordChar_of_isLowerOrDigit {c : Char} (h : isLowerOrDigit c = true) :
    isWordChar c = true := by
  rcases Bool.or_eq_true_iff.1 h with h | h
  · exact isWordChar_of_isLower h
  · exact isWordChar_of_isDigit h

/-- The parts of a dotted name hold characters of a path, if its classes do. -/
theorem isPathChar_of_dotGroups {start next : Char → Bool}
    (hstart : ∀ c, start c = true → isPathChar c = true)
    (hnext : ∀ c, next c = true → isPathChar c = true) {text : List Char}
    (h : text ∈ oneOrMore (Pattern.dotGroup start next)) : ∀ c ∈ text, isPathChar c = true := by
  have hgroup : ∀ group ∈ Pattern.dotGroup start next, ∀ c ∈ group, isPathChar c = true := by
    intro group hg
    obtain ⟨word, hword, rfl⟩ := mem_literal_mul.1 hg
    obtain ⟨first, others, rfl, hfirst, hothers⟩ := mem_oneOf_mul.1 hword
    rw [mem_oneOf_star] at hothers
    simp only [List.cons_append, List.nil_append, List.forall_mem_cons]
    exact ⟨by decide, hstart first hfirst, fun c hc => hnext c (hothers c hc)⟩
  obtain ⟨first, hfirst, others, hothers, rfl⟩ := Language.mem_mul.1 h
  have hrest : ∀ c ∈ others, isPathChar c = true := by
    refine star_induction (motive := fun text => ∀ c ∈ text, isPathChar c = true) (by simp) ?_
      others hothers
    intro group hg rest _ ih
    rw [List.forall_mem_append]
    exact ⟨hgroup group hg, ih⟩
  rw [List.forall_mem_append]
  exact ⟨hgroup first hfirst, hrest⟩

/-- The same of a dotted name behind its first character. -/
theorem isPathChar_of_dotted {first start next : Char → Bool}
    (hstart : ∀ c, start c = true → isPathChar c = true)
    (hnext : ∀ c, next c = true → isPathChar c = true) {c : Char} {tail : List Char}
    (h : c :: tail ∈ (Pattern.dotted first start next).language) :
    ∀ d ∈ tail, isPathChar d = true := by
  obtain ⟨word, hword, groups, hgroups, rfl⟩ := Language.mem_mul.1 (cons_mem_oneOf_mul.1 h).2
  rw [mem_oneOf_star] at hword
  rw [List.forall_mem_append]
  exact ⟨fun d hd => hnext d (hword d hd), isPathChar_of_dotGroups hstart hnext hgroups⟩

/-- Behind its first character a token has only characters of a path, unless quoted or `<:`. -/
theorem TokenKind.Matches.isPathChar_tail {kind : TokenKind} {c : Char} {tail : List Char}
    (h : kind.Matches (c :: tail)) (hq : kind ≠ .quoted) (hs : kind ≠ .punctuation .subset) :
    ∀ d ∈ tail, isPathChar d = true := by
  cases kind with
  | marker m =>
    cases m <;> obtain ⟨-, rfl⟩ := List.cons.inj (mem_literal.1 h) <;>
      exact List.all_eq_true.1 rfl
  | method m =>
    cases m <;> obtain ⟨-, rfl⟩ := List.cons.inj (mem_literal.1 h) <;>
      exact List.all_eq_true.1 rfl
  | primitive p =>
    cases p <;> obtain ⟨-, rfl⟩ := List.cons.inj (mem_literal.1 h) <;>
      exact List.all_eq_true.1 rfl
  | punctuation p =>
    cases p with
    | subset => exact absurd rfl hs
    | _ =>
      obtain ⟨-, rfl⟩ := List.cons.inj (mem_literal.1 h)
      exact List.all_eq_true.1 rfl
  | foreignKey =>
    exact isPathChar_of_dotted (fun _ => isPathChar_of_isWordChar)
      (fun _ => isPathChar_of_isWordChar) h
  | qualifiedName =>
    exact isPathChar_of_dotted (fun _ hd => isPathChar_of_isWordChar (isWordChar_of_isLower hd))
      (fun _ hd => isPathChar_of_isWordChar (isWordChar_of_isLowerOrDigit hd)) h
  | identifier | smallIdentifier =>
    have htail := mem_oneOf_star.1 (cons_mem_oneOf_mul.1 h).2
    exact fun d hd => isPathChar_of_isWordChar (htail d hd)
  | path =>
    exact mem_oneOf_star.1 (cons_mem_oneOf_mul.1 h).2
  | quoted => exact absurd rfl hq
  | integer =>
    obtain ⟨sign, hsign, digits, hdigits, heq⟩ := Language.mem_mul.1 h
    have hdigit := (mem_oneOrMore_oneOf.1 hdigits).2
    have htail : ∀ d ∈ tail, d ∈ digits := by
      rcases hsign with rfl | rfl
      · obtain rfl : digits = c :: tail := heq
        exact fun d hd => List.mem_cons_of_mem _ hd
      · obtain ⟨-, rfl⟩ := List.cons.inj heq
        exact fun d hd => hd
    exact fun d hd => isPathChar_of_isWordChar (isWordChar_of_isDigit (hdigit d (htail d hd)))
  | endOfFile => cases mem_literal.1 h

/-! ### The longest token at the front of a text that was put together -/

/-- Of a text and a longer one at the front of the same source, the longer one goes on into the
rest. -/
theorem exists_of_prefix_append {text other rest : List Char} (hp : other <+: text ++ rest)
    (hlt : text.length < other.length) :
    ∃ c more, other = text ++ c :: more ∧ rest.head? = some c := by
  have htext : text <+: other :=
    List.prefix_of_prefix_length_le (List.prefix_append _ _) hp (le_of_lt hlt)
  obtain ⟨more, rfl⟩ := htext
  obtain ⟨c, more, rfl⟩ : ∃ c tail, more = c :: tail := by
    apply List.exists_cons_of_ne_nil
    rintro rfl
    simp at hlt
  obtain ⟨tail, htail⟩ := (List.prefix_append_right_inj text).1 hp
  exact ⟨c, more, rfl, by rw [← htail]; rfl⟩

/-- Only one kind has texts that begin with the first character of a punctuation mark or with a
double quote. -/
theorem TokenKind.eq_of_opens {kind other : TokenKind} {c : Char}
    (hk : kind = .quoted ∨ ∃ p, kind = .punctuation p) (h : kind.opens c = true)
    (ho : other.opens c = true) : other = kind := by
  have hkind : kind.rank = 1 := by
    rcases hk with rfl | ⟨p, rfl⟩ <;> rfl
  have hother : other.rank = 1 := by
    rcases hk with rfl | ⟨p, rfl⟩
    · obtain rfl : c = '"' := by simpa [opens] using h
      cases other <;> first | rfl | simp [opens] at ho
    · cases p <;> obtain rfl : _ = c := by simpa [opens, Punctuation.text] using h
      all_goals cases other <;> first | rfl | simp [opens] at ho
  exact (eq_openedBy hother ho).trans (eq_openedBy hkind h).symm

/-- What begins like the text of a kind that is neither quoted nor punctuation has only characters
of a path behind its first. -/
theorem TokenKind.Matches.isPathChar_longer {kind other : TokenKind} {c : Char}
    {tail tail' : List Char} (h : kind.Matches (c :: tail))
    (hclosed : ¬ (kind = .quoted ∨ ∃ p, kind = .punctuation p))
    (hother : other.Matches (c :: tail')) : ∀ d ∈ tail', isPathChar d = true := by
  have hother' : ¬ (other = .quoted ∨ ∃ p, other = .punctuation p) := by
    intro hk
    obtain rfl := eq_of_opens hk hother.opens h.opens
    exact hclosed hk
  exact hother.isPathChar_tail (fun hq => hother' (.inl hq)) fun hs => hother' (.inr ⟨_, hs⟩)

/-- The texts of a kind that is neither quoted nor punctuation are the longest in front of a
character that no word goes on with. -/
theorem longestAt_word {kind : TokenKind} {text rest : List Char} (h : kind.Matches text)
    (hne : text ≠ []) (hclosed : ¬ (kind = .quoted ∨ ∃ p, kind = .punctuation p))
    (hrest : EndsWord rest) : LongestAt (text ++ rest) text := by
  refine ⟨List.prefix_append _ _, ?_⟩
  intro kind' other hother hp
  by_contra hlt
  obtain ⟨d, more, rfl, hd⟩ := exists_of_prefix_append hp (not_le.1 hlt)
  obtain ⟨c, tail, rfl⟩ := List.exists_cons_of_ne_nil hne
  have hpath := h.isPathChar_longer hclosed hother d (by simp)
  rw [hrest d hd] at hpath
  exact Bool.noConfusion hpath

/-- Punctuation and quoted texts end by themselves. -/
theorem longestAt_closed {kind : TokenKind} {text : List Char}
    (hk : kind = .quoted ∨ ∃ p, kind = .punctuation p) (h : kind.Matches text) (hne : text ≠ [])
    (rest : List Char) : LongestAt (text ++ rest) text := by
  refine ⟨List.prefix_append _ _, ?_⟩
  intro kind' other hother hp
  obtain ⟨c, tail, rfl⟩ := List.exists_cons_of_ne_nil hne
  cases other with
  | nil => simp
  | cons d tail' =>
    obtain ⟨rfl, htail⟩ := List.cons_prefix_cons.1 hp
    obtain rfl := TokenKind.eq_of_opens hk h.opens hother.opens
    rcases hk with rfl | ⟨p, rfl⟩
    · obtain ⟨t, ht, heq⟩ := mem_literal_mul.1 h
      obtain ⟨t', ht', heq'⟩ := mem_literal_mul.1 hother
      obtain ⟨-, rfl⟩ := List.cons.inj heq
      obtain ⟨-, rfl⟩ := List.cons.inj heq'
      obtain ⟨back, (hback : tail' ++ back = tail ++ rest)⟩ := htail
      have hend := Pattern.quotedTail_append ht rest
      rw [← hback] at hend
      have hsame := (Pattern.quotedTail_append ht' back).symm.trans hend
      rw [Option.some.inj hsame]
    · rw [mem_literal.1 h, mem_literal.1 hother]

theorem not_opens_blank {c : Char} (hc : c = '#' ∨ isBlank c = true) (kind : TokenKind) :
    kind.opens c = false := by
  have hcases : c = '#' ∨ c = ' ' ∨ c = '\t' ∨ c = '\r' ∨ c = '\n' ∨ c = '\x0c' := by
    simpa [isBlank] using hc
  rcases hcases with rfl | rfl | rfl | rfl | rfl | rfl <;> cases kind with
  | punctuation p => cases p <;> decide
  | _ => rfl

/-- The piece at the front of a text that begins with a token. -/
theorem frontPiece_append {kind : TokenKind} {text rest : List Char} (h : kind.HighestFor text)
    (hne : text ≠ []) (hlongest : LongestAt (text ++ rest) text)
    (hbefore : kind.before rest = kind) : frontPiece (text ++ rest) = ⟨.token kind, text⟩ := by
  have htoken : frontToken (text ++ rest) = some (kind, text) := by
    rw [frontToken_eq_some_iff]
    refine ⟨kind, h, hlongest, hne, ?_⟩
    rw [List.drop_left, hbefore]
  have hblank : frontBlank (text ++ rest) = [] := by
    obtain ⟨c, tail, rfl⟩ := List.exists_cons_of_ne_nil hne
    rw [frontBlank_eq_nil_iff]
    intro d hd
    obtain rfl : c = d := by simpa using hd
    have hopens := h.fits.opens
    refine ⟨?_, ?_⟩
    · intro heq
      simp [not_opens_blank (.inl heq)] at hopens
    · rw [Bool.eq_false_iff]
      intro hb
      simp [not_opens_blank (.inr hb)] at hopens
  simp [frontPiece, hblank, htoken]

/-! ### Scanning part by part -/

/-- A kind of token with a text of it. -/
abbrev Lexeme := TokenKind × String

/-- The kind and the text of a token. -/
def Token.lexeme (t : Token) : Lexeme := (t.kind, t.text)

/-- Reading goes over these tokens, with white space and comments between them, to the rest of a
source. -/
inductive Scans : List Char → List Lexeme → List Char → Prop
  /-- Nothing is read. -/
  | refl (rest : List Char) : Scans rest [] rest
  /-- A character of white space is passed over. -/
  | blank {c : Char} {source : List Char} {lexemes : List Lexeme} {rest : List Char} :
      isBlank c = true → Scans source lexemes rest → Scans (c :: source) lexemes rest
  /-- A comment is passed over, up to the end of its line. -/
  | comment {line source : List Char} {lexemes : List Lexeme} {rest : List Char} :
      '\n' ∉ line → EndsLine source → Scans source lexemes rest →
        Scans ('#' :: (line ++ source)) lexemes rest
  /-- A token is read. -/
  | token {kind : TokenKind} {text : String} {source : List Char} {lexemes : List Lexeme}
      {rest : List Char} :
      frontPiece (text.toList ++ source) = ⟨.token kind, text.toList⟩ →
        Scans source lexemes rest → Scans (text.toList ++ source) ((kind, text) :: lexemes) rest

namespace Scans

variable {source middle rest : List Char} {lexemes more : List Lexeme} {text : String}
  {kind : TokenKind}

theorem trans (h : Scans source lexemes middle) (h' : Scans middle more rest) :
    Scans source (lexemes ++ more) rest := by
  induction h with
  | refl _ => exact h'
  | blank hc _ ih => exact .blank hc (ih h')
  | comment hline hends _ ih => exact .comment hline hends (ih h')
  | token hfront _ ih => exact .token hfront (ih h')

theorem blanks (h : text.toList.all isBlank = true) (rest : List Char) :
    Scans (text.toList ++ rest) [] rest := by
  generalize text.toList = blanks at h ⊢
  induction blanks with
  | nil => exact .refl rest
  | cons c tail ih =>
    rw [List.all_cons, Bool.and_eq_true] at h
    exact .blank h.1 (ih h.2)

/-- A token in front of a character that no word goes on with. -/
theorem word (hk : kind.isWord = true) (h : kind.HighestFor text.toList) (hrest : EndsWord rest) :
    Scans (text.toList ++ rest) [(kind, text)] rest := by
  have hne : text.toList ≠ [] := h.fits.ne_nil (by rintro rfl; cases hk)
  have hclosed : ¬ (kind = .quoted ∨ ∃ p, kind = .punctuation p) := by
    rintro (rfl | ⟨p, rfl⟩) <;> cases hk
  refine .token (frontPiece_append h hne (longestAt_word h.fits hne hclosed hrest) ?_) (.refl rest)
  rw [TokenKind.before_eq, if_neg]
  intro hdot
  have := hrest '.' hdot
  exact absurd this (by decide)

theorem mark (p : Punctuation) (rest : List Char) :
    Scans (p.text.toList ++ rest) [(.punctuation p, p.text)] rest := by
  have hne : p.text.toList ≠ [] := by
    cases p <;> decide
  have hfits : (TokenKind.punctuation p).Matches p.text.toList := mem_literal.2 rfl
  refine .token (frontPiece_append ⟨hfits, ?_⟩ hne
    (longestAt_closed (.inr ⟨p, rfl⟩) hfits hne rest) ?_) (.refl rest)
  · intro other hother hne'
    obtain ⟨c, tail, heq⟩ := List.exists_cons_of_ne_nil hne
    rw [heq] at hother hfits
    exact absurd (TokenKind.eq_of_opens (.inr ⟨p, rfl⟩) hfits.opens hother.opens) hne'
  · rw [TokenKind.before_eq]
    split <;> rfl

theorem quoted (h : TokenKind.quoted.Matches text.toList) (rest : List Char) :
    Scans (text.toList ++ rest) [(.quoted, text)] rest := by
  have hne : text.toList ≠ [] := h.ne_nil (by simp)
  refine .token (frontPiece_append ⟨h, ?_⟩ hne (longestAt_closed (.inl rfl) h hne rest) ?_)
    (.refl rest)
  · intro other hother hne'
    obtain ⟨c, tail, heq⟩ := List.exists_cons_of_ne_nil hne
    rw [heq] at hother h
    exact absurd (TokenKind.eq_of_opens (.inl rfl) h.opens hother.opens) hne'
  · rw [TokenKind.before_eq]
    split <;> rfl

/-! ### The tokens of a source that is scanned -/

theorem frontPiece_blank {c : Char} (hc : isBlank c = true) (source : List Char) :
    frontPiece (c :: source) = ⟨.blank, [c]⟩ := by
  have hblank : frontBlank (c :: source) = [c] := by
    unfold frontBlank
    split
    · next heq =>
      obtain ⟨rfl, -⟩ := List.cons.inj heq
      exact absurd hc (by decide)
    · next heq =>
      obtain ⟨rfl, -⟩ := List.cons.inj heq
      rw [if_pos hc]
    · next heq => cases heq
  simp [frontPiece, hblank]

theorem frontPiece_comment {line source : List Char} (hline : '\n' ∉ line)
    (hends : EndsLine source) :
    frontPiece ('#' :: (line ++ source)) = ⟨.blank, '#' :: line⟩ := by
  have hall : ∀ c ∈ line, decide (c ≠ '\n') = true := by
    intro c hc
    exact decide_eq_true fun heq => hline (heq ▸ hc)
  have hstop : source.takeWhile (· ≠ '\n') = [] := by
    cases source with
    | nil => rfl
    | cons c source =>
      obtain rfl : c = '\n' := hends c rfl
      rfl
  have hblank : frontBlank ('#' :: (line ++ source)) = '#' :: line := by
    rw [frontBlank, List.takeWhile_append_of_pos hall, hstop, List.append_nil]
  simp [frontPiece, hblank]

/-- The pieces of what is scanned are its tokens and blanks. -/
theorem pieces_eq (h : Scans source lexemes rest) :
    ∃ front, pieces source = front ++ pieces rest ∧
      (∀ p ∈ front, p.kind ≠ .bad) ∧
      ∀ place, ((placed place front).filterMap PlacedPiece.token?).map Token.lexeme = lexemes := by
  induction h with
  | refl rest => exact ⟨[], rfl, by simp, fun _ => rfl⟩
  | @blank c source lexemes rest hc _ ih =>
    obtain ⟨front, hfront, hbad, htokens⟩ := ih
    refine ⟨⟨.blank, [c]⟩ :: front, ?_, by simpa using hbad, fun place => htokens _⟩
    rw [pieces_of_ne_nil (by simp), frontPiece_blank hc]
    exact congrArg (List.cons _) hfront
  | @comment line source lexemes rest hline hends _ ih =>
    obtain ⟨front, hfront, hbad, htokens⟩ := ih
    refine ⟨⟨.blank, '#' :: line⟩ :: front, ?_, by simpa using hbad, fun place => htokens _⟩
    rw [pieces_of_ne_nil (by simp), frontPiece_comment hline hends, List.cons_append, ← hfront,
      List.length_cons, List.drop_succ_cons, List.drop_left]
  | @token kind text source lexemes rest hpiece _ ih =>
    obtain ⟨front, hfront, hbad, htokens⟩ := ih
    have hne : text.toList ++ source ≠ [] := by
      intro hnil
      rw [hnil] at hpiece
      cases hpiece
    refine ⟨⟨.token kind, text.toList⟩ :: front, ?_, by simpa using hbad, fun place => ?_⟩
    · rw [pieces_of_ne_nil hne, hpiece, List.drop_left, hfront, List.cons_append]
    · have htoken : PlacedPiece.token? ⟨place, ⟨.token kind, text.toList⟩⟩ = some _ := rfl
      rw [placed, List.filterMap_cons_some htoken, List.map_cons, htokens]
      simp [Token.lexeme]

end Scans

/-- A source that is scanned to its end has the tokens that were read, and no errors. -/
theorem tokenize_of_scans {source : String} {lexemes : List Lexeme}
    (h : Scans source.toList lexemes []) :
    (tokenize source).errors = [] ∧
      ∃ tokens final, (tokenize source).tokens = tokens ++ [final] ∧
        (∀ t ∈ tokens, t.kind ≠ .endOfFile) ∧ final.kind = .endOfFile ∧
        tokens.map Token.lexeme = lexemes := by
  obtain ⟨front, hfront, hbad, htokens⟩ := h.pieces_eq
  rw [pieces_nil, List.append_nil] at hfront
  refine ⟨errors_eq_nil_iff.2 (hfront ▸ hbad), _, _, tokens_eq source, token_ne_endOfFile, rfl, ?_⟩
  have hbad (p : PlacedPiece) (hp : p.piece.kind = .bad) : p.token? = none := by
    simp [PlacedPiece.token?, hp]
  rw [stretches, filterMap_placed_joinRuns hbad, hfront]
  exact htokens _

/-!
## The piece in front of another rest

What the piece at the front of a source is depends on what stands behind it in three ways: a comment
needs the end of its line, a token must not go on, and a dot takes the special meaning of a method
or a primitive.  `frontPiece_of_rest` says that a piece stays the same in front of another rest that
is like the first one in these.
-/

theorem EndsLine.of_append {rest after : List Char} (h : EndsLine (rest ++ after)) :
    EndsLine rest := by
  cases rest with
  | nil => exact fun c hc => nomatch hc
  | cons d rest => exact h

/-- The longest token stays the longest in front of another rest, if all that is at the front of
this one and has no spaces is at the front of the first one as well. -/
theorem LongestAt.of_rest {kind : TokenKind} {text rest rest' : List Char} (hm : kind.Matches text)
    (hne : text ≠ []) (h : LongestAt (text ++ rest) text)
    (hrest : ∀ more, ' ' ∉ more → more <+: rest' → more <+: rest) :
    LongestAt (text ++ rest') text := by
  by_cases hclosed : kind = .quoted ∨ ∃ p, kind = .punctuation p
  · exact longestAt_closed hclosed hm hne rest'
  refine ⟨List.prefix_append _ _, fun kind' other hother hp => ?_⟩
  by_contra hlt
  obtain ⟨d, more, rfl, -⟩ := exists_of_prefix_append hp (not_le.1 hlt)
  obtain ⟨c, tail, rfl⟩ := List.exists_cons_of_ne_nil hne
  have hpath := hm.isPathChar_longer hclosed hother
  have hspace : ' ' ∉ d :: more := fun hmem =>
    absurd (hpath ' ' (List.mem_append_right _ hmem)) (by decide)
  have hfront := hrest _ hspace ((List.prefix_append_right_inj _).1 hp)
  exact hlt (h.length_le kind' _ hother ((List.prefix_append_right_inj _).2 hfront))

/-- Does the piece keep its meaning if a dot behind it goes away?  A keyword that has become an
identifier does not. -/
def Piece.Steady (piece : Piece) : Prop :=
  piece.kind = .token .identifier ∨ piece.kind = .token .smallIdentifier → ¬ IsKeyword piece.text

/-- The kind that a token has is the highest one, unless the token is a keyword that a dot has made
an identifier. -/
theorem TokenKind.HighestFor.before_eq_self {best : TokenKind} {text rest : List Char}
    (h : best.HighestFor text)
    (hsteady : rest.head? = some '.' → Piece.Steady ⟨.token (best.before rest), text⟩) :
    best.before rest = best := by
  rw [before_eq] at hsteady ⊢
  split at hsteady
  · next hdot =>
    rw [if_pos hdot]
    by_cases hkeyword : IsKeyword text
    · refine absurd hkeyword (hsteady hdot ?_)
      rcases hkeyword with ⟨m, rfl⟩ | ⟨p, rfl⟩
      · rw [h.eq_method]
        exact .inl rfl
      · rw [h.eq_primitive]
        exact .inr rfl
    · exact h.generic_eq hkeyword
  · next hdot => rw [if_neg hdot]

/-- A piece that is not bad is the piece in front of another rest as well: if its line ends where it
did, if what has no spaces at the front of this rest stood at the front of the first one, and if no
dot gives the piece another meaning. -/
theorem frontPiece_of_rest {piece : Piece} {rest rest' : List Char} (hne : piece.text ≠ [])
    (hbad : piece.kind ≠ .bad) (h : frontPiece (piece.text ++ rest) = piece)
    (hends : EndsLine rest → EndsLine rest')
    (hrest : ∀ more, ' ' ∉ more → more <+: rest' → more <+: rest)
    (hdot : rest'.head? ≠ some '.') (hsteady : rest.head? = some '.' → piece.Steady) :
    frontPiece (piece.text ++ rest') = piece := by
  obtain ⟨kind, text⟩ := piece
  dsimp only at hne hbad h ⊢
  cases kind with
  | bad => exact absurd rfl hbad
  | blank =>
    have hblank := frontPiece_of_blank (congrArg Piece.kind h)
    rw [h] at hblank
    rcases hblank with ⟨c, tail, -, hb, rfl⟩ | ⟨line, tail, hsplit, hline, hend, rfl⟩
    · exact Scans.frontPiece_blank hb _
    · rw [List.cons_append, List.cons.injEq, List.append_cancel_left_eq] at hsplit
      exact Scans.frontPiece_comment hline (hends (hsplit.2 ▸ hend))
  | token kind =>
    obtain ⟨-, htoken⟩ := frontPiece_of_token (congrArg Piece.kind h)
    rw [h] at htoken
    obtain ⟨best, hbest, hlongest, -, heq⟩ := frontToken_eq_some_iff.1 htoken
    rw [List.drop_left] at heq
    obtain rfl : kind = best := heq.trans (hbest.before_eq_self (heq ▸ hsteady))
    refine frontPiece_append hbest hne (hlongest.of_rest hbest.fits hne hrest) ?_
    rw [TokenKind.before_eq, if_neg hdot]

end SyslModel
