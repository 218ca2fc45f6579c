import SyslModel.Proofs.Token.Language
import SyslModel.Token.Lexed
/-!
# The kind that takes a text

Several patterns may describe one text: `GET` is a method and an identifier.  `TokenKind.rank` says
which kind has precedence, and `TokenKind.HighestFor` that a kind is above all others that fit.
Kinds of equal rank never fit the same text, so at most one kind is the highest.

* `frontToken_eq_some_iff` — the token at the front of a source is the longest text that fits any
  kind, and its kind is the highest one for it, made generic in front of a dot;
* `frontToken_eq_none_iff` — there is none exactly if no kind fits anything there.
-/

namespace SyslModel

/-! ## Classes of characters -/

theorem isUpper_iff {c : Char} : c.isUpper = true ↔ 65 ≤ c.toNat ∧ c.toNat ≤ 90 := by
  show decide (c.val ≥ 'A'.val ∧ c.val ≤ 'Z'.val) = true ↔ _
  simp [UInt32.le_iff_toNat_le]

theorem isLower_iff {c : Char} : c.isLower = true ↔ 97 ≤ c.toNat ∧ c.toNat ≤ 122 := by
  show (decide (c.val ≥ 'a'.val) && decide (c.val ≤ 'z'.val)) = true ↔ _
  simp [UInt32.le_iff_toNat_le]

theorem isDigit_iff {c : Char} : c.isDigit = true ↔ 48 ≤ c.toNat ∧ c.toNat ≤ 57 := by
  show (decide (c.val ≥ '0'.val) && decide (c.val ≤ '9'.val)) = true ↔ _
  simp [UInt32.le_iff_toNat_le]

/-- No character is both a lowercase and an uppercase letter. -/
theorem isUpper_of_isLower {c : Char} (h : c.isLower = true) : c.isUpper = false := by
  rw [isLower_iff] at h
  rw [Bool.eq_false_iff, ne_eq, isUpper_iff]
  omega

/-- A digit is no letter. -/
theorem not_letter_of_isDigit {c : Char} (h : c.isDigit = true) :
    c.isUpper = false ∧ c.isLower = false := by
  rw [isDigit_iff] at h
  rw [Bool.eq_false_iff, Bool.eq_false_iff, ne_eq, ne_eq, isUpper_iff, isLower_iff]
  omega

namespace TokenKind

/-! ## Precedence -/

/-- Does the pattern of a kind describe a text? -/
def Matches (kind : TokenKind) (text : List Char) : Prop := text ∈ kind.pattern.language

/-- The precedence of a kind, the strongest first: markers, methods, primitives, foreign keys,
qualified names; all others come last. -/
def rank : TokenKind → Nat
  | .marker _ => 6
  | .method _ => 5
  | .primitive _ => 4
  | .foreignKey => 3
  | .qualifiedName => 2
  | .endOfFile => 0
  | _ => 1

/-- A kind fits a text, and every other kind that fits it has less precedence. -/
structure HighestFor (kind : TokenKind) (text : List Char) : Prop where
  /-- The kind fits. -/
  fits : kind.Matches text
  /-- All others that fit are weaker. -/
  outranks : ∀ other : TokenKind, other.Matches text → other ≠ kind → other.rank < kind.rank

/-- Only one kind can be the highest. -/
theorem HighestFor.unique {kind other : TokenKind} {text : List Char} (h : kind.HighestFor text)
    (ho : other.HighestFor text) : kind = other := by
  by_contra hne
  have h₁ := h.outranks other ho.fits (Ne.symm hne)
  have h₂ := ho.outranks kind h.fits hne
  omega

/-! ## First characters -/

/-- Can the texts of a kind start with this character? -/
def opens : TokenKind → Char → Bool
  | .marker _, c => c == '!'
  | .method _, c | .foreignKey, c | .identifier, c => c.isUpper
  | .primitive _, c | .qualifiedName, c | .smallIdentifier, c => c.isLower
  | .path, c => c == '/'
  | .quoted, c => c == '"'
  | .integer, c => c == '-' || c.isDigit
  | .punctuation p, c => p.text.toList.head? == some c
  | .endOfFile, _ => false

theorem Matches.opens {kind : TokenKind} {c : Char} {tail : List Char}
    (h : kind.Matches (c :: tail)) : kind.opens c = true := by
  cases kind with
  | marker m =>
    cases m <;> obtain ⟨rfl, rfl⟩ := List.cons.inj (mem_literal.1 h) <;> decide
  | method m =>
    cases m <;> obtain ⟨rfl, rfl⟩ := List.cons.inj (mem_literal.1 h) <;> decide
  | primitive p =>
    cases p <;> obtain ⟨rfl, rfl⟩ := List.cons.inj (mem_literal.1 h) <;> decide
  | punctuation p =>
    cases p <;> obtain ⟨rfl, rfl⟩ := List.cons.inj (mem_literal.1 h) <;> decide
  | foreignKey | qualifiedName | identifier | smallIdentifier | path =>
    exact (cons_mem_oneOf_mul.1 h).1
  | quoted =>
    obtain ⟨_, _, heq⟩ := mem_literal_mul.1 h
    obtain ⟨rfl, rfl⟩ := List.cons.inj heq
    rfl
  | integer =>
    obtain ⟨sign, hsign, digits, hdigits, heq⟩ := Language.mem_mul.1 h
    rcases hsign with rfl | rfl
    · have hc := (mem_oneOrMore_oneOf.1 hdigits).2 c (by simp_all)
      simp [TokenKind.opens, hc]
    · obtain ⟨rfl, rfl⟩ := List.cons.inj heq
      rfl
  | endOfFile => simp [Matches, pattern, Pattern.language, mem_literal] at h

/-- Only the end of the file is written by nothing. -/
theorem Matches.ne_nil {kind : TokenKind} {text : List Char} (h : kind.Matches text)
    (hk : kind ≠ .endOfFile) : text ≠ [] := by
  rintro rfl
  obtain ⟨longer, hlonger, _⟩ :=
    Pattern.exists_longest kind.pattern_proper h (List.prefix_refl [])
  exact longest_ne_nil hk hlonger (List.prefix_nil.1 (Pattern.longest_isPrefix hlonger))

/-- The kind of the lowest precedence whose texts can start with a character. -/
def openedBy (c : Char) : TokenKind :=
  if c.isUpper then .identifier
  else if c.isLower then .smallIdentifier
  else if c.isDigit || c == '-' then .integer
  else if c == '/' then .path
  else if c == '"' then .quoted
  else
    match Punctuation.all.find? fun p => p.text.toList.head? == some c with
    | some p => .punctuation p
    | none => .endOfFile

theorem eq_openedBy {kind : TokenKind} {c : Char} (hr : kind.rank = 1)
    (h : kind.opens c = true) : kind = openedBy c := by
  cases kind with
  | marker | method | primitive | foreignKey | qualifiedName | endOfFile => simp [rank] at hr
  | identifier =>
    have hc : c.isUpper = true := h
    simp [openedBy, hc]
  | smallIdentifier =>
    have hc : c.isLower = true := h
    simp [openedBy, hc, isUpper_of_isLower hc]
  | path => obtain rfl : c = '/' := by simpa [opens] using h
            decide
  | quoted => obtain rfl : c = '"' := by simpa [opens] using h
              decide
  | integer =>
    have hc : c = '-' ∨ c.isDigit = true := by simpa [opens] using h
    rcases hc with rfl | hc
    · decide
    · obtain ⟨hu, hl⟩ := not_letter_of_isDigit hc
      simp [openedBy, hc, hu, hl]
  | punctuation p =>
    cases p <;> obtain rfl : _ = c := by simpa [opens, Punctuation.text] using h
    all_goals decide

/-- Kinds of equal rank do not share a text. -/
theorem eq_of_rank_eq {kind other : TokenKind} {text : List Char} (hr : kind.rank = other.rank)
    (h : kind.Matches text) (ho : other.Matches text) : kind = other := by
  cases kind with
  | marker m =>
    cases other with
    | marker m' =>
      have heq : m.keyword.toList = m'.keyword.toList := (mem_literal.1 h).symm.trans ho
      cases m <;> cases m' <;> first | rfl | simp [Marker.keyword] at heq
    | _ => simp [rank] at hr
  | method m =>
    cases other with
    | method m' =>
      have heq : m.keyword.toList = m'.keyword.toList := (mem_literal.1 h).symm.trans ho
      cases m <;> cases m' <;> first | rfl | simp [Method.keyword] at heq
    | _ => simp [rank] at hr
  | primitive p =>
    cases other with
    | primitive p' =>
      have heq : p.keyword.toList = p'.keyword.toList := (mem_literal.1 h).symm.trans ho
      cases p <;> cases p' <;> first | rfl | simp [Primitive.keyword] at heq
    | _ => simp [rank] at hr
  | foreignKey | qualifiedName | endOfFile =>
    cases other <;> first | rfl | simp [rank] at hr
  | identifier | smallIdentifier | path | quoted | integer | punctuation =>
    -- The weakest kinds differ in their first characters.
    obtain ⟨c, tail, rfl⟩ := List.exists_cons_of_ne_nil (h.ne_nil (by simp))
    exact (eq_openedBy rfl h.opens).trans (eq_openedBy hr.symm ho.opens).symm

/-! ## The token at the front -/

theorem mem_byPriority {kind : TokenKind} (h : kind ≠ .endOfFile) : kind ∈ byPriority := by
  cases kind with
  | marker m => cases m <;> decide
  | method m => cases m <;> decide
  | primitive p => cases p <;> decide
  | punctuation p => cases p <;> decide
  | endOfFile => exact absurd rfl h
  | foreignKey | qualifiedName | identifier | smallIdentifier | path | quoted | integer => decide

theorem endOfFile_notMem_byPriority : endOfFile ∉ byPriority := by decide

/-- The list of kinds goes down in rank. -/
theorem byPriority_pairwise : byPriority.Pairwise fun kind later => later.rank ≤ kind.rank := by
  decide

end TokenKind

namespace Candidate

/-- The first of the longest candidates: the earlier ones are shorter, the later ones not longer. -/
theorem firstLongest_spec {candidates : List Candidate} {best : Candidate}
    (h : firstLongest candidates = some best) :
    ∃ earlier later, candidates = earlier ++ best :: later ∧
      (∀ other ∈ earlier, other.2.length < best.2.length) ∧
      ∀ other ∈ later, other.2.length ≤ best.2.length := by
  induction candidates generalizing best with
  | nil => simp [firstLongest] at h
  | cons candidate others ih =>
    rw [firstLongest] at h
    split at h
    · next hnone =>
      obtain rfl := Option.some.inj h
      cases others with
      | nil => exact ⟨[], [], rfl, by simp, by simp⟩
      | cons other others =>
        rw [firstLongest] at hnone
        split at hnone
        · simp at hnone
        · split at hnone <;> simp at hnone
    · next other hsome =>
      obtain ⟨earlier, later, rfl, he, hl⟩ := ih hsome
      split at h
      · next hlt =>
        obtain rfl := Option.some.inj h
        exact ⟨candidate :: earlier, later, rfl, by simpa [hlt] using he, hl⟩
      · next hle =>
        obtain rfl := Option.some.inj h
        refine ⟨[], _, rfl, by simp, ?_⟩
        intro x hx
        rcases List.mem_append.1 hx with hx | hx
        · have := he x hx; omega
        · rcases List.mem_cons.1 hx with rfl | hx
          · omega
          · have := hl x hx; omega

theorem firstLongest_eq_none_iff {candidates : List Candidate} :
    firstLongest candidates = none ↔ candidates = [] := by
  cases candidates with
  | nil => simp [firstLongest]
  | cons candidate others =>
    rw [firstLongest]
    split
    · simp
    · split <;> simp

theorem all_pairwise (source : List Char) :
    (all source).Pairwise fun candidate later => later.1.rank ≤ candidate.1.rank := by
  rw [all, List.pairwise_filterMap]
  refine TokenKind.byPriority_pairwise.imp ?_
  intro kind later hle x hx y hy
  obtain ⟨_, _, rfl⟩ := Option.map_eq_some_iff.1 hx
  obtain ⟨_, _, rfl⟩ := Option.map_eq_some_iff.1 hy
  exact hle

/-- A text at the front that fits a kind is matched by a candidate of that kind. -/
theorem exists_of_matches {source text : List Char} {kind : TokenKind} (hk : kind ≠ .endOfFile)
    (hm : kind.Matches text) (hp : text <+: source) :
    ∃ longer, (kind, longer) ∈ all source ∧ text.length ≤ longer.length := by
  obtain ⟨longer, hlonger, hle⟩ := Pattern.exists_longest kind.pattern_proper hm hp
  exact ⟨longer, mem_all.2 ⟨TokenKind.mem_byPriority hk, hlonger⟩, hle⟩

end Candidate

/-- A text stands at the front of a source, and no text there that fits any kind is longer. -/
structure LongestAt (source text : List Char) : Prop where
  /-- The text stands at the front. -/
  isPrefix : text <+: source
  /-- All texts there that fit are at most as long. -/
  length_le : ∀ (kind : TokenKind) (other : List Char), kind.Matches other → other <+: source →
    other.length ≤ text.length

theorem LongestAt.unique {source text other : List Char} {kind otherKind : TokenKind}
    (h : LongestAt source text) (ho : LongestAt source other) (hm : kind.Matches text)
    (hmo : otherKind.Matches other) : text = other := by
  have hle := h.length_le otherKind other hmo ho.isPrefix
  have hge := ho.length_le kind text hm h.isPrefix
  exact (List.prefix_of_prefix_length_le h.isPrefix ho.isPrefix hge).eq_of_length_le hle

namespace Candidate

theorem firstLongest_all {source : List Char} {best : Candidate}
    (h : firstLongest (all source) = some best) :
    LongestAt source best.2 ∧ best.1.HighestFor best.2 ∧ best.2 ≠ [] := by
  obtain ⟨hmem, hlongest⟩ := mem_all.1 (firstLongest_mem h)
  obtain ⟨earlier, later, hsplit, hearlier, hlater⟩ := firstLongest_spec h
  have hbest : best.1 ≠ .endOfFile := by
    intro heq
    exact TokenKind.endOfFile_notMem_byPriority (heq ▸ hmem)
  have hne : best.2 ≠ [] := TokenKind.longest_ne_nil hbest hlongest
  have hlocate : ∀ (kind : TokenKind) (text : List Char), kind ≠ .endOfFile → kind.Matches text →
      text <+: source → ∃ longer, text.length ≤ longer.length ∧
        ((kind, longer) ∈ earlier ∨ (kind, longer) = best ∨ (kind, longer) ∈ later) := by
    intro kind text hk hm hp
    obtain ⟨longer, hin, hle⟩ := exists_of_matches hk hm hp
    rw [hsplit, List.mem_append, List.mem_cons] at hin
    exact ⟨longer, hle, hin⟩
  refine ⟨⟨Pattern.longest_isPrefix hlongest, ?_⟩,
    ⟨Pattern.longest_mem best.1.pattern_proper hlongest, ?_⟩, hne⟩
  · intro kind text hm hp
    by_cases hk : kind = .endOfFile
    · subst hk
      obtain rfl := mem_literal.1 hm
      simp
    · obtain ⟨longer, hle, hin | hin | hin⟩ := hlocate kind text hk hm hp
      · have := hearlier _ hin
        exact le_trans hle (le_of_lt this)
      · exact hin ▸ hle
      · exact le_trans hle (hlater _ hin)
  · intro other hm ho
    have hother : other ≠ .endOfFile := by
      rintro rfl
      exact hne (mem_literal.1 hm)
    obtain ⟨longer, hle, hin | hin | hin⟩ :=
      hlocate other best.2 hother hm (Pattern.longest_isPrefix hlongest)
    · have := hearlier _ hin
      exact absurd hle (not_le.2 this)
    · exact absurd (congrArg Prod.fst hin) ho
    · have hrank : other.rank ≤ best.1.rank := by
        have hpair := all_pairwise source
        rw [hsplit, List.pairwise_append, List.pairwise_cons] at hpair
        exact hpair.2.1.1 _ hin
      refine lt_of_le_of_ne hrank fun heq => ho ?_
      exact TokenKind.eq_of_rank_eq heq hm (Pattern.longest_mem best.1.pattern_proper hlongest)

/-- The highest kind of the longest text is the first longest candidate. -/
theorem firstLongest_all_eq {source text : List Char} {kind : TokenKind}
    (hl : LongestAt source text) (hk : kind.HighestFor text) (hne : text ≠ []) :
    firstLongest (all source) = some (kind, text) := by
  have hkind : kind ≠ .endOfFile := by
    rintro rfl
    exact hne (mem_literal.1 hk.fits)
  obtain ⟨longer, hin, _⟩ := exists_of_matches hkind hk.fits hl.isPrefix
  obtain ⟨best, hbest⟩ : ∃ best, firstLongest (all source) = some best := by
    rw [← Option.ne_none_iff_exists']
    intro hnone
    rw [firstLongest_eq_none_iff.1 hnone] at hin
    simp at hin
  obtain ⟨hl', hk', _⟩ := firstLongest_all hbest
  have htext : best.2 = text := hl'.unique hl hk'.fits hk.fits
  have hkind : best.1 = kind := hk'.unique (htext ▸ hk)
  rw [hbest, ← htext, ← hkind]

end Candidate

theorem frontToken_eq_some_iff {source text : List Char} {kind : TokenKind} :
    frontToken source = some (kind, text) ↔
      ∃ best : TokenKind, best.HighestFor text ∧ LongestAt source text ∧ text ≠ [] ∧
        kind = best.before (source.drop text.length) := by
  constructor
  · intro h
    obtain ⟨best, hbest, heq⟩ := Option.map_eq_some_iff.1 h
    obtain ⟨rfl, rfl⟩ := Prod.mk.inj heq
    obtain ⟨hl, hk, hne⟩ := Candidate.firstLongest_all hbest
    exact ⟨best.1, hk, hl, hne, rfl⟩
  · rintro ⟨best, hk, hl, hne, rfl⟩
    simp [frontToken, Candidate.firstLongest_all_eq hl hk hne]

theorem frontToken_eq_none_iff {source : List Char} :
    frontToken source = none ↔
      ∀ (kind : TokenKind) (text : List Char), text <+: source → text ≠ [] →
        ¬ kind.Matches text := by
  rw [frontToken, Option.map_eq_none_iff, Candidate.firstLongest_eq_none_iff]
  constructor
  · intro h kind text hp hne hm
    have hk : kind ≠ .endOfFile := by
      rintro rfl
      exact hne (mem_literal.1 hm)
    obtain ⟨longer, hin, _⟩ := Candidate.exists_of_matches hk hm hp
    simp [h] at hin
  · intro h
    rw [List.eq_nil_iff_forall_not_mem]
    rintro ⟨kind, text⟩ hin
    obtain ⟨hk, hlongest⟩ := Candidate.mem_all.1 hin
    have hkind : kind ≠ .endOfFile := by
      rintro rfl
      exact TokenKind.endOfFile_notMem_byPriority hk
    exact h kind text (Pattern.longest_isPrefix hlongest)
      (TokenKind.longest_ne_nil hkind hlongest) (Pattern.longest_mem kind.pattern_proper hlongest)

end SyslModel
