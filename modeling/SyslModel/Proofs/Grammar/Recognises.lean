import SyslModel.Grammar.Parser
import SyslModel.Proofs.Grammar.Reads
/-!
# Parsers that recognise a phrase

A parser recognises a phrase if it reads exactly what the phrase derives and yields what the
derivation means.  `Recognises` says this in three parts.  The parser is sound: what it reads has a
derivation.  It is complete: what has a derivation is read, provided that what follows does not go
on with the phrase.  And under the same proviso a stream begins with one derivation at most.

There is one lemma for each way in which parsers are put together, so a rule is proved by putting
lemmas together in the same way.
-/

namespace SyslModel

open SyslModel.Parser (collect)

variable {α β : Type} {a b e : Phrase} {F G : Stream → Prop}

/-- Without an alternative left, nothing is read. -/
theorem Parser.take_none_ne_ok (expected : Expectation) (rule : Rule) (s : Stream) (x : α)
    (rest : Stream) : take expected (fun _ => none) rule s ≠ .ok x rest := by
  intro h
  obtain ⟨t, others, -, hchoose, -⟩ := take_ok h
  cases hchoose

/-- What may follow a phrase that ends by itself. -/
def Anything : Stream → Prop := fun _ => True

/-- What may follow a phrase that goes on with one kind of token. -/
def Avoids (kind : TokenKind) : Stream → Prop := fun s => s.kindAt 0 ≠ kind

/-- The parser reads exactly the tokens of the derivations of a phrase, and yields their values. -/
structure Recognises (p : Parser α) (e : Phrase) (value : Derivation e → Stream → α)
    (follow : Stream → Prop) : Prop where
  /-- What the parser reads has a derivation. -/
  sound : ∀ {rule : Rule} {s : Stream} {v : α} {rest : Stream}, p rule s = .ok v rest →
    ∃ d : Derivation e, s.Reads d.tokens rest ∧ v = value d rest
  /-- What has a derivation is read. -/
  complete : ∀ {rule : Rule} {s rest : Stream} (d : Derivation e), s.Reads d.tokens rest →
    follow rest → p rule s = .ok (value d rest) rest
  /-- There is one derivation at most at the front of a stream. -/
  unique : ∀ {s rest rest' : Stream} {d d' : Derivation e}, s.Reads d.tokens rest → follow rest →
    s.Reads d'.tokens rest' → follow rest' → d = d'

namespace Recognises

/-! ## Steps -/

theorem congr {p : Parser α} {v w : Derivation e → Stream → α} (h : Recognises p e v F)
    (hvw : ∀ d rest, v d rest = w d rest) : Recognises p e w F := by
  obtain rfl : v = w := funext fun d => funext fun rest => hvw d rest
  exact h

/-- A parser that recognises a phrase does so in front of less. -/
theorem mono {p : Parser α} {v : Derivation e → Stream → α} (h : Recognises p e v G)
    (hFG : ∀ s, F s → G s) : Recognises p e v F where
  sound := h.sound
  complete := fun d hread hf => h.complete d hread (hFG _ hf)
  unique := fun hread hf hread' hf' => h.unique hread (hFG _ hf) hread' (hFG _ hf')

theorem within {p : Parser α} {v : Derivation e → Stream → α} (rule : Rule)
    (h : Recognises p e v F) : Recognises (Parser.within rule p) e v F where
  sound := fun hp => h.sound hp
  complete := fun d hread hf => h.complete d hread hf
  unique := h.unique

/-- Taking one token, for a phrase that derives single tokens. -/
theorem take {expected : Expectation} {choose : Token → Option α} {fits : Token → Prop}
    {v : Derivation e → α} (he : e.IsToken fits) (hfits : ∀ t x, choose t = some x → fits t)
    (hvalue : ∀ (d : Derivation e) t, d.tokens = [t] → choose t = some (v d)) :
    Recognises (Parser.take expected choose) e (fun d _ => v d) Anything where
  sound := by
    intro rule s x rest hp
    obtain ⟨t, others, hahead, hchoose, rfl⟩ := Parser.take_ok hp
    obtain ⟨d, hd⟩ := he.derived t (hfits t x hchoose)
    refine ⟨d, ?_, Option.some.inj (hchoose.symm.trans (hvalue d t hd))⟩
    rw [hd]
    exact ⟨hahead, rfl, rfl⟩
  complete := by
    intro rule s rest d hread _
    obtain ⟨t, ht, -⟩ := he.single d
    rw [ht] at hread
    have hrest : rest = { s with consumed := t :: s.consumed, ahead := rest.ahead } :=
      hread.unique ⟨hread.ahead, rfl, rfl⟩
    rw [Parser.take, hread.ahead]
    simp only [List.singleton_append, hvalue d t ht]
    rw [← hrest]
  unique := by
    intro s rest rest' d d' hread _ hread' _
    obtain ⟨t, ht, -⟩ := he.single d
    obtain ⟨t', ht', -⟩ := he.single d'
    apply he.unique
    have h := hread.ahead.symm.trans hread'.ahead
    rw [ht, ht'] at h ⊢
    rw [(List.cons.inj h).1]

/-- Reading with one parser and then with another one. -/
theorem bind {p : Parser α} {q : α → Parser β} {u : Derivation a → α}
    {v : α → Derivation b → Stream → β} (hp : Recognises p a (fun d _ => u d) G)
    (hq : ∀ x, Recognises (q x) b (v x) F)
    (hG : ∀ {s rest : Stream} (d : Derivation b), s.Reads d.tokens rest → F rest → G s) :
    Recognises (p >>= q) (.seq a b) (fun d rest => v (u d.1) d.2 rest) F where
  sound := by
    intro rule s y rest h
    obtain ⟨x, middle, hx, hy⟩ := Parser.bind_ok h
    obtain ⟨d, hd, rfl⟩ := hp.sound hx
    obtain ⟨d', hd', rfl⟩ := (hq _).sound hy
    exact ⟨(d, d'), hd.append hd', rfl⟩
  complete := by
    intro rule s rest d hread hf
    obtain ⟨middle, h, h'⟩ := Stream.Reads.append_iff.1 hread
    rw [Parser.bind_apply, hp.complete d.1 h (hG d.2 h' hf)]
    exact (hq _).complete d.2 h' hf
  unique := by
    intro s rest rest' d d' hread hf hread' hf'
    obtain ⟨middle, h₁, h₂⟩ := Stream.Reads.append_iff.1 hread
    obtain ⟨middle', h₁', h₂'⟩ := Stream.Reads.append_iff.1 hread'
    have hfirst : d.1 = d'.1 := hp.unique h₁ (hG d.2 h₂ hf) h₁' (hG d'.2 h₂' hf')
    rw [hfirst] at h₁
    obtain rfl := h₁.unique h₁'
    exact Prod.ext hfirst ((hq (u d.1)).unique h₂ hf h₂' hf')

/-- A step behind a parser that reads nothing more. -/
theorem finish {p : Parser α} {q : α → Parser β} {u : Derivation e → α} {k : α → Stream → β}
    (hp : Recognises p e (fun d _ => u d) F) (hq : ∀ x rule s, q x rule s = .ok (k x s) s) :
    Recognises (p >>= q) e (fun d rest => k (u d) rest) F where
  sound := by
    intro rule s y rest h
    obtain ⟨x, middle, hx, hy⟩ := Parser.bind_ok h
    rw [hq] at hy
    obtain ⟨rfl, rfl⟩ := Outcome.ok.inj hy
    obtain ⟨d, hd, rfl⟩ := hp.sound hx
    exact ⟨d, hd, rfl⟩
  complete := by
    intro rule s rest d hread hf
    rw [Parser.bind_apply, hp.complete d hread hf]
    exact hq _ _ _
  unique := hp.unique

/-- A parser that first asks where it starts. -/
theorem start {q : Span → Parser α} {v : Span → Derivation e → Stream → α} {w : Derivation e → α}
    (hq : ∀ first, Recognises (q first) e (v first) F)
    (hw : ∀ {s rest : Stream} (d : Derivation e), s.Reads d.tokens rest →
      v s.current.span d rest = w d) :
    Recognises (Parser.start >>= q) e (fun d _ => w d) F where
  sound := by
    intro rule s x rest h
    obtain ⟨d, hd, rfl⟩ := (hq s.current.span).sound h
    exact ⟨d, hd, hw d hd⟩
  complete := by
    intro rule s rest d hread hf
    rw [← hw d hread]
    exact (hq s.current.span).complete d hread hf
  unique := (hq Span.origin).unique

/-! ## Choices -/

/-- A choice between two parsers by what stands ahead. -/
theorem branch {test : Stream → Bool} {yes no : Parser α} {u : Derivation a → Stream → α}
    {v : Derivation b → Stream → α} (hyes : Recognises yes a u F) (hno : Recognises no b v F)
    (htest : ∀ {s rest : Stream} (d : Derivation a), s.Reads d.tokens rest → F rest →
      test s = true)
    (hfail : ∀ {s rest : Stream} (d : Derivation b), s.Reads d.tokens rest → F rest →
      test s = false) :
    Recognises (Parser.branch test yes no) (.either a b)
      (fun d rest => d.elim (fun d => u d rest) fun d => v d rest) F where
  sound := by
    intro rule s x rest h
    unfold Parser.branch at h
    split at h
    · obtain ⟨d, hd, rfl⟩ := hyes.sound h
      exact ⟨.inl d, hd, rfl⟩
    · obtain ⟨d, hd, rfl⟩ := hno.sound h
      exact ⟨.inr d, hd, rfl⟩
  complete := by
    intro rule s rest d hread hf
    unfold Parser.branch
    cases d with
    | inl d =>
      rw [if_pos (htest d hread hf)]
      exact hyes.complete d hread hf
    | inr d =>
      rw [if_neg (by simp [hfail d hread hf])]
      exact hno.complete d hread hf
  unique := by
    intro s rest rest' d d' hread hf hread' hf'
    cases d with
    | inl d =>
      cases d' with
      | inl d' => exact congrArg Sum.inl (hyes.unique hread hf hread' hf')
      | inr d' =>
        have := htest d hread hf
        simp [hfail d' hread' hf'] at this
    | inr d =>
      cases d' with
      | inl d' =>
        have := htest d' hread' hf'
        simp [hfail d hread hf] at this
      | inr d' => exact congrArg Sum.inr (hno.unique hread hf hread' hf')

/-- A choice between a parser that recognises a phrase and one that always fails. -/
theorem orFail {t : Stream → Bool} {yes no : Parser α} {u : Derivation e → Stream → α}
    (hyes : Recognises yes e u F) (hno : ∀ rule s x rest, no rule s ≠ .ok x rest)
    (htest : ∀ {s rest : Stream} (d : Derivation e), s.Reads d.tokens rest → F rest →
      t s = true) : Recognises (Parser.branch t yes no) e u F where
  sound := by
    intro rule s x rest h
    unfold Parser.branch at h
    split at h
    · exact hyes.sound h
    · exact absurd h (hno rule s x rest)
  complete := by
    intro rule s rest d hread hf
    rw [Parser.branch, if_pos (htest d hread hf)]
    exact hyes.complete d hread hf
  unique := hyes.unique

/-- A phrase that may be left out, read only if a test finds its start. -/
theorem option {t : Stream → Bool} {p : Parser α} {v : Derivation e → Stream → α} {x : α}
    (hp : Recognises p e v F)
    (htest : ∀ {s rest : Stream} (d : Derivation e), s.Reads d.tokens rest → F rest → t s = true)
    (hfail : ∀ {s : Stream}, F s → t s = false) :
    Recognises (Parser.branch t p (pure x)) (.option e)
      (fun d rest => d.elim x fun d => v d rest) F where
  sound := by
    intro rule s y rest h
    unfold Parser.branch at h
    split at h
    · obtain ⟨d, hd, rfl⟩ := hp.sound h
      exact ⟨some d, hd, rfl⟩
    · obtain ⟨rfl, rfl⟩ := Outcome.ok.inj h
      exact ⟨none, .refl s, rfl⟩
  complete := by
    intro rule s rest d hread hf
    unfold Parser.branch
    cases d with
    | none =>
      obtain rfl := Stream.Reads.nil_iff.1 hread
      rw [if_neg (by simp [hfail hf])]
      rfl
    | some d =>
      rw [if_pos (htest d hread hf)]
      exact hp.complete d hread hf
  unique := by
    intro s rest rest' d d' hread hf hread' hf'
    cases d with
    | none =>
      obtain rfl := Stream.Reads.nil_iff.1 hread
      cases d' with
      | none => rfl
      | some d' =>
        have := htest d' hread' hf'
        simp [hfail hf] at this
    | some d =>
      cases d' with
      | none =>
        obtain rfl := Stream.Reads.nil_iff.1 hread'
        have := htest d hread hf
        simp [hfail hf'] at this
      | some d' => exact congrArg some (hp.unique hread hf hread' hf')

/-- A phrase that may be left out, read unless a test finds what follows it. -/
theorem optionElse {t : Stream → Bool} {p : Parser α} {v : Derivation e → Stream → α} {x : α}
    (hp : Recognises p e v F)
    (htest : ∀ {s rest : Stream} (d : Derivation e), s.Reads d.tokens rest → F rest →
      t s = false)
    (hfail : ∀ {s : Stream}, F s → t s = true) :
    Recognises (Parser.branch t (pure x) p) (.option e)
      (fun d rest => d.elim x fun d => v d rest) F := by
  have hswap : Parser.branch t (pure x) p
      = Parser.branch (fun s => !t s) p (pure x) := by
    funext rule s
    cases h : t s <;> simp [Parser.branch, h]
  rw [hswap]
  refine hp.option ?_ ?_
  · intro s rest d hread hf
    simp [htest d hread hf]
  · intro s hf
    simp [hfail hf]

/-! ## Repetition -/

/-- What a repetition has to know of its items: each has a token, shows itself to the test, and may
stand where another item ends; and the test finds none where the repetition ends. -/
structure Repeats (more : Stream → Bool) (e : Phrase) (itemFollow follow : Stream → Prop) :
    Prop where
  /-- An item has a token. -/
  solid : ∀ d : Derivation e, d.tokens ≠ []
  /-- The test finds an item. -/
  found : ∀ {s rest : Stream} (d : Derivation e), s.Reads d.tokens rest → itemFollow rest →
    more s = true
  /-- An item may follow an item. -/
  again : ∀ {s rest : Stream} (d : Derivation e), s.Reads d.tokens rest → itemFollow rest →
    itemFollow s
  /-- What follows the repetition may follow an item. -/
  last : ∀ {s : Stream}, follow s → itemFollow s
  /-- The test finds no item behind the repetition. -/
  stop : ∀ {s : Stream}, follow s → more s = false

section Repetition

variable {more : Stream → Bool} {item : Parser α} {v : Derivation e → α}

/-- The items that are complete have derivations, which derive what was read of them. -/
theorem collect_sound (hp : Recognises item e (fun d _ => v d) G) (rule : Rule) (s : Stream) :
    ∃ (ds : Derivation (.many e)) (middle : Stream), (collect more item rule s).items = ds.map v ∧
      s.Reads ds.tokens middle ∧
      ((collect more item rule s).failure = none → middle = (collect more item rule s).rest) := by
  fun_induction collect more item rule s with
  | case1 s hmore failure rest hitem => exact ⟨[], s, rfl, .refl s, by simp⟩
  | case2 s hmore x rest hitem hlt others ih =>
    obtain ⟨d, hd, rfl⟩ := hp.sound hitem
    obtain ⟨ds, middle, hitems, hread, hrest⟩ := ih
    exact ⟨d :: ds, middle, congrArg _ hitems, hd.append hread, hrest⟩
  | case3 s hmore x rest hitem hge =>
    obtain ⟨d, hd, rfl⟩ := hp.sound hitem
    refine ⟨[d], rest, rfl, ?_, fun _ => rfl⟩
    rw [Derivation.tokens_cons, Derivation.tokens_nil, List.append_nil]
    exact hd
  | case4 s hmore => exact ⟨[], s, rfl, .refl s, fun _ => rfl⟩

/-- A repetition of items that have tokens ends where the test finds none. -/
theorem collect_stop (hp : Recognises item e (fun d _ => v d) G)
    (hsolid : ∀ d : Derivation e, d.tokens ≠ []) (rule : Rule) (s : Stream) :
    (collect more item rule s).failure = none → more (collect more item rule s).rest = false := by
  fun_induction collect more item rule s with
  | case1 s hmore failure rest hitem => simp
  | case2 s hmore x rest hitem hlt others ih => exact ih
  | case3 s hmore x rest hitem hge =>
    obtain ⟨d, hd, rfl⟩ := hp.sound hitem
    exact absurd (hd.length_lt (hsolid d)) hge
  | case4 s hmore => exact fun _ => by simpa using hmore

/-- In front of more items, or of what follows them, an item may end. -/
theorem Repeats.follow_of_reads (hr : Repeats more e G F) {s rest : Stream}
    (ds : Derivation (.many e)) (hread : s.Reads ds.tokens rest) (hf : F rest) : G s := by
  induction ds generalizing s with
  | nil =>
    obtain rfl := Stream.Reads.nil_iff.1 hread
    exact hr.last hf
  | cons d ds ih =>
    obtain ⟨middle, h, h'⟩ := Stream.Reads.append_iff.1 hread
    exact hr.again d h (ih h')

theorem collect_complete (hp : Recognises item e (fun d _ => v d) G) (hr : Repeats more e G F)
    (rule : Rule) {s rest : Stream} (ds : Derivation (.many e)) (hread : s.Reads ds.tokens rest)
    (hf : F rest) : collect more item rule s = ⟨ds.map v, none, rest⟩ := by
  induction ds generalizing s with
  | nil =>
    obtain rfl := Stream.Reads.nil_iff.1 hread
    rw [collect, if_neg (by simp [hr.stop hf])]
    rfl
  | cons d ds ih =>
    obtain ⟨middle, h, h'⟩ := Stream.Reads.append_iff.1 hread
    have hmiddle := hr.follow_of_reads ds h' hf
    rw [collect, if_pos (hr.found d h hmiddle), hp.complete d h hmiddle]
    simp only [if_pos (h.length_lt (hr.solid d)), ih h']
    rfl

theorem many_unique (hp : Recognises item e (fun d _ => v d) G) (hr : Repeats more e G F)
    {s rest rest' : Stream} (ds ds' : Derivation (.many e)) (hread : s.Reads ds.tokens rest)
    (hf : F rest) (hread' : s.Reads ds'.tokens rest') (hf' : F rest') : ds = ds' := by
  induction ds generalizing s ds' with
  | nil =>
    obtain rfl := Stream.Reads.nil_iff.1 hread
    cases ds' with
    | nil => rfl
    | cons d' ds' =>
      obtain ⟨middle, h, h'⟩ := Stream.Reads.append_iff.1 hread'
      have := hr.found d' h (hr.follow_of_reads ds' h' hf')
      simp [hr.stop hf] at this
  | cons d ds ih =>
    obtain ⟨middle, h, h'⟩ := Stream.Reads.append_iff.1 hread
    have hmiddle := hr.follow_of_reads ds h' hf
    cases ds' with
    | nil =>
      obtain rfl := Stream.Reads.nil_iff.1 hread'
      have := hr.found d h hmiddle
      simp [hr.stop hf'] at this
    | cons d' ds' =>
      obtain ⟨middle', k, k'⟩ := Stream.Reads.append_iff.1 hread'
      obtain rfl := hp.unique h hmiddle k (hr.follow_of_reads ds' k' hf')
      obtain rfl := h.unique k
      rw [ih ds' h' k']

/-- Reading items as long as a test finds one. -/
theorem repeatWhile (hp : Recognises item e (fun d _ => v d) G) (hr : Repeats more e G F) :
    Recognises (Parser.repeatWhile more item) (.many e) (fun ds _ => ds.map v) F where
  sound := by
    intro rule s x rest h
    obtain ⟨ds, middle, hitems, hread, hmiddle⟩ := @collect_sound _ _ _ more _ _ hp rule s
    simp only [Parser.repeatWhile] at h
    split at h
    · next hnone =>
      obtain ⟨rfl, rfl⟩ := Outcome.ok.inj h
      obtain rfl := hmiddle hnone
      exact ⟨ds, hread, hitems⟩
    · simp at h
  complete := by
    intro rule s rest ds hread hf
    rw [Parser.repeatWhile, collect_complete hp hr rule ds hread hf]
  unique := fun hread hf hread' hf' => many_unique hp hr _ _ hread hf hread' hf'

end Repetition
end Recognises
end SyslModel
