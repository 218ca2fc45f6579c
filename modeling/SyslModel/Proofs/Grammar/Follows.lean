import SyslModel.Proofs.Grammar.Production
import SyslModel.Proofs.Grammar.Recognises
/-!
# Parsers that follow a phrase

A parser follows a phrase if it goes through it from left to right and no further than it must.
`Follows` says this in two parts.  If the parser yields a value, it has read a derivation.  If it
fails, what it has read up to the token that it reports is viable: something could have stood there
that completes the phrase.

In both cases the outcome hangs on what was read and on the next three tokens, the one at the place
and two behind it.  That is as far as the grammar ever looks ahead, so another stream that agrees up
to there has the same outcome.

As with `Recognises` there is one lemma for each way in which parsers are put together.
-/

namespace SyslModel

open SyslModel.Parser (collect)

variable {α β : Type} {a b e : Phrase}

/-! ## Streams that agree -/

/-- Two streams came past the same tokens and have the same next ones ahead, so many of them. -/
structure Stream.Agree (n : Nat) (s s' : Stream) : Prop where
  /-- The same tokens are consumed. -/
  consumed : s'.consumed = s.consumed
  /-- The next tokens are the same. -/
  ahead : ∃ next left left', next.length = n ∧ s.ahead = next ++ left ∧ s'.ahead = next ++ left'

namespace Stream.Agree

variable {n m : Nat} {s s' rest rest' : Stream} {read : List Token}

theorem mono (h : s.Agree m s') (hle : n ≤ m) : s.Agree n s' := by
  obtain ⟨next, left, left', rfl, hs, hs'⟩ := h.ahead
  refine ⟨h.consumed, next.take n, next.drop n ++ left, next.drop n ++ left', ?_, ?_, ?_⟩
  · exact List.length_take_of_le hle
  · rw [hs, ← List.append_assoc, List.take_append_drop]
  · rw [hs', ← List.append_assoc, List.take_append_drop]

/-- If the same tokens are read and then the streams agree, they agreed in front of them. -/
theorem before (h : rest.Agree n rest') (hs : s.Reads read rest) (hs' : s'.Reads read rest') :
    s.Agree (read.length + n) s' := by
  obtain ⟨next, left, left', rfl, hleft, hleft'⟩ := h.ahead
  have hconsumed := h.consumed
  rw [hs.consumed, hs'.consumed] at hconsumed
  refine ⟨List.append_cancel_left hconsumed, read ++ next, left, left', ?_, ?_, ?_⟩
  · exact List.length_append
  · rw [hs.ahead, hleft, List.append_assoc]
  · rw [hs'.ahead, hleft', List.append_assoc]

theorem kindAt (h : s.Agree n s') {distance : Nat} (hlt : distance < n) :
    s'.kindAt distance = s.kindAt distance := by
  obtain ⟨next, left, left', rfl, hs, hs'⟩ := h.ahead
  rw [Stream.kindAt, Stream.kindAt, hs, hs', List.getElem?_append_left hlt,
    List.getElem?_append_left hlt]

theorem isAt (h : s.Agree 3 s') (kind : TokenKind) : s'.isAt kind = s.isAt kind := by
  rw [Stream.isAt, Stream.isAt, h.kindAt (by decide)]

/-- Streams that agree on some tokens are at the same one, and at none of them is the end. -/
theorem exists_cons (h : s.Agree (n + 1) s') :
    ∃ t others others', s.ahead = t :: others ∧ s'.ahead = t :: others' := by
  obtain ⟨_ | ⟨t, next⟩, left, left', hlength, hs, hs'⟩ := h.ahead
  · cases hlength
  · exact ⟨t, next ++ left, next ++ left', hs, hs'⟩

theorem current (h : s.Agree 3 s') : s'.current = s.current := by
  obtain ⟨t, others, others', hs, hs'⟩ := h.exists_cons
  rw [Stream.current, Stream.current, hs, hs']
  rfl

theorem atEnd (h : s.Agree 3 s') : s'.atEnd = s.atEnd := by
  obtain ⟨t, others, others', hs, hs'⟩ := h.exists_cons
  rw [Stream.atEnd, Stream.atEnd, hs, hs']
  rfl

theorem spanFrom (h : s.Agree n s') (first : Span) : s'.spanFrom first = s.spanFrom first := by
  rw [Stream.spanFrom, Stream.spanFrom, h.consumed]

end Stream.Agree

/-- A test that looks at the next three tokens at most. -/
def Near (t : Stream → Bool) : Prop := ∀ {s s' : Stream}, s.Agree 3 s' → t s' = t s

theorem near_isAt (kind : TokenKind) : Near (·.isAt kind) := fun h => h.isAt kind

/-! ## Where a parser stops -/

/-- How many tokens were consumed from the reported one on: an integer is reported after it was
taken. -/
def SyntaxError.passed : SyntaxError → Nat
  | .integerOutOfRange _ => 1
  | _ => 0

/-- How many tokens behind the place that a failing parser came to its outcome depends on.  Counted
from the reported token it is this one and the two behind it. -/
def SyntaxError.reach (error : SyntaxError) : Nat := 3 - error.passed

/-- How reading within a phrase stops: what was read, up to the token that is reported, is viable
for the phrase. -/
inductive Stops (e : Phrase) : List Token → SyntaxError → Stream → Prop
  /-- The token at the place is none that was expected. -/
  | mismatch {read : List Token} {rest : Stream} (expected : Expectation) : e.Viable read →
      Stops e read (.mismatch expected rest.current) rest
  /-- The phrase is complete in front of the token at the place. -/
  | trailing {read : List Token} {rest : Stream} (rule : Rule) : e.Viable read →
      Stops e read (.trailingInput rule rest.current) rest
  /-- The token right before the place is an integer that does not fit. -/
  | integer {before : List Token} {rest : Stream} (literal : Token) : e.Viable before →
      Stops e (before ++ [literal]) (.integerOutOfRange literal) rest

namespace Stops

variable {read front : List Token} {error : SyntaxError} {s s' rest rest' : Stream}

/-- Reading stops within a larger phrase, behind tokens of that phrase. -/
theorem behind (h : Stops a read error rest)
    (hviable : ∀ tokens, a.Viable tokens → e.Viable (front ++ tokens)) :
    Stops e (front ++ read) error rest := by
  cases h with
  | mismatch expected hread => exact .mismatch expected (hviable _ hread)
  | trailing rule hread => exact .trailing rule (hviable _ hread)
  | integer literal hbefore =>
    rw [← List.append_assoc]
    exact .integer literal (hviable _ hbefore)

/-- Reading stops at the front of a larger phrase. -/
theorem inside (h : Stops a read error rest)
    (hviable : ∀ tokens, a.Viable tokens → e.Viable tokens) : Stops e read error rest :=
  @behind _ _ _ [] _ _ h hviable

/-- Streams that agree where reading stopped agreed on three tokens where it began. -/
theorem agree (h : Stops e read error rest) (ha : rest.Agree error.reach rest')
    (hs : s.Reads read rest) (hs' : s'.Reads read rest') : s.Agree 3 s' := by
  refine (ha.before hs hs').mono ?_
  cases h with
  | mismatch => exact Nat.le_add_left _ _
  | trailing => exact Nat.le_add_left _ _
  | integer =>
    rw [List.length_append]
    exact Nat.add_le_add_right (Nat.le_add_left 1 _) 2

/-- Where the reported token stands, behind the viable tokens. -/
theorem reported (h : Stops e read error rest) :
    ∃ before, e.Viable before ∧ read.length = before.length + error.passed ∧
      ∃ behind, read ++ rest.ahead ++ [rest.final] = before ++ error.token :: behind := by
  have hcurrent : ∃ behind, rest.ahead ++ [rest.final] = rest.current :: behind := by
    unfold Stream.current
    cases rest.ahead with
    | nil => exact ⟨[], rfl⟩
    | cons t others => exact ⟨others ++ [rest.final], rfl⟩
  cases h with
  | mismatch expected hread | trailing rule hread =>
    obtain ⟨behind, hbehind⟩ := hcurrent
    exact ⟨read, hread, rfl, behind, by rw [List.append_assoc, hbehind]; rfl⟩
  | @integer before _ literal hbefore =>
    refine ⟨before, hbefore, List.length_append, rest.ahead ++ [rest.final], ?_⟩
    rw [List.append_assoc, List.append_assoc]
    rfl

end Stops

/-- The parser goes through the phrase from left to right, and its outcome depends on no token that
is further on than two behind the place it comes to. -/
structure Follows (p : Parser α) (e : Phrase) : Prop where
  /-- The phrase derives something. -/
  begun : e.Viable []
  /-- If it yields a value, it has read a derivation. -/
  ok : ∀ {rule : Rule} {s : Stream} {v : α} {rest : Stream}, p rule s = .ok v rest →
    ∃ d : Derivation e, s.Reads d.tokens rest ∧
      ∀ {s' rest' : Stream}, s'.Reads d.tokens rest' → rest.Agree 3 rest' →
        p rule s' = .ok v rest'
  /-- If it fails, what it has read is viable up to the token that it reports. -/
  fail : ∀ {rule : Rule} {s : Stream} {failure : Failure} {rest : Stream},
    p rule s = .fail failure rest → ∃ read, s.Reads read rest ∧ Stops e read failure.error rest ∧
      ∀ {s' rest' : Stream}, s'.Reads read rest' → rest.Agree failure.error.reach rest' →
        p rule s' = .fail failure rest'

namespace Follows

/-! ## Steps -/

theorem within {p : Parser α} (rule : Rule) (h : Follows p e) : Follows (Parser.within rule p) e :=
  ⟨h.begun, fun hp => h.ok hp, fun hp => h.fail hp⟩

/-- A token that is not taken is not consumed, and it is the one reported. -/
theorem take_fail {expected : Expectation} {choose : Token → Option α} (he : e.Viable [])
    {rule : Rule} {s rest : Stream} {failure : Failure}
    (h : Parser.take expected choose rule s = .fail failure rest) :
    ∃ read, s.Reads read rest ∧ Stops e read failure.error rest ∧
      ∀ {s' rest' : Stream}, s'.Reads read rest' → rest.Agree failure.error.reach rest' →
        Parser.take expected choose rule s' = .fail failure rest' := by
  unfold Parser.take at h
  split at h
  · next hahead =>
    obtain ⟨rfl, rfl⟩ := Outcome.fail.inj h
    have hcurrent : s.final = s.current := by rw [Stream.current, hahead]; rfl
    refine ⟨[], .refl s, hcurrent ▸ .mismatch expected he, ?_⟩
    intro s' rest' _ ha
    obtain ⟨t, others, -, hcons, -⟩ := Stream.Agree.exists_cons ha
    cases hahead.symm.trans hcons
  · next t others hahead =>
    split at h
    · cases h
    · next hnone =>
      obtain ⟨rfl, rfl⟩ := Outcome.fail.inj h
      have hcurrent : t = s.current := by rw [Stream.current, hahead]; rfl
      refine ⟨[], .refl s, hcurrent ▸ .mismatch expected he, ?_⟩
      intro s' rest' hs' ha
      obtain rfl := Stream.Reads.nil_iff.1 hs'
      obtain ⟨u, more, more', hcons, hcons'⟩ := Stream.Agree.exists_cons ha
      obtain ⟨rfl, -⟩ := List.cons.inj (hahead.symm.trans hcons)
      rw [Parser.take, hcons']
      simp only [hnone]

/-- Taking one token, where one could stand. -/
theorem take {expected : Expectation} {choose : Token → Option α} {v : Derivation e → α}
    (hp : Recognises (Parser.take expected choose) e (fun d _ => v d) Anything)
    (he : e.Viable []) : Follows (Parser.take expected choose) e where
  begun := he
  ok := by
    intro rule s x rest h
    obtain ⟨d, hd, rfl⟩ := hp.sound h
    exact ⟨d, hd, fun hs' _ => hp.complete d hs' trivial⟩
  fail := take_fail he

/-- Taking none, whatever stands there. -/
theorem never {expected : Expectation} (he : e.Viable []) :
    Follows (Parser.take expected fun _ => (none : Option α)) e where
  begun := he
  ok := fun h => absurd h (Parser.take_none_ne_ok _ _ _ _ _)
  fail := take_fail he

/-- Reading with one parser and then with another one. -/
theorem bind [Inhabited α] {p : Parser α} {q : α → Parser β} (hp : Follows p a)
    (hq : ∀ x, Follows (q x) b) : Follows (p >>= q) (.seq a b) where
  begun := hp.begun.first (hq default).begun
  ok := by
    intro rule s y rest h
    obtain ⟨x, middle, hx, hy⟩ := Parser.bind_ok h
    obtain ⟨d, hd, hlocal⟩ := hp.ok hx
    obtain ⟨d', hd', hlocal'⟩ := (hq x).ok hy
    refine ⟨(d, d'), hd.append hd', ?_⟩
    intro s' rest' hs' ha
    obtain ⟨middle', h₁, h₂⟩ := Stream.Reads.append_iff.1 hs'
    have hmiddle := (ha.before hd' h₂).mono (Nat.le_add_left 3 _)
    rw [Parser.bind_apply, hlocal h₁ hmiddle]
    exact hlocal' h₂ ha
  fail := by
    intro rule s failure rest h
    rcases Parser.bind_fail h with hx | ⟨x, middle, hx, hy⟩
    · obtain ⟨read, hread, hstops, hlocal⟩ := hp.fail hx
      refine ⟨read, hread, hstops.inside fun _ hviable => hviable.first (hq default).begun, ?_⟩
      intro s' rest' hs' ha
      rw [Parser.bind_apply, hlocal hs' ha]
    · obtain ⟨d, hd, hlocal⟩ := hp.ok hx
      obtain ⟨read, hread, hstops, hlocal'⟩ := (hq x).fail hy
      refine ⟨d.tokens ++ read, hd.append hread, hstops.behind fun _ => .second d, ?_⟩
      intro s' rest' hs' ha
      obtain ⟨middle', h₁, h₂⟩ := Stream.Reads.append_iff.1 hs'
      rw [Parser.bind_apply, hlocal h₁ (hstops.agree ha hread h₂)]
      exact hlocal' h₂ ha

/-- A step behind a parser that reads nothing more. -/
theorem finish {p : Parser α} {q : α → Parser β} {k : α → Stream → β} (hp : Follows p e)
    (hq : ∀ x rule s, q x rule s = .ok (k x s) s)
    (hk : ∀ x {s s' : Stream}, s.Agree 3 s' → k x s' = k x s) : Follows (p >>= q) e where
  begun := hp.begun
  ok := by
    intro rule s y rest h
    obtain ⟨x, middle, hx, hy⟩ := Parser.bind_ok h
    rw [hq] at hy
    obtain ⟨rfl, rfl⟩ := Outcome.ok.inj hy
    obtain ⟨d, hd, hlocal⟩ := hp.ok hx
    refine ⟨d, hd, ?_⟩
    intro s' rest' hs' ha
    rw [Parser.bind_apply, hlocal hs' ha]
    simp only [hq, hk x ha]
  fail := by
    intro rule s failure rest h
    rcases Parser.bind_fail h with hx | ⟨x, middle, -, hy⟩
    · obtain ⟨read, hread, hstops, hlocal⟩ := hp.fail hx
      refine ⟨read, hread, hstops, ?_⟩
      intro s' rest' hs' ha
      rw [Parser.bind_apply, hlocal hs' ha]
    · rw [hq] at hy
      cases hy

/-- A step that changes the value. -/
theorem map {p : Parser α} (f : α → β) (hp : Follows p e) : Follows (f <$> p) e :=
  hp.finish (q := fun x => pure (f x)) (k := fun x _ => f x) (fun _ _ _ => rfl) fun _ _ _ _ => rfl

/-- A parser that first asks where it starts. -/
theorem start {q : Span → Parser α} (hq : ∀ first, Follows (q first) e) :
    Follows (Parser.start >>= q) e where
  begun := (hq .origin).begun
  ok := by
    intro rule s x rest h
    obtain ⟨d, hd, hlocal⟩ := (hq _).ok (show q s.current.span rule s = _ from h)
    refine ⟨d, hd, ?_⟩
    intro s' rest' hs' ha
    have hcurrent := ((ha.before hd hs').mono (Nat.le_add_left 3 _)).current
    show q s'.current.span rule s' = _
    rw [hcurrent]
    exact hlocal hs' ha
  fail := by
    intro rule s failure rest h
    obtain ⟨read, hread, hstops, hlocal⟩ := (hq _).fail (show q s.current.span rule s = _ from h)
    refine ⟨read, hread, hstops, ?_⟩
    intro s' rest' hs' ha
    have hcurrent := (hstops.agree ha hread hs').current
    show q s'.current.span rule s' = _
    rw [hcurrent]
    exact hlocal hs' ha

/-! ## Choices -/

/-- Reading with one parser or another, by a look at the next tokens; a parser that reads nothing
follows the phrase that is left out. -/
theorem branch {t : Stream → Bool} {yes no : Parser α} (ht : Near t) (hyes : Follows yes e)
    (hno : Follows no e) : Follows (Parser.branch t yes no) e where
  begun := hyes.begun
  ok := by
    intro rule s x rest h
    unfold Parser.branch at h ⊢
    split at h
    · next htest =>
      obtain ⟨d, hd, hlocal⟩ := hyes.ok h
      refine ⟨d, hd, ?_⟩
      intro s' rest' hs' ha
      rw [if_pos ((ht ((ha.before hd hs').mono (Nat.le_add_left 3 _))).trans htest)]
      exact hlocal hs' ha
    · next htest =>
      obtain ⟨d, hd, hlocal⟩ := hno.ok h
      refine ⟨d, hd, ?_⟩
      intro s' rest' hs' ha
      rw [if_neg (by rwa [ht ((ha.before hd hs').mono (Nat.le_add_left 3 _))])]
      exact hlocal hs' ha
  fail := by
    intro rule s failure rest h
    unfold Parser.branch at h ⊢
    split at h
    · next htest =>
      obtain ⟨read, hread, hstops, hlocal⟩ := hyes.fail h
      refine ⟨read, hread, hstops, ?_⟩
      intro s' rest' hs' ha
      rw [if_pos ((ht (hstops.agree ha hread hs')).trans htest)]
      exact hlocal hs' ha
    · next htest =>
      obtain ⟨read, hread, hstops, hlocal⟩ := hno.fail h
      refine ⟨read, hread, hstops, ?_⟩
      intro s' rest' hs' ha
      rw [if_neg (by rwa [ht (hstops.agree ha hread hs')])]
      exact hlocal hs' ha

theorem inl {p : Parser α} (hp : Follows p a) : Follows p (.either a b) where
  begun := .inl hp.begun
  ok := by
    intro rule s x rest h
    obtain ⟨d, hd, hlocal⟩ := hp.ok h
    exact ⟨.inl d, hd, hlocal⟩
  fail := by
    intro rule s failure rest h
    obtain ⟨read, hread, hstops, hlocal⟩ := hp.fail h
    exact ⟨read, hread, hstops.inside fun _ => .inl, hlocal⟩

theorem inr {p : Parser α} (hp : Follows p b) : Follows p (.either a b) where
  begun := .inr hp.begun
  ok := by
    intro rule s x rest h
    obtain ⟨d, hd, hlocal⟩ := hp.ok h
    exact ⟨.inr d, hd, hlocal⟩
  fail := by
    intro rule s failure rest h
    obtain ⟨read, hread, hstops, hlocal⟩ := hp.fail h
    exact ⟨read, hread, hstops.inside fun _ => .inr, hlocal⟩

theorem present {p : Parser α} (hp : Follows p e) : Follows p (.option e) where
  begun := .absent
  ok := by
    intro rule s x rest h
    obtain ⟨d, hd, hlocal⟩ := hp.ok h
    exact ⟨some d, hd, hlocal⟩
  fail := by
    intro rule s failure rest h
    obtain ⟨read, hread, hstops, hlocal⟩ := hp.fail h
    exact ⟨read, hread, hstops.inside fun _ => .present, hlocal⟩

theorem absent (x : α) : Follows (pure x) (.option e) where
  begun := .absent
  ok := by
    intro rule s y rest h
    obtain ⟨rfl, rfl⟩ := Outcome.ok.inj h
    refine ⟨none, .refl s, ?_⟩
    intro s' rest' hs' _
    obtain rfl := Stream.Reads.nil_iff.1 hs'
    rfl
  fail := by
    intro rule s failure rest h
    cases h

/-- A phrase that may be left out, read only if a test finds its start. -/
theorem option {t : Stream → Bool} {p : Parser α} {x : α} (ht : Near t) (hp : Follows p e) :
    Follows (Parser.branch t p (pure x)) (.option e) :=
  .branch ht hp.present (.absent x)

/-! ## Repetition -/

section Repetition

variable {more : Stream → Bool} {item : Parser α}

/-- Items that have tokens are read one after the other, each from where the one before ended. -/
theorem collect_cons {rule : Rule} {s middle : Stream} {x : α} {d : Derivation e} (hmore : more s)
    (hx : item rule s = .ok x middle) (hread : s.Reads d.tokens middle) (hne : d.tokens ≠ []) :
    collect more item rule s =
      ⟨x :: (collect more item rule middle).items, (collect more item rule middle).failure,
        (collect more item rule middle).rest⟩ := by
  rw [collect, if_pos hmore, hx]
  simp only [if_pos (hread.length_lt hne)]

/-- If no item fails, all that was read is derived. -/
theorem collect_ok (hmore : Near more) (hp : Follows item e)
    (hsolid : ∀ d : Derivation e, d.tokens ≠ []) (rule : Rule) (s : Stream) :
    (collect more item rule s).failure = none → ∃ ds : Derivation (.many e),
      s.Reads ds.tokens (collect more item rule s).rest ∧
        ∀ {s' rest' : Stream}, s'.Reads ds.tokens rest' →
          (collect more item rule s).rest.Agree 3 rest' →
          collect more item rule s' = ⟨(collect more item rule s).items, none, rest'⟩ := by
  fun_induction collect more item rule s with
  | case1 s htest failure rest hitem => exact fun h => by cases h
  | case2 s htest x middle hitem hlt others ih =>
    intro hnone
    obtain ⟨d, hd, hlocal⟩ := hp.ok hitem
    obtain ⟨ds, hds, hothers⟩ := ih hnone
    refine ⟨d :: ds, hd.append hds, ?_⟩
    intro s' rest' hs' ha
    obtain ⟨middle', h₁, h₂⟩ := Stream.Reads.append_iff.1 hs'
    have hmiddle := (ha.before hds h₂).mono (Nat.le_add_left 3 _)
    have htest' := (hmore ((hmiddle.before hd h₁).mono (Nat.le_add_left 3 _))).trans htest
    rw [collect_cons htest' (hlocal h₁ hmiddle) h₁ (hsolid d), hothers h₂ ha]
  | case3 s htest x rest hitem hge =>
    obtain ⟨d, hd, -⟩ := hp.ok hitem
    exact absurd (hd.length_lt (hsolid d)) hge
  | case4 s htest =>
    refine fun _ => ⟨[], .refl s, ?_⟩
    intro s' rest' hs' ha
    obtain rfl := Stream.Reads.nil_iff.1 hs'
    rw [collect, if_neg (by rwa [hmore ha])]

/-- If an item fails, those before it are derived, and the failed one is begun. -/
theorem collect_fail (hmore : Near more) (hp : Follows item e)
    (hsolid : ∀ d : Derivation e, d.tokens ≠ []) (rule : Rule) (s : Stream) {failure : Failure} :
    (collect more item rule s).failure = some failure → ∃ read,
      s.Reads read (collect more item rule s).rest ∧
        Stops (.many e) read failure.error (collect more item rule s).rest ∧
          ∀ {s' rest' : Stream}, s'.Reads read rest' →
            (collect more item rule s).rest.Agree failure.error.reach rest' →
            collect more item rule s' =
              ⟨(collect more item rule s).items, some failure, rest'⟩ := by
  fun_induction collect more item rule s with
  | case1 s htest failed rest hitem =>
    intro hfailed
    obtain rfl := Option.some.inj hfailed
    obtain ⟨read, hread, hstops, hlocal⟩ := hp.fail hitem
    refine ⟨read, hread, hstops.inside fun _ => .item, ?_⟩
    intro s' rest' hs' ha
    rw [collect, if_pos ((hmore (hstops.agree ha hread hs')).trans htest), hlocal hs' ha]
  | case2 s htest x middle hitem hlt others ih =>
    intro hfailed
    obtain ⟨d, hd, hlocal⟩ := hp.ok hitem
    obtain ⟨read, hread, hstops, hothers⟩ := ih hfailed
    refine ⟨d.tokens ++ read, hd.append hread, hstops.behind fun _ => .cons d, ?_⟩
    intro s' rest' hs' ha
    obtain ⟨middle', h₁, h₂⟩ := Stream.Reads.append_iff.1 hs'
    have hmiddle := hstops.agree ha hread h₂
    have htest' := (hmore ((hmiddle.before hd h₁).mono (Nat.le_add_left 3 _))).trans htest
    rw [collect_cons htest' (hlocal h₁ hmiddle) h₁ (hsolid d), hothers h₂ ha]
  | case3 s htest x rest hitem hge => exact fun h => by cases h
  | case4 s htest => exact fun h => by cases h

/-- Reading items as long as a test finds one. -/
theorem repeatWhile (hmore : Near more) (hp : Follows item e)
    (hsolid : ∀ d : Derivation e, d.tokens ≠ []) :
    Follows (Parser.repeatWhile more item) (.many e) where
  begun := .none
  ok := by
    intro rule s items rest h
    simp only [Parser.repeatWhile] at h
    split at h
    · next hnone =>
      obtain ⟨rfl, rfl⟩ := Outcome.ok.inj h
      obtain ⟨ds, hds, hlocal⟩ := collect_ok hmore hp hsolid rule s hnone
      refine ⟨ds, hds, ?_⟩
      intro s' rest' hs' ha
      rw [Parser.repeatWhile, hlocal hs' ha]
    · cases h
  fail := by
    intro rule s failure rest h
    simp only [Parser.repeatWhile] at h
    split at h
    · cases h
    · next failed hfailed =>
      obtain ⟨rfl, rfl⟩ := Outcome.fail.inj h
      obtain ⟨read, hread, hstops, hlocal⟩ := collect_fail hmore hp hsolid rule s hfailed
      refine ⟨read, hread, hstops, ?_⟩
      intro s' rest' hs' ha
      rw [Parser.repeatWhile, hlocal hs' ha]

end Repetition
end Follows
end SyslModel
