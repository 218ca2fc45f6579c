import SyslModel.Proofs.Grammar.Mistake
/-!
# Reading does not look back

A parser looks at what was consumed for one purpose: a construct ends where the last consumed token
ends.  So once a token is consumed, it makes no difference which ones were consumed before it.
`Forward` says this of a parser, and there is one lemma for each way in which parsers are put
together.

An application begins with a token of its own.  It is therefore read in the midst of a list of
tokens as at the start of one (`Grammar.readApplication_behind`), and fails in the same way.
-/

namespace SyslModel

open SyslModel.Parser (collect Collected)

variable {α β : Type}

/-! ## Tokens that were consumed earlier -/

/-- The stream with tokens consumed before those that it has consumed. -/
def Stream.behind (s : Stream) (earlier : List Token) : Stream :=
  { s with consumed := s.consumed ++ earlier }

/-- The outcome on a stream with tokens consumed earlier. -/
def Outcome.behind (earlier : List Token) : Outcome α → Outcome α
  | .ok value rest => .ok value (rest.behind earlier)
  | .fail failure rest => .fail failure (rest.behind earlier)

/-- What a repetition has read of a stream with tokens consumed earlier. -/
def Parser.Collected.behind (earlier : List Token) (c : Collected α) : Collected α :=
  { c with rest := c.rest.behind earlier }

theorem Stream.spanFrom_behind {s : Stream} (hs : s.consumed ≠ []) (earlier : List Token)
    (first : Span) : (s.behind earlier).spanFrom first = s.spanFrom first := by
  obtain ⟨last, consumed, hcons⟩ := List.exists_cons_of_ne_nil hs
  rw [Stream.spanFrom, Stream.spanFrom, Stream.behind, hcons]
  rfl

/-- Behind a token that was consumed, the parser stays behind it, and tokens that were consumed
earlier make no difference. -/
def Forward (p : Parser α) : Prop :=
  ∀ rule s, s.consumed ≠ [] → (p rule s).place.consumed ≠ [] ∧
    ∀ earlier, p rule (s.behind earlier) = (p rule s).behind earlier

/-- A look at a stream that does not go back. -/
def Onward (test : Stream → Bool) : Prop := ∀ s earlier, test (s.behind earlier) = test s

namespace Forward

open SyslModel.Parser

/-! ## Steps -/

theorem pure (x : α) : Forward (pure x) := fun _ _ hs => ⟨hs, fun _ => rfl⟩

theorem fail (error : SyntaxError) : Forward (fail error : Parser α) :=
  fun _ _ hs => ⟨hs, fun _ => rfl⟩

theorem within {p : Parser α} (h : Forward p) (rule : Rule) : Forward (within rule p) :=
  fun _ s hs => h rule s hs

theorem bind {p : Parser α} {next : α → Parser β} (hp : Forward p)
    (hnext : ∀ x, Forward (next x)) : Forward (p >>= next) := by
  intro rule s hs
  obtain ⟨hplace, hsame⟩ := hp rule s hs
  cases h : p rule s with
  | ok value rest =>
    rw [h] at hplace
    obtain ⟨hplace', hsame'⟩ := hnext value rule rest hplace
    rw [bind_apply, h]
    refine ⟨hplace', fun earlier => ?_⟩
    rw [bind_apply, hsame, h]
    exact hsame' earlier
  | fail failure rest =>
    rw [h] at hplace
    rw [bind_apply, h]
    refine ⟨hplace, fun earlier => ?_⟩
    rw [bind_apply, hsame, h]
    rfl

theorem take (expected : Expectation) (choose : Token → Option α) :
    Forward (take expected choose) := by
  rintro rule ⟨consumed, _ | ⟨t, others⟩, final⟩ hs
  · exact ⟨hs, fun _ => rfl⟩
  · cases h : choose t with
    | none =>
      simp only [Parser.take, Stream.behind, h]
      exact ⟨hs, fun _ => rfl⟩
    | some x =>
      simp only [Parser.take, Stream.behind, h]
      exact ⟨List.cons_ne_nil _ _, fun _ => rfl⟩

theorem expect (kind : TokenKind) : Forward (expect kind) := take _ _

theorem branch {test : Stream → Bool} {yes no : Parser α} (htest : Onward test)
    (hyes : Forward yes) (hno : Forward no) : Forward (branch test yes no) := by
  intro rule s hs
  simp only [Parser.branch, htest s]
  split
  · exact hyes rule s hs
  · exact hno rule s hs

theorem accept (kind : TokenKind) : Forward (accept kind) :=
  branch (fun _ _ => rfl) ((expect kind).bind fun _ => pure true) (pure false)

theorem start : Forward start := fun _ _ hs => ⟨hs, fun _ => rfl⟩

theorem spanFrom (first : Span) : Forward (spanFrom first) := by
  intro rule s hs
  refine ⟨hs, fun earlier => ?_⟩
  simp only [Parser.spanFrom, Parser.look, Stream.spanFrom_behind hs]
  rfl

/-! ## Repetition -/

theorem collect {more : Stream → Bool} {item : Parser α} (hmore : Onward more)
    (h : Forward item) (rule : Rule) (s : Stream) : s.consumed ≠ [] →
    (collect more item rule s).rest.consumed ≠ [] ∧
      ∀ earlier, collect more item rule (s.behind earlier) =
        (collect more item rule s).behind earlier := by
  fun_induction Parser.collect more item rule s with
  | case1 s htest failure rest hitem =>
    intro hs
    obtain ⟨hplace, hsame⟩ := h rule s hs
    rw [hitem] at hplace
    refine ⟨hplace, fun earlier => ?_⟩
    rw [Parser.collect, if_pos ((hmore s earlier).trans htest), hsame, hitem]
    rfl
  | case2 s htest x rest hitem hlt others ih =>
    intro hs
    obtain ⟨hplace, hsame⟩ := h rule s hs
    rw [hitem] at hplace
    obtain ⟨hothers, hcollect⟩ := ih hplace
    have hlt' (earlier : List Token) :
        (rest.behind earlier).ahead.length < (s.behind earlier).ahead.length := hlt
    refine ⟨hothers, fun earlier => ?_⟩
    rw [Parser.collect, if_pos ((hmore s earlier).trans htest), hsame, hitem]
    simp only [Outcome.behind, if_pos (hlt' earlier), hcollect]
    rfl
  | case3 s htest x rest hitem hge =>
    intro hs
    obtain ⟨hplace, hsame⟩ := h rule s hs
    rw [hitem] at hplace
    have hge' (earlier : List Token) :
        ¬ (rest.behind earlier).ahead.length < (s.behind earlier).ahead.length := hge
    refine ⟨hplace, fun earlier => ?_⟩
    rw [Parser.collect, if_pos ((hmore s earlier).trans htest), hsame, hitem]
    simp only [Outcome.behind, if_neg (hge' earlier)]
    rfl
  | case4 s htest =>
    intro hs
    refine ⟨hs, fun earlier => ?_⟩
    rw [Parser.collect, if_neg (by rwa [hmore])]
    rfl

theorem repeatWhile {more : Stream → Bool} {item : Parser α} (hmore : Onward more)
    (h : Forward item) : Forward (repeatWhile more item) := by
  intro rule s hs
  obtain ⟨hplace, hsame⟩ := collect hmore h rule s hs
  simp only [Parser.repeatWhile, hsame]
  cases hfailure : (Parser.collect more item rule s).failure with
  | none => exact ⟨hplace, fun earlier => by simp only [Collected.behind, hfailure]; rfl⟩
  | some failure => exact ⟨hplace, fun earlier => by simp only [Collected.behind, hfailure]; rfl⟩

/-! ## A parser that takes a token first -/

/-- If the first thing that a parser does is to take a token, then it does not matter at all what
was consumed. -/
theorem behind_of_take {expected : Expectation} {choose : Token → Option α}
    {next : Span → α → Parser β} (h : ∀ first x, Forward (next first x)) (rule : Rule) (s : Stream)
    (earlier : List Token) :
    (Parser.start >>= fun first => Parser.take expected choose >>= next first) rule
        (s.behind earlier) =
      ((Parser.start >>= fun first => Parser.take expected choose >>= next first) rule s).behind
        earlier := by
  obtain ⟨consumed, _ | ⟨t, others⟩, final⟩ := s
  · rfl
  · show (Parser.take expected choose >>= next t.span) rule _ =
      ((Parser.take expected choose >>= next t.span) rule _).behind earlier
    rw [bind_apply, bind_apply]
    cases hchoose : choose t with
    | none =>
      simp only [Parser.take, Stream.behind, hchoose]
      rfl
    | some x =>
      simp only [Parser.take, Stream.behind, hchoose]
      exact (h t.span x rule ⟨t :: consumed, others, final⟩ (List.cons_ne_nil _ _)).2 earlier

end Forward

/-! ## The rules -/

namespace Grammar

open Forward

theorem bracketed_forward {item : Parser (String × Attribute)} (h : Forward item) :
    Forward (bracketed item) := by
  refine (expect _).bind fun _ => bind (branch (fun _ _ => rfl) (pure []) ?_) fun items => ?_
  · refine h.bind fun first => bind (repeatWhile (fun _ _ => rfl) ?_) fun others => pure _
    exact (expect _).bind fun _ => h
  · exact (expect _).bind fun _ => pure _

theorem readAttribute_forward : Forward readAttribute :=
  within ((expect _).bind fun _ => (expect _).bind fun _ => (take _ _).bind fun _ => pure _) _

theorem readAttributes_forward : Forward readAttributes :=
  (bracketed_forward readAttribute_forward).within _

theorem optionalAttributes_forward : Forward optionalAttributes :=
  branch (fun _ _ => rfl) readAttributes_forward (pure _)

theorem readFieldAttr_forward : Forward readFieldAttr :=
  within ((accept _).bind fun _ => (expect _).bind fun _ => pure _) _

theorem readFieldAttrs_forward : Forward readFieldAttrs :=
  (bracketed_forward readFieldAttr_forward).within _

theorem readTypeRef_forward : Forward readTypeRef :=
  within (start.bind fun _ => (take _ _).bind fun _ => pure _) _

theorem readField_forward : Forward readField := by
  refine within (start.bind fun first => (take _ _).bind fun _ => (expect _).bind fun _ => ?_) _
  refine readTypeRef_forward.bind fun _ => (accept _).bind fun _ => ?_
  refine bind (branch (fun _ _ => rfl) readFieldAttrs_forward (pure _)) fun _ => ?_
  exact (spanFrom first).bind fun _ => pure _

theorem readFields_forward : Forward readFields :=
  (repeatWhile (fun _ _ => rfl) readField_forward).bind fun _ => pure _

theorem readInteger_forward (literal : Token) : Forward (readInteger literal) := by
  rw [readInteger, Decimal.read64?_eq]
  cases Decimal.signed64? literal.text.toList with
  | none => exact fail _
  | some value => exact pure value

theorem readEnumItem_forward : Forward readEnumItem := by
  refine within ((take _ _).bind fun _ => (expect _).bind fun _ => ?_) _
  exact (expect _).bind fun literal => (readInteger_forward literal).bind fun _ => pure _

theorem readEnumItems_forward : Forward readEnumItems :=
  (repeatWhile (fun _ _ => rfl) readEnumItem_forward).bind fun _ => pure _

theorem readBody_forward (marker : Marker) : Forward (readBody marker) := by
  cases marker with
  | table => exact readFields_forward.bind fun _ => pure _
  | type => exact readFields_forward.bind fun _ => pure _
  | enumeration => exact readEnumItems_forward.bind fun _ => pure _

theorem readDeclaration_forward : Forward readDeclaration := by
  refine within (start.bind fun first => (take _ _).bind fun marker => ?_) _
  refine (expect _).bind fun _ => optionalAttributes_forward.bind fun _ => ?_
  refine (expect _).bind fun _ => (readBody_forward marker).bind fun _ => ?_
  exact (spanFrom first).bind fun _ => pure _

theorem readEndpoint_forward : Forward readEndpoint := by
  refine within (start.bind fun first => (expect _).bind fun _ => (take _ _).bind fun _ => ?_) _
  exact optionalAttributes_forward.bind fun _ => (expect _).bind fun _ =>
    (spanFrom first).bind fun _ => pure _

theorem readMember_forward : Forward readMember :=
  branch (fun _ _ => rfl) (readDeclaration_forward.bind fun _ => pure _)
    (branch (fun _ _ => rfl) (readEndpoint_forward.bind fun _ => pure _) (take _ _))

/-- An application is read as if nothing had been consumed before it. -/
theorem readApplication_behind (rule : Rule) (s : Stream) (earlier : List Token) :
    readApplication rule (s.behind earlier) = (readApplication rule s).behind earlier := by
  refine behind_of_take (fun first name => ?_) .application s earlier
  refine optionalAttributes_forward.bind fun _ => (expect _).bind fun _ => ?_
  exact (repeatWhile (fun _ _ => rfl) readMember_forward).bind fun _ =>
    (spanFrom first).bind fun _ => pure _

/-- Where an application fails behind some tokens, it fails in the same way at the start of those
that are left. -/
theorem readApplication_fail_fresh {rule : Rule} {s rest : Stream} {failure : Failure}
    (h : readApplication rule s = .fail failure rest) :
    ∃ rest', readApplication .application ⟨[], s.ahead, s.final⟩ = .fail failure rest' := by
  have hbehind := readApplication_behind rule ⟨[], s.ahead, s.final⟩ s.consumed
  rw [show (⟨[], s.ahead, s.final⟩ : Stream).behind s.consumed = s from rfl, h] at hbehind
  cases hfresh : readApplication rule ⟨[], s.ahead, s.final⟩ with
  | ok value rest' => rw [hfresh] at hbehind; cases hbehind
  | fail failure' rest' =>
    rw [hfresh] at hbehind
    obtain ⟨rfl, -⟩ := Outcome.fail.inj hbehind
    exact ⟨rest', hfresh⟩

end Grammar
end SyslModel
