import SyslModel.Proofs.Grammar.Script
/-!
# What happens while rules are read

Running a script tells what happens: which rules are entered and left, and where a token stands in
the way of a rule.  It does not tell which rule is to blame for that.  A parser does, and
`Script.tells` says that it is right: it blames the rule that was entered last and not yet left when
the token stood in the way.
-/

namespace SyslModel

variable {α β : Type}

/-! ## Events -/

/-- What can happen while tokens are read. -/
inductive Event where
  /-- A rule is entered. -/
  | enter (rule : Rule)
  /-- A rule is left, whether or not it has failed. -/
  | leave (rule : Rule)
  /-- A token stands in the way of a rule, so the rule fails. -/
  | failed (error : SyntaxError)
  /-- An error is recorded. -/
  | recorded (error : SyntaxError)
  deriving DecidableEq

/-- The rules that are open behind some events, the innermost first. -/
def openRules (stack : List Rule) : List Event → List Rule
  | [] => stack
  | .enter rule :: events => openRules (rule :: stack) events
  | .leave _ :: events => openRules stack.tail events
  | .failed _ :: events => openRules stack events
  | .recorded _ :: events => openRules stack events

/-- No rule fails. -/
def NoFailure (events : List Event) : Prop := ∀ error, .failed error ∉ events

/-- No error is recorded. -/
def NoRecord (events : List Event) : Prop := ∀ error, .recorded error ∉ events

theorem openRules_append (stack : List Rule) (events more : List Event) :
    openRules stack (events ++ more) = openRules (openRules stack events) more := by
  induction events generalizing stack with
  | nil => rfl
  | cons event events ih => cases event <;> exact ih _

theorem NoFailure.append {events more : List Event} (h : NoFailure events) (h' : NoFailure more) :
    NoFailure (events ++ more) :=
  fun error hmem => (List.mem_append.1 hmem).elim (h error) (h' error)

theorem NoRecord.append {events more : List Event} (h : NoRecord events) (h' : NoRecord more) :
    NoRecord (events ++ more) :=
  fun error hmem => (List.mem_append.1 hmem).elim (h error) (h' error)

theorem NoRecord.failed {events : List Event} (h : NoRecord events) (error : SyntaxError) :
    NoRecord (.failed error :: events) :=
  fun other => List.not_mem_cons_of_ne_of_not_mem nofun (h other)

/-- Rules are entered and left only, which leads from some open rules to others. -/
structure Passes (before : List Rule) (events : List Event) (behind : List Rule) : Prop where
  /-- No rule fails. -/
  noFailure : NoFailure events
  /-- No error is recorded. -/
  noRecord : NoRecord events
  /-- The rules below them stay open. -/
  opened : ∀ stack, openRules (before ++ stack) events = behind ++ stack

namespace Passes

variable {first second third : List Rule} {events more : List Event}

theorem openRules_eq (h : Passes first events second) : openRules first events = second := by
  simpa using h.opened []

theorem nil (rules : List Rule) : Passes rules [] rules :=
  ⟨fun _ => List.not_mem_nil, fun _ => List.not_mem_nil, fun _ => rfl⟩

theorem append (h : Passes first events second) (h' : Passes second more third) :
    Passes first (events ++ more) third where
  noFailure := h.noFailure.append h'.noFailure
  noRecord := h.noRecord.append h'.noRecord
  opened stack := by rw [openRules_append, h.opened, h'.opened]

/-- What happens above some open rules happens above more of them. -/
theorem above (h : Passes first events second) (rules : List Rule) :
    Passes (first ++ rules) events (second ++ rules) where
  noFailure := h.noFailure
  noRecord := h.noRecord
  opened stack := by rw [List.append_assoc, h.opened, List.append_assoc]

theorem enter (rule : Rule) : Passes [] [.enter rule] [rule] :=
  ⟨fun _ => by simp, fun _ => by simp, fun _ => rfl⟩

theorem leave (rule : Rule) : Passes [rule] [.leave rule] [] :=
  ⟨fun _ => by simp, fun _ => by simp, fun _ => rfl⟩

end Passes

/-! ## Runs of scripts -/

/-- How a script ends. -/
inductive Ending (α : Type) where
  /-- A value was read. -/
  | ok (value : α) (rest : Stream)
  /-- A token stood in the way. -/
  | fail (error : SyntaxError) (rest : Stream)

/-- The place that a script comes to, whether or not it fails. -/
def Ending.place : Ending α → Stream
  | .ok _ rest => rest
  | .fail _ rest => rest

/-- What happens from a place on, and how it ends. -/
abbrev Traced (α : Type) := Stream → List Event × Ending α

namespace Traced

/-- One run and then another one, if the first does not fail. -/
def andThen (first : Traced α) (next : α → Traced β) : Traced β := fun s =>
  match first s with
  | (events, .ok value rest) => (events ++ (next value rest).1, (next value rest).2)
  | (events, .fail error rest) => (events, .fail error rest)

/-- A rule is entered first and left last. -/
def within (rule : Rule) (body : Traced α) : Traced α := fun s =>
  (.enter rule :: ((body s).1 ++ [.leave rule]), (body s).2)

/-- A token stands in the way. -/
def fail (error : SyntaxError) : Traced α := fun s => ([.failed error], .fail error s)

/-- The next token is consumed, or it stands in the way. -/
def take (expected : Expectation) (choose : Token → Option α) : Traced α := fun s =>
  match s.ahead with
  | [] => fail (.mismatch expected s.final) s
  | t :: others =>
    match choose t with
    | some value => ([], .ok value { s with consumed := t :: s.consumed, ahead := others })
    | none => fail (.mismatch expected t) s

/-- Items as long as `more` holds of the stream. -/
def repeatWhile (more : Stream → Bool) (item : Traced α) (s : Stream) :
    List Event × Ending (List α) :=
  if more s then
    match item s with
    | (events, .fail error rest) => (events, .fail error rest)
    | (events, .ok value rest) =>
      if rest.ahead.length < s.ahead.length then
        match repeatWhile more item rest with
        | (others, .ok values last) => (events ++ others, .ok (value :: values) last)
        | (others, .fail error last) => (events ++ others, .fail error last)
      else (events, .ok [value] rest)
  else ([], .ok [] s)
  termination_by s.ahead.length

end Traced

namespace Script

/-- What happens when the steps are taken. -/
def run {α : Type} : Script α → Traced α
  | .yield value => fun s => ([], .ok value s)
  | .andThen first next => Traced.andThen first.run fun value => (next value).run
  | .within rule body => Traced.within rule body.run
  | .refuse literal => Traced.fail (.integerOutOfRange literal)
  | .take expected choose => Traced.take expected choose
  | .start => fun s => ([], .ok s.current.span s)
  | .spanFrom first => fun s => ([], .ok (s.spanFrom first) s)
  | .branch look yes no => fun s => if look.holds s then yes.run s else no.run s
  | .repeatWhile look item => Traced.repeatWhile look.holds item.run

/-- The script fails within rules of its own only. -/
def Guarded {α : Type} : Script α → Prop
  | .yield _ => True
  | .andThen first next => first.Guarded ∧ ∀ value, (next value).Guarded
  | .within _ _ => True
  | .refuse _ => False
  | .take _ _ => False
  | .start | .spanFrom _ => True
  | .branch _ yes no => yes.Guarded ∧ no.Guarded
  | .repeatWhile _ item => item.Guarded

end Script

/-! ## Which rule is to blame -/

/-- The error is about a token inside a rule, and not about one behind a complete rule. -/
def SyntaxError.IsInside (error : SyntaxError) : Prop :=
  ∀ rule found, error ≠ .trailingInput rule found

namespace SyntaxError.IsInside

theorem mismatch (expected : Expectation) (found : Token) :
    (SyntaxError.mismatch expected found).IsInside :=
  fun _ _ => nofun

theorem integerOutOfRange (literal : Token) : (SyntaxError.integerOutOfRange literal).IsInside :=
  fun _ _ => nofun

end SyntaxError.IsInside

/-- An outcome, within an outer rule, tells of a run how it ended and which rule is to blame.  If
the run is guarded, that is not the outer rule. -/
inductive Tells (guarded : Prop) (outer : Rule) : List Event × Ending α → Outcome α → Prop
  /-- A value was read, and all rules that were entered were left. -/
  | ok {events : List Event} {value : α} {rest : Stream} : Passes [] events [] →
      Tells guarded outer (events, .ok value rest) (.ok value rest)
  /-- A token stood in the way while some rules were open; the innermost of them is to blame. -/
  | fail {before behind : List Event} {opened : List Rule} {error : SyntaxError} {rest : Stream} :
      Passes [] before opened → Passes opened behind [] → (guarded → opened ≠ []) →
      error.IsInside → Tells guarded outer (before ++ .failed error :: behind, .fail error rest)
        (.fail ⟨error, opened.headD outer⟩ rest)

namespace Tells

variable {guarded : Prop} {outer : Rule}

/-- Reading rules records nothing. -/
theorem noRecord {traced : List Event × Ending α} {outcome : Outcome α}
    (h : Tells guarded outer traced outcome) : NoRecord traced.1 := by
  cases h with
  | ok hevents => exact hevents.noRecord
  | fail hbefore hbehind _ _ => exact hbefore.noRecord.append (hbehind.noRecord.failed _)

theorem weaken {guarded' : Prop} (himp : guarded' → guarded) {traced : List Event × Ending α}
    {outcome : Outcome α} (h : Tells guarded outer traced outcome) :
    Tells guarded' outer traced outcome := by
  cases h with
  | ok hevents => exact .ok hevents
  | fail hbefore hbehind hne hinside =>
    exact .fail hbefore hbehind (fun hg => hne (himp hg)) hinside

/-- Other rules were entered and left before. -/
theorem after {events : List Event} {traced : List Event × Ending α} {outcome : Outcome α}
    (h : Tells guarded outer traced outcome) (hevents : Passes [] events []) :
    Tells guarded outer (events ++ traced.1, traced.2) outcome := by
  cases h with
  | ok hmore => exact .ok (hevents.append hmore)
  | fail hbefore hbehind hne hinside =>
    dsimp only
    rw [← List.append_assoc]
    exact .fail (hevents.append hbefore) hbehind hne hinside

theorem andThen {guarded' : Prop} {first : Traced α} {next : α → Traced β} {p : Parser α}
    {q : α → Parser β} {s : Stream} (hfirst : Tells guarded outer (first s) (p outer s))
    (hnext : ∀ value rest, Tells guarded' outer (next value rest) (q value outer rest)) :
    Tells (guarded ∧ guarded') outer (Traced.andThen first next s) ((p >>= q) outer s) := by
  rw [Parser.bind_apply, Traced.andThen]
  generalize first s = traced at hfirst
  generalize p outer s = outcome at hfirst
  cases hfirst with
  | fail hbefore hbehind hne hinside =>
    exact .fail hbefore hbehind (fun hg => hne hg.1) hinside
  | @ok events value rest hevents => exact ((hnext value rest).weaken And.right).after hevents

theorem within {rule : Rule} {body : Traced α} {p : Parser α} {s : Stream}
    (h : Tells guarded rule (body s) (p rule s)) :
    Tells True outer (Traced.within rule body s) (Parser.within rule p outer s) := by
  rw [Parser.within, Traced.within]
  generalize body s = traced at h
  generalize p rule s = outcome at h
  cases h with
  | ok hevents =>
    exact .ok ((Passes.enter rule).append ((hevents.above [rule]).append (.leave rule)))
  | @fail before behind opened error rest hbefore hbehind _ hinside =>
    have hblame : opened.headD rule = (opened ++ [rule]).headD outer := by cases opened <;> rfl
    dsimp only
    rw [hblame, List.append_assoc, List.cons_append, ← List.cons_append]
    exact .fail ((Passes.enter rule).append (hbefore.above [rule]))
      ((hbehind.above [rule]).append (.leave rule)) (fun _ => by simp) hinside

theorem failure {error : SyntaxError} (hinside : error.IsInside) (s : Stream) :
    Tells False outer (Traced.fail error s : List Event × Ending α) (Parser.fail error outer s) :=
  @Tells.fail _ _ _ [] [] [] _ _ (.nil []) (.nil []) False.elim hinside

theorem take (expected : Expectation) (choose : Token → Option α) (s : Stream) :
    Tells False outer (Traced.take expected choose s) (Parser.take expected choose outer s) := by
  rw [Traced.take, Parser.take]
  cases s.ahead with
  | nil => exact failure (.mismatch expected s.final) s
  | cons t others =>
    dsimp only
    cases choose t with
    | some value => exact .ok (.nil [])
    | none => exact failure (.mismatch expected t) s

/-- A repetition tells what its items tell. -/
theorem repeatWhile {more : Stream → Bool} {item : Traced α} {p : Parser α}
    (h : ∀ s, Tells guarded outer (item s) (p outer s)) (s : Stream) :
    Tells guarded outer (Traced.repeatWhile more item s) (Parser.repeatWhile more p outer s) := by
  induction hlength : s.ahead.length using Nat.strongRecOn generalizing s with
  | ind length ih =>
    rw [Traced.repeatWhile, Parser.repeatWhile_eq]
    by_cases hmore : more s = true
    · rw [if_pos hmore, if_pos hmore]
      have hitem := h s
      generalize item s = traced at hitem
      generalize p outer s = outcome at hitem
      cases hitem with
      | fail hbefore hbehind hne hinside => exact .fail hbefore hbehind hne hinside
      | @ok events value rest hevents =>
        dsimp only
        by_cases hlt : rest.ahead.length < s.ahead.length
        · rw [if_pos hlt, if_pos hlt]
          have hothers := ih rest.ahead.length (hlength ▸ hlt) rest rfl
          generalize Traced.repeatWhile more item rest = traced at hothers
          generalize Parser.repeatWhile more p outer rest = outcome at hothers
          cases hothers with
          | ok hmore => exact .ok (hevents.append hmore)
          | fail hbefore hbehind hne hinside =>
            exact (Tells.fail hbefore hbehind hne hinside).after hevents
        · rw [if_neg hlt, if_neg hlt]
          exact .ok hevents
    · rw [if_neg hmore, if_neg hmore]
      exact .ok (.nil [])

end Tells

namespace Script

/-- The parser of a script tells of its run how it ends and which rule is to blame. -/
theorem tells (script : Script α) (outer : Rule) (s : Stream) :
    Tells script.Guarded outer (script.run s) (script.parser outer s) := by
  induction script generalizing outer s with
  | yield value => exact .ok (.nil [])
  | andThen first next ihfirst ihnext =>
    exact Tells.andThen (ihfirst outer s) fun value rest =>
      (ihnext value outer rest).weaken fun hguarded => hguarded value
  | within rule body ih => exact (ih rule s).within
  | refuse literal => exact .failure (.integerOutOfRange literal) s
  | take expected choose => exact .take expected choose s
  | start | spanFrom => exact .ok (.nil [])
  | branch look yes no ihyes ihno =>
    show Tells _ outer (if look.holds s then _ else _) (if look.holds s then _ else _)
    split
    · exact (ihyes outer s).weaken And.left
    · exact (ihno outer s).weaken And.right
  | repeatWhile look item ih => exact .repeatWhile (ih outer) s

end Script
end SyslModel
