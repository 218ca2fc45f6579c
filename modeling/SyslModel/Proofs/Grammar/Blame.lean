import SyslModel.Proofs.Grammar.Calls
import SyslModel.Proofs.Grammar.Trace
/-!
# Which token and which rule an error names

A session remembers one rule for the next diagnostic, also across calls, and does not know in which
call the rule failed.  `error_reports` says what it comes to, after any calls: the rule that a
diagnostic names was the innermost open one when a rule failed for the first time since the
diagnostic before.  That may be an earlier failure than the one that the diagnostic is about, but
only if an error was left to a caller in between.

What happens in a call is told by the events of its script, which knows of no rule to blame.
-/

namespace SyslModel

open SyslModel.Parser (collect)

/-! ## What happens in calls -/

namespace Script

/-- Every rule fails within rules that it enters itself. -/
theorem ofRule_guarded (rule : Rule) : (ofRule rule).Guarded := by
  cases rule with
  | model => exact ⟨trivial, fun _ => trivial⟩
  | _ => exact ⟨⟨trivial, fun _ => trivial⟩, fun _ => trivial⟩

end Script

/-- Is the error that a call meets recorded?  A rule of its own leaves it to the caller, unless it
is to read the whole input. -/
def Call.recording : Call → Bool
  | .direct rule => rule = .model
  | .whole _ => true

/-- The error in a reply. -/
def Reply.error? : Reply → Option SyntaxError
  | .error e => some e
  | .value _ => none
  | .nothing => none

theorem Reply.error?_eq_some_iff {reply : Reply} {error : SyntaxError} :
    reply.error? = some error ↔ reply = .error error := by
  cases reply <;> simp [Reply.error?]

namespace Session

/-- The error that a call records. -/
def recorded? (session : Session) (call : Call) : Option SyntaxError :=
  if call.recording then (mistake? call.rule session.stream).map Failure.error else none

/-- What happens in a call: the steps of its rule, and then the record of an error. -/
def events (session : Session) (call : Call) : List Event :=
  ((Script.ofRule call.rule).run session.stream).1 ++
    ((session.recorded? call).map Event.recorded).toList

/-- What happens in calls in turn. -/
def eventsAll (session : Session) : List Call → List Event
  | [] => []
  | call :: others => session.events call ++ (session.perform call).2.eventsAll others

end Session

/-! ## Statements about what happened -/

/-- No rule has failed since the last error was recorded. -/
def Quiet (log : List Event) : Prop :=
  ∃ old recent, log = old ++ recent ∧ (old = [] ∨ ∃ front error, old = front ++ [.recorded error]) ∧
    NoFailure recent ∧ NoRecord recent

/-- Since the last error was recorded, the first failure of a rule was this one, and it happened
while the rule was the innermost open one. -/
def EarliestFailure (log : List Event) (error : SyntaxError) (rule : Rule) : Prop :=
  ∃ before after outer, log = before ++ .failed error :: after ∧ Quiet before ∧ NoRecord after ∧
    openRules [] before = rule :: outer

/-- The rule that the diagnostic about an error names, behind what happened before the call and in
it. -/
inductive Names (log front : List Event) (call : Call) : SyntaxError → Rule → Prop
  /-- Input behind a complete rule names that rule. -/
  | trailing {rule : Rule} {found : Token} : call = .whole rule →
      Names log front call (.trailingInput rule found) rule
  /-- Any other error names the innermost rule at the earliest failure; that is its own one, if no
  rule had failed before the call. -/
  | failed {error failure : SyntaxError} {rule : Rule} : error.IsInside → .failed error ∈ front →
      EarliestFailure (log ++ front) failure rule → (Quiet log → failure = error) →
      Names log front call error rule

/-- The error is about the token at an index, or, if it is an integer that does not fit, about the
one right in front of it. -/
def SyntaxError.PointsAt (error : SyntaxError) (all : List Token) (index : Nat) : Prop :=
  error.passed ≤ index ∧ all[index - error.passed]? = some error.token

/-- What a call on a session of some tokens tells about an error, after what happened before. -/
structure Session.Reports (tokens : List Token) (session : Session) (log : List Event)
    (call : Call) : Prop where
  /-- The session comes to where the steps of the rule lead. -/
  place : (session.perform call).2.stream =
    ((Script.ofRule call.rule).run session.stream).2.place
  /-- An error is left to the caller exactly if it made a rule fail and nothing is recorded. -/
  replied : ∀ error, (session.perform call).1 = .error error ↔
    .failed error ∈ session.events call ∧ NoRecord (session.events call)
  /-- An error points at the token at the place, which has not been consumed, or at the integer
  right in front of it. -/
  token : ∀ error, (session.perform call).1 = .error error ∨ .recorded error ∈ session.events call →
    ∃ index, (session.perform call).2.stream.Stands (completed tokens) index ∧
      error.PointsAt (completed tokens) index
  /-- Without a record no diagnostic is added. -/
  silent : NoRecord (session.events call) →
    (session.perform call).2.diagnostics = session.diagnostics
  /-- A record ends the call and adds one diagnostic, which names the rule to blame. -/
  named : ∀ error, .recorded error ∈ session.events call → ∃ front name,
    session.events call = front ++ [.recorded error] ∧ NoRecord front ∧
      (session.perform call).2.diagnostics =
        session.diagnostics ++ [Diagnostic.ofSyntaxError error (some name)] ∧
      Names log front call error name

/-- What calls on a session of some tokens tell about errors. -/
structure ErrorReports (tokens : List Token) : Prop where
  /-- The parsers of the grammar take the steps of their scripts. -/
  steps : ∀ rule, Grammar.reader? rule = (Script.ofRule? rule).map Script.parser
  /-- Any call reports after any calls. -/
  call : ∀ (calls : List Call) (call : Call),
    ((Session.ofTokens tokens).performAll calls).2.Reports tokens
      ((Session.ofTokens tokens).eventsAll calls) call
  /-- The diagnostic of a first call names the innermost rule of the failure that it is about. -/
  first : ∀ (call : Call) (error : SyntaxError), error.IsInside →
    .recorded error ∈ (Session.ofTokens tokens).events call → ∃ front name,
      (Session.ofTokens tokens).events call = front ++ [.recorded error] ∧
        EarliestFailure front error name ∧
        ((Session.ofTokens tokens).perform call).2.diagnostics =
          [Diagnostic.ofSyntaxError error (some name)]

/-! ## The history of failures -/

variable {log events before behind : List Event} {failed next : Option Rule} {rule : Rule}
  {outer : List Rule} {error : SyntaxError} {reply : Option SyntaxError} {added : List Diagnostic}

theorem Quiet.nil : Quiet [] :=
  ⟨[], [], rfl, .inl rfl, fun _ => List.not_mem_nil, fun _ => List.not_mem_nil⟩

theorem Quiet.append (h : Quiet log) (hfailure : NoFailure events)
    (hrecord : NoRecord events) : Quiet (log ++ events) := by
  obtain ⟨old, recent, rfl, hold, hnofailure, hnorecord⟩ := h
  exact ⟨old, recent ++ events, List.append_assoc .., hold, hnofailure.append hfailure,
    hnorecord.append hrecord⟩

/-- A record puts an end to earlier failures. -/
theorem Quiet.of_recorded (log : List Event) (error : SyntaxError) :
    Quiet (log ++ [.recorded error]) :=
  ⟨log ++ [.recorded error], [], (List.append_nil _).symm, .inr ⟨log, error, rfl⟩,
    fun _ => List.not_mem_nil, fun _ => List.not_mem_nil⟩

/-- The earliest failure stays the earliest one until an error is recorded. -/
theorem EarliestFailure.append (h : EarliestFailure log error rule) (hrecord : NoRecord events) :
    EarliestFailure (log ++ events) error rule := by
  obtain ⟨before, after, outer, rfl, hquiet, hafter, hopen⟩ := h
  exact ⟨before, after ++ events, outer, List.append_assoc .., hquiet, hafter.append hrecord, hopen⟩

/-- Where there is an earliest failure, a rule has failed since the last record. -/
theorem EarliestFailure.not_quiet (h : EarliestFailure log error rule) : ¬ Quiet log := by
  obtain ⟨before, after, -, rfl, -, hafter, -⟩ := h
  rintro ⟨old, recent, hlog, hold, hrecent, -⟩
  obtain ⟨middle, rfl, hmiddle⟩ | ⟨middle, rfl, rfl⟩ := List.append_eq_append_iff.1 hlog
  · obtain _ | ⟨_, others⟩ := middle
    · obtain rfl : .failed error :: after = recent := hmiddle
      exact hrecent error List.mem_cons_self
    · obtain ⟨rfl, rfl⟩ := List.cons.inj hmiddle
      obtain hold | ⟨front, last, hold⟩ := hold
      · exact absurd hold (List.append_ne_nil_of_right_ne_nil _ (List.cons_ne_nil _ _))
      · -- the record at the end of the old events is behind the failure
        have hlast : others.getLast?.getD (.failed error) = .recorded last := by
          simpa [List.getLast?_append, List.getLast?_cons] using congrArg List.getLast? hold
        cases hothers : others.getLast? with
        | none => simp [hothers] at hlast
        | some event =>
          obtain rfl : event = .recorded last := by simpa [hothers] using hlast
          exact hafter last (List.mem_append_left _ (List.mem_of_getLast? hothers))
  · exact hrecent error (List.mem_append_right _ List.mem_cons_self)

/-- What a session remembers after some events: all rules have been left, and a rule is remembered
if and only if one has failed since the last record. -/
structure Remembers (log : List Event) (failed : Option Rule) : Prop where
  closed : openRules [] log = []
  quiet : failed = none → Quiet log
  earliest : ∀ rule, failed = some rule → ∃ error, EarliestFailure log error rule

/-- All rules are left again when one of them fails. -/
theorem openRules_failure (hbefore : Passes [] before (rule :: outer))
    (hbehind : Passes (rule :: outer) behind []) (error : SyntaxError) :
    openRules [] (before ++ .failed error :: behind) = [] := by
  rw [openRules_append, hbefore.openRules_eq]
  exact hbehind.openRules_eq

namespace Remembers

theorem nil : Remembers [] none := ⟨rfl, fun _ => .nil, nofun⟩

/-- Nothing is remembered behind a record. -/
theorem of_recorded (hclosed : openRules [] log = []) (error : SyntaxError) :
    Remembers (log ++ [.recorded error]) none where
  closed := by rw [openRules_append, hclosed]; rfl
  quiet _ := .of_recorded log error
  earliest := nofun

theorem closed_append (h : Remembers log failed) (hevents : openRules [] events = []) :
    openRules [] (log ++ events) = [] := by
  rw [openRules_append, h.closed, hevents]

/-- Nothing stands in the way of the rules. -/
theorem passes (h : Remembers log failed) (hevents : Passes [] events []) :
    Remembers (log ++ events) failed where
  closed := h.closed_append hevents.openRules_eq
  quiet hnone := (h.quiet hnone).append hevents.noFailure hevents.noRecord
  earliest name hname := by
    obtain ⟨failure, hfailure⟩ := h.earliest name hname
    exact ⟨failure, hfailure.append hevents.noRecord⟩

/-- When a rule fails, the rule that is remembered is that of the earliest failure.  This failure is
the earliest one itself if none was remembered. -/
theorem failure (h : Remembers log failed) (hbefore : Passes [] before (rule :: outer))
    (hbehind : Passes (rule :: outer) behind []) (error : SyntaxError) :
    ∃ name failure, (failed <|> some rule) = some name ∧
      EarliestFailure (log ++ (before ++ .failed error :: behind)) failure name ∧
      (failed = none → failure = error) := by
  cases failed with
  | some name =>
    obtain ⟨failure, hfailure⟩ := h.earliest name rfl
    have hevents := hbefore.noRecord.append (hbehind.noRecord.failed error)
    exact ⟨name, failure, rfl, hfailure.append hevents, nofun⟩
  | none =>
    have hquiet := (h.quiet rfl).append hbefore.noFailure hbefore.noRecord
    have hopen : openRules [] (log ++ before) = rule :: outer := by
      rw [openRules_append, h.closed, hbefore.openRules_eq]
    refine ⟨rule, error, rfl, ⟨log ++ before, behind, outer, ?_, hquiet, hbehind.noRecord, hopen⟩,
      fun _ => rfl⟩
    rw [List.append_assoc]

end Remembers

/-! ## What one call can do -/

/-- What one call can do to the remembered rule and to the diagnostics, together with what happens
in it and with the error that is left to the caller. -/
inductive Session.Step (call : Call) (failed : Option Rule) :
    List Event → Option SyntaxError → Option Rule → List Diagnostic → Prop
  /-- Nothing stands in the way. -/
  | read {events : List Event} : Passes [] events [] → Step call failed events none failed []
  /-- The rule is complete, and input is left that was to be read. -/
  | trailing {events : List Event} {rule : Rule} {found : Token} : Passes [] events [] →
      call = .whole rule →
      Step call failed (events ++ [.recorded (.trailingInput rule found)]) none none
        [Diagnostic.ofSyntaxError (.trailingInput rule found) (some rule)]
  /-- A rule fails, and the error is left to the caller. -/
  | left {before behind : List Event} {rule : Rule} {outer : List Rule} {error : SyntaxError} :
      Passes [] before (rule :: outer) → Passes (rule :: outer) behind [] → error.IsInside →
      Step call failed (before ++ .failed error :: behind) (some error) (failed <|> some rule) []
  /-- A rule fails, and the error is recorded. -/
  | recorded {before behind : List Event} {rule : Rule} {outer : List Rule} {error : SyntaxError} :
      Passes [] before (rule :: outer) → Passes (rule :: outer) behind [] → error.IsInside →
      Step call failed (before ++ .failed error :: behind ++ [.recorded error]) none none
        [Diagnostic.ofSyntaxError error (failed <|> some rule)]

namespace Session

variable (session : Session) {p : Parser Fragment} {call : Call} {failure : Failure} {rest : Stream}

theorem call_of_fail (hp : Grammar.reader? rule = some p)
    (h : Grammar.pass rule rule session.stream = .fail failure rest) :
    session.call rule p =
      (.error failure.error, (session.moveTo rest).remember failure.rule) := by
  rw [Grammar.pass_of_reader? hp, Parser.bind_apply] at h
  rw [Session.call]
  cases hread : p rule session.stream with
  | ok value place =>
    rw [hread] at h
    cases h
  | fail other place =>
    rw [hread] at h
    cases h
    rfl

theorem call_of_ok (hp : Grammar.reader? rule = some p)
    (h : Grammar.pass rule rule session.stream = .ok () rest) :
    ∃ value, session.call rule p = (.ok value, session.moveTo rest) := by
  rw [Grammar.pass_of_reader? hp, Parser.bind_apply] at h
  rw [Session.call]
  cases hread : p rule session.stream with
  | fail other place =>
    rw [hread] at h
    cases h
  | ok value place =>
    rw [hread] at h
    cases h
    exact ⟨value, rfl⟩

theorem readModel_of_fail (h : Grammar.pass .model .model session.stream = .fail failure rest) :
    session.readModel.2 = ((session.moveTo rest).remember failure.rule).record failure.error := by
  rw [pass_model] at h
  rw [readModel]
  generalize collect (fun s => !s.atEnd) Grammar.readApplication .model session.stream = apps at h ⊢
  obtain ⟨items, _ | other, place⟩ := apps
  · cases h
  · cases h
    rfl

/-- Reading a whole file is stopped by failures only. -/
theorem readModel_of_ok (h : Grammar.pass .model .model session.stream = .ok () rest) :
    rest.atEnd = true ∧ session.readModel.2 = session.moveTo rest := by
  have hmistake := mistake?_model session.stream
  rw [mistake?, h] at hmistake
  rw [pass_model] at h
  rw [readModel]
  generalize collect (fun s => !s.atEnd) Grammar.readApplication .model session.stream = apps
    at h hmistake ⊢
  obtain ⟨items, _ | other, place⟩ := apps
  · cases h
    refine ⟨?_, rfl⟩
    by_contra hend
    simp [hend] at hmistake
  · cases h

/-- A rule of a call fails. -/
theorem perform_of_fail (h : Grammar.pass call.rule call.rule session.stream = .fail failure rest) :
    (session.perform call).2 =
        (if call.recording then ((session.moveTo rest).remember failure.rule).record failure.error
          else (session.moveTo rest).remember failure.rule) ∧
      (session.perform call).1.error? = if call.recording then none else some failure.error := by
  cases call with
  | direct rule =>
    rw [perform, callRule]
    cases hp : Grammar.reader? rule with
    | some p =>
      have hne : rule ≠ .model := by
        rintro rfl
        cases hp
      simp [session.call_of_fail hp h, Call.recording, hne, Reply.error?]
    | none =>
      obtain rfl := eq_model_of_reader? hp
      simp [session.readModel_of_fail h, Call.recording, Reply.error?]
  | whole rule =>
    rw [perform, readRule]
    cases hp : Grammar.reader? rule with
    | some p => simp [readWhole, session.call_of_fail hp h, Call.recording, Reply.error?]
    | none =>
      obtain rfl := eq_model_of_reader? hp
      simp [session.readModel_of_fail h, Call.recording, Reply.error?]

/-- The rule of a call is complete, and no input is left that was to be read. -/
theorem perform_of_ok (h : Grammar.pass call.rule call.rule session.stream = .ok () rest)
    (hend : call.recording = true → rest.atEnd = true) :
    (session.perform call).2 = session.moveTo rest ∧ (session.perform call).1.error? = none := by
  cases call with
  | direct rule =>
    rw [perform, callRule]
    cases hp : Grammar.reader? rule with
    | some p =>
      obtain ⟨value, hvalue⟩ := session.call_of_ok hp h
      simp [hvalue, Reply.error?]
    | none =>
      obtain rfl := eq_model_of_reader? hp
      simp [(session.readModel_of_ok h).2, Reply.error?]
  | whole rule =>
    rw [perform, readRule]
    cases hp : Grammar.reader? rule with
    | some p =>
      obtain ⟨value, hvalue⟩ := session.call_of_ok hp h
      simp [readWhole, hvalue, moveTo, hend rfl, Reply.error?]
    | none =>
      obtain rfl := eq_model_of_reader? hp
      simp [(session.readModel_of_ok h).2, Reply.error?]

/-- The rule of a call is complete, and input is left that was to be read. -/
theorem perform_of_trailing (h : Grammar.pass call.rule call.rule session.stream = .ok () rest)
    (hleft : ¬ (call.recording = true → rest.atEnd = true)) :
    call = .whole call.rule ∧
      (session.perform call).2 =
        { session.moveTo rest with failed := some call.rule }.record
          (.trailingInput call.rule rest.current) ∧
      (session.perform call).1.error? = none := by
  obtain ⟨hrecording, hend⟩ := Classical.not_imp.1 hleft
  have hne : call.rule ≠ .model := by
    intro hmodel
    rw [hmodel] at h
    exact hend (session.readModel_of_ok h).1
  cases call with
  | direct rule => exact absurd (of_decide_eq_true hrecording) hne
  | whole rule =>
    rw [perform, readRule]
    cases hp : Grammar.reader? rule with
    | some p =>
      obtain ⟨value, hvalue⟩ := session.call_of_ok hp h
      simp [readWhole, hvalue, moveTo, hend, Reply.error?, Call.rule]
    | none => exact absurd (eq_model_of_reader? hp) hne

theorem recorded?_of_fail
    (h : Grammar.pass call.rule call.rule session.stream = .fail failure rest) :
    session.recorded? call = if call.recording then some failure.error else none := by
  rw [recorded?, mistake?, h]
  rfl

theorem recorded?_of_ok (h : Grammar.pass call.rule call.rule session.stream = .ok () rest)
    (hend : call.recording = true → rest.atEnd = true) : session.recorded? call = none := by
  rw [recorded?, mistake?, h]
  cases hrecording : call.recording with
  | false => rfl
  | true => simp [hend hrecording]

theorem recorded?_of_trailing (h : Grammar.pass call.rule call.rule session.stream = .ok () rest)
    (hleft : ¬ (call.recording = true → rest.atEnd = true)) :
    session.recorded? call = some (.trailingInput call.rule rest.current) := by
  obtain ⟨hrecording, hend⟩ := Classical.not_imp.1 hleft
  simp [recorded?, mistake?, h, hrecording, hend]

/-- One call does one of these things. -/
theorem perform_step (call : Call) : ∃ added,
    (session.perform call).2.diagnostics = session.diagnostics ++ added ∧
      Step call session.failed (session.events call) (session.perform call).1.error?
        (session.perform call).2.failed added := by
  have htells := Script.tells (Script.ofRule call.rule) call.rule session.stream
  rw [Script.parser_ofRule] at htells
  rw [events]
  generalize (Script.ofRule call.rule).run session.stream = traced at htells
  generalize hpass : Grammar.pass call.rule call.rule session.stream = outcome at htells
  cases htells with
  | @ok events _ rest hevents =>
    by_cases hend : call.recording = true → rest.atEnd = true
    · obtain ⟨hnext, hreply⟩ := session.perform_of_ok hpass hend
      rw [hnext, hreply, session.recorded?_of_ok hpass hend]
      refine ⟨[], (List.append_nil _).symm, ?_⟩
      simpa [moveTo] using Step.read hevents
    · obtain ⟨hwhole, hnext, hreply⟩ := session.perform_of_trailing hpass hend
      rw [hnext, hreply, session.recorded?_of_trailing hpass hend]
      exact ⟨_, rfl, .trailing hevents hwhole⟩
  | @fail before behind opened error rest hbefore hbehind hne hinside =>
    obtain ⟨hnext, hreply⟩ := session.perform_of_fail hpass
    obtain _ | ⟨rule, outer⟩ := opened
    · exact absurd rfl (hne (Script.ofRule_guarded call.rule))
    rw [hnext, hreply, session.recorded?_of_fail hpass]
    cases call.recording with
    | true => exact ⟨_, rfl, .recorded hbefore hbehind hinside⟩
    | false =>
      refine ⟨[], (List.append_nil _).symm, ?_⟩
      simpa [remember, moveTo] using Step.left hbefore hbehind hinside

/-! ## What is remembered across calls -/

namespace Step

/-- A call goes on to remember the earliest failure. -/
theorem remembers (hstep : Step call failed events reply next added) (h : Remembers log failed) :
    Remembers (log ++ events) next := by
  cases hstep with
  | read hevents => exact h.passes hevents
  | trailing hevents _ =>
    rw [← List.append_assoc]
    exact .of_recorded (h.closed_append hevents.openRules_eq) _
  | left hbefore hbehind _ =>
    obtain ⟨name, failure, hname, hfailure, -⟩ := h.failure hbefore hbehind _
    rw [hname]
    refine ⟨h.closed_append (openRules_failure hbefore hbehind _), nofun, ?_⟩
    rintro _ ⟨⟩
    exact ⟨failure, hfailure⟩
  | recorded hbefore hbehind _ =>
    rw [← List.append_assoc]
    exact .of_recorded (h.closed_append (openRules_failure hbefore hbehind _)) _

/-- An error is left to the caller exactly if it made a rule fail and nothing is recorded. -/
theorem replied (hstep : Step call failed events reply next added) :
    reply = some error ↔ .failed error ∈ events ∧ NoRecord events := by
  cases hstep with
  | read hevents => exact ⟨nofun, fun h => absurd h.1 (hevents.noFailure error)⟩
  | trailing | recorded =>
    exact ⟨nofun, fun h => absurd (List.mem_append_right _ List.mem_cons_self) (h.2 _)⟩
  | @left before behind rule outer other hbefore hbehind _ =>
    constructor
    · rintro ⟨⟩
      exact ⟨List.mem_append_right _ List.mem_cons_self,
        hbefore.noRecord.append (hbehind.noRecord.failed error)⟩
    · rintro ⟨hmem, -⟩
      obtain hmem | hmem := List.mem_append.1 hmem
      · exact absurd hmem (hbefore.noFailure error)
      · obtain heq | hmem := List.mem_cons.1 hmem
        · exact congrArg some (Event.failed.inj heq).symm
        · exact absurd hmem (hbehind.noFailure error)

/-- Diagnostics come with records. -/
theorem silent (hstep : Step call failed events reply next added) (hnone : NoRecord events) :
    added = [] := by
  cases hstep with
  | read => rfl
  | left => rfl
  | trailing | recorded => exact absurd (List.mem_append_right _ List.mem_cons_self) (hnone _)

/-- What is recorded is what was met in front of it. -/
theorem named (hstep : Step call failed events reply next added) (h : Remembers log failed)
    (hmem : .recorded error ∈ events) : ∃ front name, events = front ++ [.recorded error] ∧
      NoRecord front ∧ added = [Diagnostic.ofSyntaxError error (some name)] ∧
      Names log front call error name := by
  cases hstep with
  | read hevents => exact absurd hmem (hevents.noRecord error)
  | left hbefore hbehind _ =>
    exact absurd hmem ((hbefore.noRecord.append (hbehind.noRecord.failed _)) error)
  | @trailing events rule found hevents hwhole =>
    obtain hmem | hmem := List.mem_append.1 hmem
    · exact absurd hmem (hevents.noRecord error)
    · cases List.mem_singleton.1 hmem
      exact ⟨events, rule, rfl, hevents.noRecord, rfl, .trailing hwhole⟩
  | @recorded before behind rule outer other hbefore hbehind hinside =>
    have hfront := hbefore.noRecord.append (hbehind.noRecord.failed other)
    obtain hmem | hmem := List.mem_append.1 hmem
    · exact absurd hmem (hfront error)
    · cases List.mem_singleton.1 hmem
      obtain ⟨name, failure, hname, hfailure, hown⟩ := h.failure hbefore hbehind error
      refine ⟨_, name, rfl, hfront, by rw [hname], .failed hinside ?_ hfailure ?_⟩
      · exact List.mem_append_right _ List.mem_cons_self
      · intro hquiet
        refine hown ?_
        cases hfailed : failed with
        | none => rfl
        | some earlier =>
          obtain ⟨_, hearlier⟩ := h.earliest earlier hfailed
          exact absurd hquiet hearlier.not_quiet

end Step

/-- Any calls leave a session that remembers the earliest failure. -/
theorem performAll_remembers (calls : List Call) (h : Remembers log session.failed) :
    Remembers (log ++ session.eventsAll calls) (session.performAll calls).2.failed := by
  induction calls generalizing session log with
  | nil => simpa [eventsAll, performAll] using h
  | cons call others ih =>
    obtain ⟨added, -, hstep⟩ := session.perform_step call
    rw [eventsAll, ← List.append_assoc]
    exact ih (session.perform call).2 (hstep.remembers h)

/-! ## The token -/

/-- An error that is left to the caller is the mistake that reading by the rule meets. -/
theorem mistake_of_replied (h : (session.perform call).1 = .error error) :
    (mistake? call.rule session.stream).map Failure.error = some error := by
  have hreply := Reply.error?_eq_some_iff.2 h
  rw [mistake?]
  cases hpass : Grammar.pass call.rule call.rule session.stream with
  | fail failure rest =>
    rw [(session.perform_of_fail hpass).2] at hreply
    cases hrecording : call.recording <;> simp_all
  | ok value rest =>
    by_cases hend : call.recording = true → rest.atEnd = true
    · rw [(session.perform_of_ok hpass hend).2] at hreply
      cases hreply
    · rw [(session.perform_of_trailing hpass hend).2.2] at hreply
      cases hreply

/-- So is an error that is recorded. -/
theorem mistake_of_recorded (h : .recorded error ∈ session.events call) :
    (mistake? call.rule session.stream).map Failure.error = some error := by
  have hsteps := (Script.tells (Script.ofRule call.rule) call.rule session.stream).noRecord
  rw [events, List.mem_append] at h
  obtain h | h := h
  · exact absurd h (hsteps error)
  · rw [recorded?] at h
    cases hrecording : call.recording <;> simp_all

/-- A mistake is about the token that the session stands at, or right behind. -/
theorem pointsAt_of_mistake {tokens read : List Token}
    (hread : (Stream.ofTokens tokens).Reads read session.stream)
    (h : (mistake? call.rule session.stream).map Failure.error = some error) :
    ∃ index, (session.perform call).2.stream.Stands (completed tokens) index ∧
      error.PointsAt (completed tokens) index := by
  obtain ⟨failure, hmistake, rfl⟩ := Option.map_eq_some_iff.1 h
  obtain ⟨more, hmore, hstops, -⟩ := mistake?_stops hmistake
  obtain ⟨front, -, hlength, behind, hfront⟩ := hstops.reported
  obtain ⟨-, -, others, hall⟩ := Stream.completed_eq tokens
  have hmiddle := hread.append hmore
  have htoken : completed tokens =
      (read ++ front) ++ failure.error.token :: (behind ++ others) := by
    rw [hall, hmiddle.ahead, ← hmiddle.final, List.append_cons, List.append_assoc read,
      List.append_assoc read, hfront]
    simp
  have hindex : (read ++ more).length = (read ++ front).length + failure.error.passed := by
    rw [List.length_append, List.length_append, hlength, Nat.add_assoc]
  rw [perform_stream]
  refine ⟨_, Stream.stands_of_reads hmiddle, hindex ▸ Nat.le_add_left _ _, ?_⟩
  rw [hindex, Nat.add_sub_cancel, htoken, List.getElem?_append_right (Nat.le_refl _), Nat.sub_self]
  rfl

/-- The session comes to where the steps of the rule of a call lead. -/
theorem perform_place (call : Call) : (session.perform call).2.stream =
    ((Script.ofRule call.rule).run session.stream).2.place := by
  have htells := Script.tells (Script.ofRule call.rule) call.rule session.stream
  rw [Script.parser_ofRule] at htells
  rw [perform_stream]
  generalize (Script.ofRule call.rule).run session.stream = traced at htells
  generalize Grammar.pass call.rule call.rule session.stream = outcome at htells
  cases htells <;> rfl

/-- A call reports, after events behind which the session remembers the earliest failure. -/
theorem perform_reports {tokens read : List Token} (call : Call)
    (hread : (Stream.ofTokens tokens).Reads read session.stream)
    (hremembers : Remembers log session.failed) : session.Reports tokens log call := by
  obtain ⟨added, hadded, hstep⟩ := session.perform_step call
  refine ⟨session.perform_place call, ?_, ?_, ?_, ?_⟩
  · intro error
    rw [← Reply.error?_eq_some_iff]
    exact hstep.replied
  · rintro error (hreply | hrecorded)
    · exact session.pointsAt_of_mistake hread (session.mistake_of_replied hreply)
    · exact session.pointsAt_of_mistake hread (session.mistake_of_recorded hrecorded)
  · intro hnone
    rw [hadded, hstep.silent hnone, List.append_nil]
  · intro error hrecorded
    rw [hadded]
    obtain ⟨front, name, hevents, hfront, rfl, hnames⟩ := hstep.named hremembers hrecorded
    exact ⟨front, name, hevents, hfront, rfl, hnames⟩

end Session

/-- Errors point at the token that stands in the way, and diagnostics name the innermost rule at the
earliest failure that has not been recorded. -/
theorem error_reports (tokens : List Token) : ErrorReports tokens where
  steps := Script.reader?_eq
  call := by
    intro calls call
    obtain ⟨read, hread⟩ := (Session.ofTokens tokens).performAll_reads calls (.refl _)
    have hremembers : Remembers ([] ++ (Session.ofTokens tokens).eventsAll calls) _ :=
      Session.performAll_remembers _ calls .nil
    exact Session.perform_reports _ call hread hremembers
  first := by
    intro call error hinside hrecorded
    have hreports := (Session.ofTokens tokens).perform_reports call (.refl _) .nil
    obtain ⟨front, name, hevents, -, hdiagnostics, hnames⟩ := hreports.named error hrecorded
    refine ⟨front, name, hevents, ?_, hdiagnostics⟩
    cases hnames with
    | trailing => exact absurd rfl (hinside _ _)
    | failed _ _ hearliest hown =>
      obtain rfl := hown .nil
      exact hearliest

/-- The failure that a diagnostic is about need not be the earliest: the error of the first call was
left to the caller, and the diagnostic of the second one names the rule of the first. -/
example : ((Session.ofTokens (tokenize "]").tokens).performAll
    [.direct .typeRef, .whole .application]).2.diagnostics.map Diagnostic.rule =
      [some .typeRef] := by decide +kernel

end SyslModel
