import SyslModel.Parsed
import SyslModel.Proofs.Grammar.Cursor
import SyslModel.Proofs.Grammar.Mistake
import SyslModel.Proofs.Grammar.Spans
/-!
# Calls on a session

What one call does to a session, whichever calls came before it, and which values calls return.
-/

namespace SyslModel

/-!
## What a call does

A session may be called by any rules in any order, also after calls that failed and left tokens
consumed, and on tokens in any order.  `Session.CallSpec` says what one call does to a session that
any calls led to, and `session_calls` that every call does.

The place only moves forward, and never behind the first end of the file.  It moves token by token,
by the steps of the rule on a cursor in the whole list.  One entry at most is recorded, and it is
recorded where a caller can tell: when reading the whole input gives nothing, or when the tokens
ahead are no run of applications and a whole file is read.  A call that fails without recording
leaves the diagnostics alone.
-/

section Calls

open SyslModel.Parser (collect)

/-- A call on a session. -/
inductive Call where
  /-- Reads by a rule, wherever it ends. -/
  | direct (rule : Rule)
  /-- Reads the whole input by a rule. -/
  | whole (rule : Rule)
  deriving DecidableEq, Inhabited

/-- The rule that a call reads by. -/
def Call.rule : Call → Rule
  | .direct rule => rule
  | .whole rule => rule

/-- What a call returns. -/
inductive Reply where
  /-- A fragment. -/
  | value (fragment : Fragment)
  /-- An error, which is left to the caller. -/
  | error (error : SyntaxError)
  /-- Nothing; the error has been recorded. -/
  | nothing
  deriving DecidableEq, Inhabited

/-- The steps of a rule go past what the rule reads. -/
theorem Script.parser_ofRule (rule : Rule) :
    (Script.ofRule rule).parser = Grammar.pass rule := by
  rw [Grammar.pass, Script.reader?_eq, Script.ofRule]
  cases Script.ofRule? rule with
  | some script => rfl
  | none => simp

/-- Every rule but that of whole files takes a token. -/
theorem Grammar.ofRule_tokens_ne_nil {rule : Rule} (hne : rule ≠ .model)
    (d : Derivation (Production.ofRule rule)) : d.tokens ≠ [] := by
  match rule, d with
  | .model, _ => exact absurd rfl hne
  | .application, _ | .attributes, _ | .attribute, _ | .fieldAttrs, _ | .endpoint, _ =>
    exact List.cons_ne_nil _ _
  | .declaration, d => exact declaration_tokens_ne_nil d
  | .enumItem, d => exact enumItem_tokens_ne_nil d
  | .field, d => exact field_tokens_ne_nil d
  | .typeRef, d => rcases d with t | t | t <;> exact List.cons_ne_nil _ _
  | .fieldAttr, d => exact List.append_ne_nil_of_right_ne_nil _ (List.cons_ne_nil _ _)

namespace Session

/-- One call. -/
def perform (session : Session) : Call → Reply × Session
  | .direct rule =>
    match session.callRule rule with
    | (.ok fragment, next) => (.value fragment, next)
    | (.error error, next) => (.error error, next)
  | .whole rule =>
    match session.readRule rule with
    | (some fragment, next) => (.value fragment, next)
    | (none, next) => (.nothing, next)

/-- Calls in turn, each on the session that the one before left. -/
def performAll (session : Session) : List Call → List Reply × Session
  | [] => ([], session)
  | call :: others =>
    let (reply, next) := session.perform call
    let (replies, last) := next.performAll others
    (reply :: replies, last)

/-- A call records an entry: reading the whole input gives nothing, or a whole file is read where
the tokens ahead are no run of complete applications.  An error that is left to the caller is not
recorded. -/
def Records (session : Session) (call : Call) : Prop :=
  if call.rule = .model then
    ¬ ∃ ds : Derivation Production.model, ds.tokens = session.stream.ahead
  else (session.perform call).1 = .nothing

/-- What a call does to a session of some tokens. -/
structure CallSpec (tokens : List Token) (session : Session) (call : Call) : Prop where
  /-- The session stands in the list of tokens before and after the call, and does not go back.  A
  value other than that of a whole file takes a token. -/
  cursor : ∃ index index', session.stream.Stands (completed tokens) index ∧
    (session.perform call).2.stream.Stands (completed tokens) index' ∧ index ≤ index' ∧
    (call.rule ≠ .model → ∀ fragment, (session.perform call).1 = .value fragment → index < index')
  /-- Token by token: from a cursor that sees what the session does, the steps of the rule lead to
  one place, which sees what the session does behind the call.  They meet the error that is left to
  the caller, if one is. -/
  steps : ∃ (c c' : Cursor (completed tokens)) (result : Except SyntaxError Unit),
    session.stream.Views c ∧ (session.perform call).2.stream.Views c' ∧
    (∀ other place, (Script.ofRule call.rule).Leads c other place ↔
      other = result ∧ place = c') ∧
    ∀ error, (session.perform call).1 = .error error → result = .error error
  /-- Diagnostics are added only, one if the call records an entry and else none. -/
  entries : ∃ added, (session.perform call).2.diagnostics = session.diagnostics ++ added ∧
    (session.Records call → added.length = 1) ∧ (¬ session.Records call → added = [])
  /-- Reading a whole file up to a place in front of the end records an entry. -/
  short : call.rule = .model → (session.perform call).2.stream.atEnd = false →
    session.Records call
  /-- If the spans of the tokens are ordered, so are all spans in the value. -/
  spans : (∀ t ∈ tokens, t.span.Ordered) → ∀ fragment, (session.perform call).1 = .value fragment →
    fragment.SpansOrdered

/-! ### What a call reads -/

variable (session : Session)

/-- A rule of its own, called by itself. -/
theorem call_spec {rule : Rule} {p : Parser Fragment} (h : Grammar.reader? rule = some p) :
    (session.call rule p).2.stream = (Grammar.pass rule rule session.stream).place ∧
    (session.call rule p).2.diagnostics = session.diagnostics ∧
    ∀ fragment, (session.call rule p).1 = .ok fragment →
      p rule session.stream = .ok fragment (session.call rule p).2.stream := by
  have hpass : Grammar.pass rule rule session.stream = _ :=
    congrFun (congrFun (Grammar.pass_of_reader? h) rule) session.stream
  rw [Parser.bind_apply] at hpass
  rw [call, hpass]
  cases p rule session.stream with
  | ok x rest =>
    refine ⟨rfl, rfl, fun fragment hx => ?_⟩
    obtain rfl := Except.ok.inj hx
    rfl
  | fail failure rest => exact ⟨rfl, rfl, fun fragment hx => by cases hx⟩

/-- An error that a rule leaves to its caller is the one that its parser met. -/
theorem call_error {rule : Rule} {p : Parser Fragment} (h : Grammar.reader? rule = some p)
    {error : SyntaxError} (herror : (session.call rule p).1 = .error error) :
    (Grammar.pass rule rule session.stream).result = .error error := by
  rw [Grammar.pass_of_reader? h, Parser.bind_apply]
  rw [call] at herror
  cases hp : p rule session.stream with
  | ok x rest =>
    rw [hp] at herror
    cases herror
  | fail failure rest =>
    rw [hp] at herror
    exact congrArg Except.error (Except.error.inj herror)

/-- A rule of its own that reads the whole input has its value from its parser. -/
theorem readWhole_ok {rule : Rule} {p : Parser Fragment} {fragment : Fragment}
    (h : (session.readWhole rule p).1 = some fragment) :
    p rule session.stream = .ok fragment (session.readWhole rule p).2.stream := by
  rw [readWhole, call] at h ⊢
  cases hp : p rule session.stream with
  | fail failure rest =>
    rw [hp] at h
    cases h
  | ok x rest =>
    rw [hp] at h
    by_cases hend : rest.atEnd = true
    · obtain rfl : x = fragment := by simpa [moveTo, hend] using h
      simp [moveTo, hend]
    · simp [moveTo, hend] at h

theorem perform_direct (rule : Rule) :
    (session.perform (.direct rule)).2 = (session.callRule rule).2 ∧
      (session.perform (.direct rule)).1 ≠ .nothing ∧
      ∀ fragment, (session.perform (.direct rule)).1 = .value fragment →
        (session.callRule rule).1 = .ok fragment := by
  rw [perform]
  cases hcall : session.callRule rule with
  | mk result next =>
    cases result with
    | ok x =>
      refine ⟨rfl, nofun, fun fragment hx => ?_⟩
      obtain rfl := Reply.value.inj hx
      rfl
    | error e => exact ⟨rfl, nofun, fun fragment hx => by cases hx⟩

theorem perform_whole (rule : Rule) :
    (session.perform (.whole rule)).2 = (session.readRule rule).2 ∧
      ((session.perform (.whole rule)).1 = .nothing ↔ (session.readRule rule).1 = none) ∧
      ∀ fragment, (session.perform (.whole rule)).1 = .value fragment →
        (session.readRule rule).1 = some fragment := by
  rw [perform]
  cases hread : session.readRule rule with
  | mk result next =>
    cases result with
    | some x =>
      refine ⟨rfl, ⟨nofun, nofun⟩, fun fragment hx => ?_⟩
      obtain rfl := Reply.value.inj hx
      rfl
    | none => exact ⟨rfl, ⟨fun _ => rfl, fun _ => rfl⟩, fun fragment hx => by cases hx⟩

/-- A call by a rule of its own that has a value has it from the parser of the rule. -/
theorem perform_ok {call : Call} {p : Parser Fragment} (h : Grammar.reader? call.rule = some p)
    {fragment : Fragment} (hvalue : (session.perform call).1 = .value fragment) :
    p call.rule session.stream = .ok fragment (session.perform call).2.stream := by
  cases call with
  | direct rule =>
    obtain ⟨hnext, -, hreply⟩ := session.perform_direct rule
    have hok := hreply fragment hvalue
    rw [hnext]
    rw [callRule, show Grammar.reader? rule = some p from h] at hok ⊢
    exact (session.call_spec h).2.2 fragment hok
  | whole rule =>
    obtain ⟨hnext, -, hreply⟩ := session.perform_whole rule
    have hsome := hreply fragment hvalue
    have hread : session.readRule rule = session.readWhole rule p := readRule_eq_readWhole h session
    rw [hnext, hread]
    rw [hread] at hsome
    exact session.readWhole_ok hsome

/-- What is read of the tokens, whether or not the call fails. -/
theorem perform_stream (call : Call) :
    (session.perform call).2.stream =
      (Grammar.pass call.rule call.rule session.stream).place := by
  cases call with
  | whole rule =>
    rw [(session.perform_whole rule).1]
    exact session.readRule_stream rule
  | direct rule =>
    rw [(session.perform_direct rule).1, callRule]
    cases h : Grammar.reader? rule with
    | some p => exact (session.call_spec h).1
    | none =>
      obtain rfl := eq_model_of_reader? h
      exact session.readModel_stream

/-- An error in a reply was met by the steps of the rule. -/
theorem perform_error {call : Call} {error : SyntaxError}
    (herror : (session.perform call).1 = .error error) :
    (Grammar.pass call.rule call.rule session.stream).result = .error error := by
  cases call with
  | whole rule =>
    rw [perform] at herror
    cases hread : session.readRule rule with
    | mk value next =>
      rw [hread] at herror
      cases value <;> cases herror
  | direct rule =>
    rw [perform] at herror
    cases hcall : session.callRule rule with
    | mk result next =>
      rw [hcall] at herror
      cases result with
      | ok x => cases herror
      | error e =>
        obtain rfl := Reply.error.inj herror
        cases h : Grammar.reader? rule with
        | none =>
          rw [callRule, h] at hcall
          cases hcall
        | some p =>
          rw [callRule, h] at hcall
          exact session.call_error h (congrArg Prod.fst hcall)

/-! ### What a call records -/

/-- Where a whole file is read, an entry is recorded exactly if there is a mistake. -/
theorem records_model_iff {call : Call} (hmodel : call.rule = .model) :
    session.Records call ↔ mistake? .model session.stream ≠ none := by
  rw [Records, if_pos hmodel]
  exact not_congr (@mistake?_eq_none_iff .model _).symm

/-- An entry for a mistake is added where something is recorded, if that is where there is one. -/
theorem entries_of_iff {diagnostics next : List Diagnostic} {mistake : Option Failure}
    {recorded : Prop} {name : Rule} (hnext : next = diagnostics ++ entry mistake name)
    (hiff : recorded ↔ mistake ≠ none) :
    ∃ added, next = diagnostics ++ added ∧
      (recorded → added.length = 1) ∧ (¬ recorded → added = []) := by
  refine ⟨entry mistake name, hnext, ?_, ?_⟩ <;> rw [hiff] <;>
    cases mistake <;> simp [entry]

/-- A call records one entry, or none. -/
theorem perform_entries (call : Call) :
    ∃ added, (session.perform call).2.diagnostics = session.diagnostics ++ added ∧
      (session.Records call → added.length = 1) ∧ (¬ session.Records call → added = []) := by
  by_cases hmodel : call.rule = .model
  · obtain ⟨name, hname⟩ := session.readModel_diagnostics
    have hiff := session.records_model_iff hmodel
    cases call with
    | direct rule =>
      obtain rfl : rule = .model := hmodel
      rw [(session.perform_direct .model).1]
      exact entries_of_iff hname hiff
    | whole rule =>
      obtain rfl : rule = .model := hmodel
      rw [(session.perform_whole .model).1]
      exact entries_of_iff hname hiff
  · have hrecords : session.Records call ↔ (session.perform call).1 = .nothing := by
      rw [Records, if_neg hmodel]
    cases call with
    | direct rule =>
      obtain ⟨hnext, hreply, -⟩ := session.perform_direct rule
      refine ⟨[], ?_, fun h => absurd (hrecords.1 h) hreply, fun _ => rfl⟩
      rw [hnext, List.append_nil, callRule]
      cases h : Grammar.reader? rule with
      | some p => exact (session.call_spec h).2.1
      | none => exact absurd (eq_model_of_reader? h) hmodel
    | whole rule =>
      obtain ⟨hnext, hnothing, -⟩ := session.perform_whole rule
      obtain ⟨name, hname⟩ := session.readRule_diagnostics rule
      rw [hnext]
      exact entries_of_iff hname
        (hrecords.trans (hnothing.trans (session.readRule_eq_none_iff hmodel)))

/-! ### What any call does -/

/-- A value other than that of a whole file is what a derivation of the tokens read means. -/
theorem perform_value {call : Call} (hne : call.rule ≠ .model) {fragment : Fragment}
    (hvalue : (session.perform call).1 = .value fragment) :
    ∃ d : Derivation (Production.ofRule call.rule),
      session.stream.Reads d.tokens (session.perform call).2.stream ∧
        fragment = Meaning.ofRule session.stream.final call.rule d := by
  cases h : Grammar.reader? call.rule with
  | none => exact absurd (eq_model_of_reader? h) hne
  | some p => exact (reader_recognises session.stream.final h).sound (session.perform_ok h hvalue)

/-- The value of a whole file keeps the applications that were complete. -/
theorem perform_model {call : Call} (hmodel : call.rule = .model) {fragment : Fragment}
    (hvalue : (session.perform call).1 = .value fragment) :
    ∃ ds : Derivation Production.model, ds.tokens <:+: session.stream.ahead ∧
      fragment = .model ⟨Meaning.applications ds,
        (session.perform call).2.stream.spanFrom session.stream.current.span⟩ := by
  have hread : fragment = .model session.readModel.1 ∧
      (session.perform call).2 = session.readModel.2 := by
    cases call with
    | direct rule =>
      obtain rfl : rule = .model := hmodel
      exact ⟨(Reply.value.inj hvalue).symm, rfl⟩
    | whole rule =>
      obtain rfl : rule = .model := hmodel
      exact ⟨(Reply.value.inj hvalue).symm, rfl⟩
  obtain ⟨ds, middle, hitems, hds, -⟩ := @Recognises.collect_sound _ _ _ (fun s => !s.atEnd) _ _
    Grammar.readApplication_recognises .model session.stream
  refine ⟨ds, ⟨[], middle.ahead, hds.ahead.symm⟩, ?_⟩
  rw [hread.1, hread.2, readModel]
  cases (collect (fun s => !s.atEnd) Grammar.readApplication .model session.stream).failure <;>
    simp only [hitems] <;> rfl

/-- The spans in a value are ordered, if those of the tokens ahead and of the end are. -/
theorem perform_spans {call : Call} (htokens : ∀ t ∈ session.stream.ahead, t.span.Ordered)
    (hfinal : session.stream.final.span.Ordered) {fragment : Fragment}
    (hvalue : (session.perform call).1 = .value fragment) : fragment.SpansOrdered := by
  have hcurrent : session.stream.current.span.Ordered := by
    unfold Stream.current
    cases hahead : session.stream.ahead with
    | nil => exact hfinal
    | cons t others => exact htokens t (hahead ▸ List.mem_cons_self)
  by_cases hmodel : call.rule = .model
  · obtain ⟨ds, hds, rfl⟩ := session.perform_model hmodel hvalue
    exact Meaning.model_spansOrdered htokens hds (Stream.spanFrom_ordered _ hcurrent)
  · obtain ⟨d, hd, rfl⟩ := session.perform_value hmodel hvalue
    exact Meaning.ofRule_spansOrdered hmodel _ htokens ⟨[], _, hd.ahead.symm⟩

/-- What a call does to a session that stands in a list of tokens. -/
theorem perform_spec {tokens read : List Token} (call : Call)
    (h : (Stream.ofTokens tokens).Reads read session.stream) : session.CallSpec tokens call where
  cursor := by
    obtain ⟨more, hmore⟩ := Grammar.pass_reads call.rule session.stream
    rw [← session.perform_stream call] at hmore
    refine ⟨read.length, (read ++ more).length, Stream.stands_of_reads h,
      Stream.stands_of_reads (h.append hmore), ?_, ?_⟩
    · rw [List.length_append]
      exact Nat.le_add_right _ _
    · intro hne fragment hvalue
      obtain ⟨d, hd, -⟩ := session.perform_value hne hvalue
      have hlt := hd.length_lt (Grammar.ofRule_tokens_ne_nil hne d)
      rw [hmore.ahead, List.length_append] at hlt
      rw [List.length_append]
      omega
  steps := by
    obtain ⟨c, -, hc⟩ := Stream.exists_views h
    obtain ⟨c', hc', hleads⟩ :=
      Script.leads_iff (Script.ofRule call.rule) (Script.ofRule_stops call.rule) call.rule hc
    rw [Script.parser_ofRule] at hc' hleads
    exact ⟨c, c', _, hc, session.perform_stream call ▸ hc', hleads, fun _ => session.perform_error⟩
  entries := session.perform_entries call
  short := by
    intro hmodel hshort
    rw [perform_stream, hmodel] at hshort
    exact (session.records_model_iff hmodel).2 (mistake?_ne_none_of_short hshort)
  spans := by
    intro htokens fragment hvalue
    refine session.perform_spans (fun t ht => htokens t ?_) ?_ hvalue
    · refine (List.takeWhile_sublist _).subset (?_ : t ∈ (Stream.ofTokens tokens).ahead)
      rw [h.ahead]
      exact List.mem_append_right _ ht
    · rw [h.final]
      exact Stream.final_ordered htokens

/-- Calls lead to a session that stands in the tokens that it began with. -/
theorem performAll_reads {tokens : List Token} (calls : List Call) {read : List Token}
    (h : (Stream.ofTokens tokens).Reads read session.stream) :
    ∃ more, (Stream.ofTokens tokens).Reads more (session.performAll calls).2.stream := by
  induction calls generalizing session read with
  | nil => exact ⟨read, h⟩
  | cons call others ih =>
    obtain ⟨more, hmore⟩ := Grammar.pass_reads call.rule session.stream
    rw [← session.perform_stream call] at hmore
    exact ih (session.perform call).2 (h.append hmore)

end Session

/-- What calls do on a session of some tokens, whatever they are. -/
structure CallsSpec (tokens : List Token) : Prop where
  /-- Any call behaves after any calls. -/
  step : ∀ (calls : List Call) (call : Call),
    ((Session.ofTokens tokens).performAll calls).2.CallSpec tokens call
  /-- What is behind the first end of the file plays no part in what calls return and record. -/
  cut : ∀ calls : List Call, (Session.ofTokens (cutAtEnd tokens)).performAll calls =
    (Session.ofTokens tokens).performAll calls

/-- Tokens may be any and in any order: all calls behave. -/
theorem session_calls (tokens : List Token) : CallsSpec tokens where
  step := by
    intro calls call
    obtain ⟨read, hread⟩ := (Session.ofTokens tokens).performAll_reads calls (.refl _)
    exact Session.perform_spec _ call hread
  cut := by
    intro calls
    rw [Session.ofTokens, Stream.ofTokens_cutAtEnd]
    rfl

/-- Reading a whole file may record an entry and stand at the end: the file `Foo` breaks off inside
an application.  So it is not only in front of the end that a call is stopped. -/
theorem not_records_iff_short :
    ¬ ∀ (tokens : List Token) (calls : List Call),
      let session := ((Session.ofTokens tokens).performAll calls).2
      let next := (session.perform (.direct .model)).2
      (next.stream.atEnd = false → next.diagnostics.length = session.diagnostics.length + 1) ∧
        (next.stream.atEnd = true → next.diagnostics = session.diagnostics) := by
  intro h
  have hfoo := (h (tokenize "Foo").tokens []).2
  exact absurd (hfoo (by decide +kernel)) (by decide +kernel)

end Calls

/-!
## Values that calls return

`Fragment.ReadFrom` takes in every value that a call on some tokens can return, also after calls
that failed, and so every value of a parsed source (`readFrom_of_parseRule`).  Each is what a
derivation of neighbouring tokens means (`Fragment.ReadFrom.means`): there is no other way in which
a tree comes out of a session.
-/

/-- A call on a session of the tokens returns the fragment, after any calls. -/
def Fragment.ReadFrom (tokens : List Token) (fragment : Fragment) : Prop :=
  ∃ calls call, (((Session.ofTokens tokens).performAll calls).2.perform call).1 = .value fragment

/-- The fragment is what a derivation of neighbouring tokens means. -/
inductive Fragment.Means (tokens : List Token) : Fragment → Prop
  /-- A model, whatever its span: a partial one has a span of its own. -/
  | model {ds : Derivation Production.model} {span : Span} : ds.tokens <:+: tokens →
      Means tokens (.model ⟨Meaning.applications ds, span⟩)
  /-- What any other rule yields. -/
  | ofRule {rule : Rule} {d : Derivation (Production.ofRule rule)} (final : Token) :
      rule ≠ .model → d.tokens <:+: tokens → Means tokens (Meaning.ofRule final rule d)

/-- What is ahead of a session after any calls are neighbouring tokens. -/
theorem Session.ahead_infix (tokens : List Token) (calls : List Call) :
    ((Session.ofTokens tokens).performAll calls).2.stream.ahead <:+: tokens := by
  obtain ⟨read, hread⟩ := (Session.ofTokens tokens).performAll_reads calls (.refl _)
  have hsuffix : ((Session.ofTokens tokens).performAll calls).2.stream.ahead <:+
      (Stream.ofTokens tokens).ahead := ⟨read, hread.ahead.symm⟩
  have hcut : (Stream.ofTokens tokens).ahead <+: tokens := List.takeWhile_prefix _
  exact hsuffix.isInfix.trans hcut.isInfix

/-- Whatever a call returns is what a derivation means. -/
theorem Fragment.ReadFrom.means {tokens : List Token} {fragment : Fragment}
    (h : fragment.ReadFrom tokens) : fragment.Means tokens := by
  obtain ⟨calls, call, hvalue⟩ := h
  have hahead := Session.ahead_infix tokens calls
  by_cases hmodel : call.rule = .model
  · obtain ⟨ds, hds, rfl⟩ := Session.perform_model _ hmodel hvalue
    exact .model (hds.trans hahead)
  · obtain ⟨d, hd, rfl⟩ := Session.perform_value _ hmodel hvalue
    have hread : d.tokens <:+: _ := ⟨[], _, hd.ahead.symm⟩
    exact .ofRule _ hmodel (hread.trans hahead)

theorem Session.perform_of_readRule {session : Session} {rule : Rule} {fragment : Fragment}
    (h : (session.readRule rule).1 = some fragment) :
    (session.perform (.whole rule)).1 = .value fragment := by
  rw [Session.perform]
  cases hresult : session.readRule rule with
  | mk value next =>
    rw [hresult] at h
    obtain rfl : value = some fragment := h
    rfl

/-- The value of a parsed source is read from its tokens. -/
theorem readFrom_of_parseRule {source : String} {rule : Rule} {fragment : Fragment}
    (h : (parseRule source rule).value = some fragment) :
    fragment.ReadFrom (tokenize source).tokens :=
  ⟨[], .whole rule, Session.perform_of_readRule h⟩

end SyslModel
