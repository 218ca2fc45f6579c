import SyslModel.Proofs.Grammar.Recognition
import SyslModel.Proofs.Grammar.RuleFollows
/-!
# The mistake in a list of tokens

There is at most one mistake, it is recorded, and it is recorded where the input stops being the
beginning of a sentence, or at most two tokens in front of that.
-/

namespace SyslModel

/-!
## At most one mistake

Reading the whole input by a rule meets one mistake at most: a parser fails, or the rule is complete
and input is left.  `mistake?` is the mistake, for all rules alike, and `readRule_diagnostics` says
that it is what a session records.

There is none exactly if the tokens ahead derive from the rule.
-/

section Mistake

open SyslModel.Parser (collect)

namespace Grammar

/-- Goes past what a rule reads; for the rule of whole files these are all applications ahead. -/
def pass (rule : Rule) : Parser Unit :=
  match reader? rule with
  | some p => do
    let _ ← p
    pure ()
  | none => do
    let _ ← Parser.repeatWhile (fun s => !s.atEnd) readApplication
    pure ()

/-- The parser of a rule reads what `pass` goes past. -/
theorem pass_of_reader? {rule : Rule} {p : Parser Fragment} (h : reader? rule = some p) :
    pass rule = p >>= fun _ => pure () := by
  rw [pass, h]

/-- A rule goes past what its phrase derives. -/
theorem pass_recognises (rule : Rule) :
    Recognises (pass rule) (Production.ofRule rule) (fun _ _ => ()) AtEnd := by
  cases h : reader? rule with
  | some p =>
    rw [pass_of_reader? h]
    exact (reader_recognises (.endOfFile .first) h).finish (q := fun _ => pure ()) fun _ _ _ => rfl
  | none =>
    obtain rfl := eq_model_of_reader? h
    exact (readApplication_recognises.repeatWhile application_repeats).finish
      (q := fun _ => pure ()) fun _ _ _ => rfl

theorem reader_follows {rule : Rule} {p : Parser Fragment} (h : reader? rule = some p) :
    Follows p (Production.ofRule rule) := by
  match rule, h with
  | .model, h => cases h
  | .application, h => exact Option.some.inj h ▸ readApplication_follows.map Fragment.application
  | .attributes, h => exact Option.some.inj h ▸ readAttributes_follows.map Fragment.attributes
  | .attribute, h =>
    exact Option.some.inj h ▸ readAttribute_follows.map fun a => Fragment.attribute a.1 a.2
  | .declaration, h =>
    exact Option.some.inj h ▸ readDeclaration_follows.map fun d => Fragment.declaration d.1 d.2
  | .enumItem, h =>
    exact Option.some.inj h ▸ readEnumItem_follows.map fun i => Fragment.enumItem i.1 i.2
  | .field, h => exact Option.some.inj h ▸ readField_follows.map fun f => Fragment.field f.1 f.2
  | .typeRef, h => exact Option.some.inj h ▸ readTypeRef_follows.map Fragment.typeRef
  | .fieldAttrs, h => exact Option.some.inj h ▸ readFieldAttrs_follows.map Fragment.fieldAttrs
  | .fieldAttr, h =>
    exact Option.some.inj h ▸ readFieldAttr_follows.map fun a => Fragment.fieldAttr a.1 a.2
  | .endpoint, h => exact Option.some.inj h ▸ readEndpoint_follows.map Fragment.endpoint

theorem pass_follows (rule : Rule) : Follows (pass rule) (Production.ofRule rule) := by
  cases h : reader? rule with
  | some p =>
    rw [pass_of_reader? h]
    exact (reader_follows h).map fun _ => ()
  | none =>
    obtain rfl := eq_model_of_reader? h
    exact (readApplication_follows.repeatWhile near_ahead application_repeats.solid).map fun _ => ()

end Grammar

/-! ### The mistake -/

/-- The error that reading all that is ahead by a rule meets, if it meets one. -/
def mistake? (rule : Rule) (s : Stream) : Option Failure :=
  match Grammar.pass rule rule s with
  | .fail failure _ => some failure
  | .ok _ rest => if rest.atEnd then none else some ⟨.trailingInput rule rest.current, rule⟩

/-- Reading that stops in front of the end has met a mistake. -/
theorem mistake?_ne_none_of_short {rule : Rule} {s : Stream}
    (h : (Grammar.pass rule rule s).place.atEnd = false) : mistake? rule s ≠ none := by
  unfold mistake?
  cases hpass : Grammar.pass rule rule s with
  | fail failure rest => exact Option.some_ne_none _
  | ok x rest =>
    rw [hpass] at h
    have hend : rest.atEnd = false := h
    simp [hend]

/-- Reading by a rule goes past tokens, whether or not it fails. -/
theorem Grammar.pass_reads (rule : Rule) (s : Stream) :
    ∃ read, s.Reads read (pass rule rule s).place := by
  cases h : pass rule rule s with
  | ok x rest =>
    obtain ⟨d, hd, -⟩ := (pass_follows rule).ok h
    exact ⟨d.tokens, hd⟩
  | fail failure rest =>
    obtain ⟨read, hread, -⟩ := (pass_follows rule).fail h
    exact ⟨read, hread⟩

/-- There is no mistake exactly if what is ahead derives from the rule. -/
theorem mistake?_eq_none_iff {rule : Rule} {s : Stream} :
    mistake? rule s = none ↔
      ∃ d : Derivation (Production.ofRule rule), d.tokens = s.ahead := by
  have hp := Grammar.pass_recognises rule
  constructor
  · intro h
    unfold mistake? at h
    split at h
    · cases h
    · next rest hpass =>
      split at h
      · next hend =>
        obtain ⟨d, hd, -⟩ := hp.sound hpass
        refine ⟨d, ?_⟩
        rw [hd.ahead, List.isEmpty_iff.1 hend, List.append_nil]
      · cases h
  · rintro ⟨d, hd⟩
    have hahead : s.ahead = d.tokens ++ [] := by rw [hd, List.append_nil]
    obtain ⟨rest, hread, hrest⟩ := Stream.Reads.exists_of_ahead hahead
    have hend : rest.atEnd = true := List.isEmpty_iff.2 hrest
    rw [mistake?, hp.complete d hread hend]
    exact if_pos hend

/-- What was read up to the mistake is viable, and the mistake depends on what was read and on the
next tokens only. -/
theorem mistake?_stops {rule : Rule} {s : Stream} {failure : Failure}
    (h : mistake? rule s = some failure) :
    ∃ read, s.Reads read (Grammar.pass rule rule s).place ∧
      Stops (Production.ofRule rule) read failure.error (Grammar.pass rule rule s).place ∧
      ∀ {s' rest' : Stream}, s'.Reads read rest' →
        (Grammar.pass rule rule s).place.Agree failure.error.reach rest' →
        mistake? rule s' = some failure := by
  have hp := Grammar.pass_follows rule
  unfold mistake? at h
  split at h
  · next failed rest hpass =>
    obtain rfl := Option.some.inj h
    obtain ⟨read, hread, hstops, hlocal⟩ := hp.fail hpass
    rw [hpass]
    refine ⟨read, hread, hstops, ?_⟩
    intro s' rest' hs' ha
    rw [mistake?, hlocal hs' ha]
  · next rest hpass =>
    split at h
    · cases h
    · next hend =>
      obtain rfl := Option.some.inj h
      obtain ⟨d, hd, hlocal⟩ := hp.ok hpass
      rw [hpass]
      refine ⟨d.tokens, hd, .trailing rule (.whole d), ?_⟩
      intro s' rest' hs' ha
      have hend' : rest'.atEnd = rest.atEnd := Stream.Agree.atEnd ha
      have hcurrent : rest'.current = rest.current := Stream.Agree.current ha
      rw [mistake?, hlocal hs' ha]
      simp only [hend', hcurrent, if_neg hend]

/-! ### What a session records -/

/-- Reading applications up to the end, as a session does it. -/
theorem pass_model (s : Stream) :
    Grammar.pass .model .model s =
      match (collect (fun s => !s.atEnd) Grammar.readApplication .model s).failure with
      | none => .ok () (collect (fun s => !s.atEnd) Grammar.readApplication .model s).rest
      | some failure =>
        .fail failure (collect (fun s => !s.atEnd) Grammar.readApplication .model s).rest := by
  show (Parser.repeatWhile (fun s => !s.atEnd) Grammar.readApplication >>= fun _ => pure ()) _ _ = _
  rw [Parser.bind_apply, Parser.repeatWhile]
  cases (collect (fun s => !s.atEnd) Grammar.readApplication .model s).failure <;> rfl

/-- The mistake in a whole file is the failure of an application. -/
theorem mistake?_model (s : Stream) :
    mistake? .model s =
      (collect (fun s => !s.atEnd) Grammar.readApplication .model s).failure := by
  have hstop := @Recognises.collect_stop _ _ _ (fun s => !s.atEnd) _ _
    Grammar.readApplication_recognises Grammar.application_repeats.solid .model s
  rw [mistake?, pass_model]
  cases h : (collect (fun s => !s.atEnd) Grammar.readApplication .model s).failure with
  | some failure => rfl
  | none => exact if_pos (by simpa using hstop h)

namespace Session

variable (session : Session)

/-- The entry for a mistake under some rule, where there is one. -/
def entry (mistake : Option Failure) (name : Rule) : List Diagnostic :=
  (mistake.map fun failure => Diagnostic.ofSyntaxError failure.error (some name)).toList

theorem readModel_diagnostics : ∃ name, session.readModel.2.diagnostics =
    session.diagnostics ++ entry (mistake? .model session.stream) name := by
  rw [readModel, mistake?_model]
  cases (collect (fun s => !s.atEnd) Grammar.readApplication .model session.stream).failure with
  | none => exact ⟨.model, (List.append_nil _).symm⟩
  | some failure =>
    obtain ⟨name, hname⟩ : ∃ name, (session.failed <|> some failure.rule) = some name := by
      cases session.failed <;> exact ⟨_, rfl⟩
    exact ⟨name, by simp [record, remember, moveTo, entry, hname]⟩

theorem readModel_stream :
    session.readModel.2.stream = (Grammar.pass .model .model session.stream).place := by
  rw [readModel, pass_model]
  cases (collect (fun s => !s.atEnd) Grammar.readApplication .model session.stream).failure <;> rfl

/-- Reading by a rule of its own, as a session does it. -/
theorem readWhole_spec {rule : Rule} {p : Parser Fragment} (h : Grammar.reader? rule = some p) :
    (∃ name, (session.readWhole rule p).2.diagnostics =
      session.diagnostics ++ entry (mistake? rule session.stream) name) ∧
    (session.readWhole rule p).2.stream = (Grammar.pass rule rule session.stream).place ∧
    ((session.readWhole rule p).1 = none ↔ mistake? rule session.stream ≠ none) := by
  have hpass : Grammar.pass rule rule session.stream = _ :=
    congrFun (congrFun (Grammar.pass_of_reader? h) rule) session.stream
  rw [Parser.bind_apply] at hpass
  rw [mistake?, readWhole, call]
  cases hp : p rule session.stream with
  | fail failure rest =>
    rw [hp] at hpass
    obtain ⟨name, hname⟩ : ∃ name, (session.failed <|> some failure.rule) = some name := by
      cases session.failed <;> exact ⟨_, rfl⟩
    refine ⟨⟨name, ?_⟩, ?_, ?_⟩ <;> rw [hpass]
    · simp [record, remember, moveTo, entry, hname]
    · rfl
    · simp
  | ok x rest =>
    rw [hp] at hpass
    by_cases hend : rest.atEnd = true
    · refine ⟨⟨rule, ?_⟩, ?_, ?_⟩ <;> rw [hpass] <;> simp [moveTo, entry, hend, Outcome.place]
    · refine ⟨⟨rule, ?_⟩, ?_, ?_⟩ <;> rw [hpass] <;>
        simp [record, moveTo, entry, hend, Outcome.place]

/-- Reading the whole input by a rule records the mistake, and nothing else. -/
theorem readRule_diagnostics (rule : Rule) : ∃ name, (session.readRule rule).2.diagnostics =
    session.diagnostics ++ entry (mistake? rule session.stream) name := by
  cases h : Grammar.reader? rule with
  | some p =>
    rw [readRule_eq_readWhole h]
    exact (session.readWhole_spec h).1
  | none =>
    obtain rfl := eq_model_of_reader? h
    exact session.readModel_diagnostics

theorem readRule_stream (rule : Rule) :
    (session.readRule rule).2.stream = (Grammar.pass rule rule session.stream).place := by
  cases h : Grammar.reader? rule with
  | some p =>
    rw [readRule_eq_readWhole h]
    exact (session.readWhole_spec h).2.1
  | none =>
    obtain rfl := eq_model_of_reader? h
    exact session.readModel_stream

/-- A rule of its own has no value exactly if there is a mistake. -/
theorem readRule_eq_none_iff {rule : Rule} (hne : rule ≠ .model) :
    (session.readRule rule).1 = none ↔ mistake? rule session.stream ≠ none := by
  cases h : Grammar.reader? rule with
  | some p =>
    rw [readRule_eq_readWhole h]
    exact (session.readWhole_spec h).2.2
  | none => exact absurd (eq_model_of_reader? h) hne

end Session

end Mistake

/-!
## The first mistake is reported

A diagnostic is to point at the token where the input stops being the beginning of a sentence.  It
never points behind it: the tokens in front of the reported one can be completed.  And it points at
most two tokens in front of it, since whatever agrees with the input on the reported token and on
the two behind it is met with the same diagnostic.

Two tokens are as far as the grammar looks ahead: an identifier names an item of an enumeration only
in front of a colon and an integer.  In the application `A: !enum E: C: ]` the name `C` is reported,
though it is the bracket that rules an item out.
-/

section FirstMistake

variable {rule : Rule} {front tokens : List Token} {final : Token}

/-- Some input that begins with these tokens is read by the rule without a diagnostic. -/
def Extendable (rule : Rule) (front : List Token) : Prop :=
  ∃ input, front <+: input ∧ ((Session.ofTokens input).readRule rule).2.diagnostics = []

/-- What is extendable is so from each of its beginnings. -/
theorem Extendable.mono {other : List Token} (h : Extendable rule front)
    (hother : other <+: front) : Extendable rule other := by
  obtain ⟨input, hinput, hread⟩ := h
  exact ⟨input, hother.trans hinput, hread⟩

/-- If input is extendable up to one place and no longer at another, it stops being so between
them. -/
theorem Extendable.stop {input : List Token} {place limit m : Nat}
    (h : Extendable rule (input.take place)) (hlimit : ¬ Extendable rule (input.take (limit + 1)))
    (hm : Extendable rule (input.take m)) (hnext : ¬ Extendable rule (input.take (m + 1))) :
    place ≤ m ∧ m ≤ limit := by
  constructor
  · refine Nat.le_of_not_lt fun hlt => ?_
    exact hnext (h.mono (List.take_prefix_take_left hlt))
  · refine Nat.le_of_not_lt fun hlt => ?_
    exact hlimit (hm.mono (List.take_prefix_take_left hlt))

/-- The error is about a token at a place where the input stops being extendable, give or take two
tokens. -/
structure FirstMistake (rule : Rule) (input : List Token) (error : SyntaxError) (place : Nat) :
    Prop where
  /-- The token that is reported stands at the place. -/
  reported : input[place]? = some error.token
  /-- The tokens in front of it can be completed by tokens of sources. -/
  viable : ∃ more, (∀ t ∈ more, t.Occurs) ∧ ∀ last : Token, last.kind = .endOfFile →
    ((Session.ofTokens (input.take place ++ more ++ [last])).readRule rule).2.diagnostics = []
  /-- What agrees with the input up to two tokens behind the place is not read either. -/
  rejected : ¬ Extendable rule (input.take (place + 3))
  /-- The input stops being extendable at the place or at one of the next two tokens. -/
  first : ∀ m, Extendable rule (input.take m) → ¬ Extendable rule (input.take (m + 1)) →
    place ≤ m ∧ m ≤ place + 2

/-- Reading the input by the rule records one diagnostic, and it is about the first mistake.  The
session has stopped in front of the token that is reported, or right behind it if that is an integer
that does not fit. -/
def ReportsFirstMistake (rule : Rule) (input : List Token) : Prop :=
  let session := ((Session.ofTokens input).readRule rule).2
  ∃ error name, session.diagnostics = [Diagnostic.ofSyntaxError error (some name)] ∧
    FirstMistake rule input error (session.stream.consumed.length - error.passed)

/-! ### Streams of tokens that agree -/

/-- What stands in front of the first end of the file is ahead. -/
theorem Stream.ofTokens_ahead (hfront : ∀ t ∈ front, t.kind ≠ .endOfFile) (others : List Token) :
    ∃ left, (Stream.ofTokens (front ++ others)).ahead = front ++ left := by
  refine ⟨others.takeWhile fun t => t.kind ≠ .endOfFile, ?_⟩
  exact List.takeWhile_append_of_pos (by simpa using hfront)

/-- Input that agrees with other input up to some tokens behind a place has the same stream or one
that agrees at the place. -/
theorem Stream.ofTokens_agree {read input : List Token} {rest : Stream} {n : Nat}
    (htokens : ∀ t ∈ tokens, t.kind ≠ .endOfFile) (hfinal : final.kind = .endOfFile)
    (hread : (⟨[], tokens, final⟩ : Stream).Reads read rest)
    (hinput : (tokens ++ [final]).take (read.length + n) <+: input) :
    Stream.ofTokens input = ⟨[], tokens, final⟩ ∨
      ∃ rest', (Stream.ofTokens input).Reads read rest' ∧ rest.Agree n rest' := by
  obtain ⟨others, rfl⟩ := hinput
  by_cases hlength : read.length + n ≤ tokens.length
  · right
    have hahead : tokens = read ++ rest.ahead := hread.ahead
    have htake : (tokens ++ [final]).take (read.length + n) = read ++ rest.ahead.take n := by
      rw [List.take_append_of_le_length hlength, hahead, List.take_length_add_append]
    rw [htake]
    have hfront : ∀ t ∈ read ++ rest.ahead.take n, t.kind ≠ .endOfFile := by
      intro t ht
      rw [← htake, List.take_append_of_le_length hlength] at ht
      exact htokens t (List.mem_of_mem_take ht)
    obtain ⟨left, hleft⟩ := Stream.ofTokens_ahead hfront others
    rw [List.append_assoc read _ left] at hleft
    obtain ⟨rest', hs', hrest'⟩ := Stream.Reads.exists_of_ahead hleft
    refine ⟨rest', hs', ?_, ⟨rest.ahead.take n, rest.ahead.drop n, left, ?_, ?_, hrest'⟩⟩
    · rw [hs'.consumed, hread.consumed]
      rfl
    · rw [hahead, List.length_append] at hlength
      exact List.length_take_of_le (by omega)
    · exact (List.take_append_drop _ _).symm
  · left
    have htake : (tokens ++ [final]).take (read.length + n) = tokens ++ [final] := by
      refine List.take_of_length_le ?_
      rw [List.length_append, List.length_singleton]
      omega
    rw [htake, List.append_assoc]
    exact Stream.ofTokens_cut htokens hfinal others

/-! ### The mistake that a session records -/

/-- A rule records a diagnostic exactly if there is a mistake. -/
theorem readRule_ofTokens_eq_nil_iff (input : List Token) :
    ((Session.ofTokens input).readRule rule).2.diagnostics = [] ↔
      mistake? rule (Stream.ofTokens input) = none := by
  obtain ⟨name, hname⟩ := (Session.ofTokens input).readRule_diagnostics rule
  rw [hname]
  show [] ++ Session.entry (mistake? rule (Stream.ofTokens input)) name = [] ↔ _
  cases mistake? rule (Stream.ofTokens input) <;> simp [Session.entry]

/-- What is viable for a rule can be completed to input that is read without a diagnostic. -/
theorem Phrase.Viable.readRule (h : (Production.ofRule rule).Viable front)
    (hfront : ∀ t ∈ front, t.kind ≠ .endOfFile) :
    ∃ more, (∀ t ∈ more, t.Occurs) ∧ ∀ last : Token, last.kind = .endOfFile →
      ((Session.ofTokens (front ++ more ++ [last])).readRule rule).2.diagnostics = [] := by
  obtain ⟨more, hmore, d, hd⟩ := h
  refine ⟨more, hmore, fun last hlast => ?_⟩
  have hall : ∀ t ∈ front ++ more, t.kind ≠ .endOfFile :=
    List.forall_mem_append.2 ⟨hfront, fun t ht => (hmore t ht).1⟩
  exact (readRule_recognition _ last rule hall hlast).accepted.2 ⟨d, hd⟩

/-- Input that agrees with other input as far as a mistake depends on it has the mistake as well. -/
theorem not_extendable_of_mistake {read : List Token} {rest : Stream} {failure : Failure} {n : Nat}
    (htokens : ∀ t ∈ tokens, t.kind ≠ .endOfFile) (hfinal : final.kind = .endOfFile)
    (hfailure : mistake? rule ⟨[], tokens, final⟩ = some failure)
    (hs : (⟨[], tokens, final⟩ : Stream).Reads read rest)
    (hlocal : ∀ {s' rest' : Stream}, s'.Reads read rest' → rest.Agree n rest' →
      mistake? rule s' = some failure) :
    ¬ Extendable rule ((tokens ++ [final]).take (read.length + n)) := by
  rintro ⟨input, hprefix, hinput⟩
  rw [readRule_ofTokens_eq_nil_iff] at hinput
  rcases Stream.ofTokens_agree htokens hfinal hs hprefix with hsame | ⟨rest', hs', ha⟩
  · rw [hsame, hfailure] at hinput
    cases hinput
  · rw [hlocal hs' ha] at hinput
    cases hinput

/-- If reading by a rule records a diagnostic, this is about the first mistake. -/
theorem readRule_firstMistake (tokens : List Token) (final : Token) (rule : Rule)
    (htokens : ∀ t ∈ tokens, t.kind ≠ .endOfFile) (hfinal : final.kind = .endOfFile)
    (hread : ((Session.ofTokens (tokens ++ [final])).readRule rule).2.diagnostics ≠ []) :
    ReportsFirstMistake rule (tokens ++ [final]) := by
  have hstream : (Session.ofTokens (tokens ++ [final])).stream = ⟨[], tokens, final⟩ :=
    Stream.ofTokens_cut htokens hfinal []
  obtain ⟨failure, hfailure⟩ : ∃ failure, mistake? rule ⟨[], tokens, final⟩ = some failure := by
    rw [← hstream]
    exact Option.ne_none_iff_exists'.1 (mt (readRule_ofTokens_eq_nil_iff _).2 hread)
  obtain ⟨name, hname⟩ := (Session.ofTokens (tokens ++ [final])).readRule_diagnostics rule
  obtain ⟨read, hs, hstops, hlocal⟩ := mistake?_stops hfailure
  obtain ⟨before, hbefore, hlength, behind, hbehind⟩ := hstops.reported
  rw [hstream, hfailure] at hname
  refine ⟨failure.error, name, hname, ?_⟩
  -- the place is where the viable tokens end
  rw [Session.readRule_stream, hstream, hs.consumed, List.append_nil, List.length_reverse, hlength,
    Nat.add_sub_cancel]
  have hinput : tokens ++ [final] = before ++ failure.error.token :: behind := by
    rw [← hbehind, hs.final, ← hs.ahead]
  have htake : (tokens ++ [final]).take before.length = before := by
    rw [hinput, List.take_left]
  have hfront : before <+: tokens := by
    have hle := congrArg List.length hinput
    simp only [List.length_append, List.length_cons, List.length_nil] at hle
    rw [← htake, List.take_append_of_le_length (by omega)]
    exact List.take_prefix _ _
  have hviable := hbefore.readRule fun t ht => htokens t (hfront.subset ht)
  have hextendable : Extendable rule before := by
    obtain ⟨more, -, hmore⟩ := hviable
    exact ⟨_, (List.append_assoc before _ _).symm ▸ List.prefix_append _ _, hmore final hfinal⟩
  have hrejected := not_extendable_of_mistake htokens hfinal hfailure hs hlocal
  have hreach : read.length + failure.error.reach = before.length + 3 := by
    rw [hlength, SyntaxError.reach]
    have hpassed : failure.error.passed ≤ 1 := by
      cases failure.error <;> simp [SyntaxError.passed]
    omega
  rw [hreach] at hrejected
  rw [← htake] at hextendable
  refine ⟨?_, ?_, hrejected, fun m => hextendable.stop hrejected⟩
  · rw [hinput]
    simp
  · rwa [htake]

/-- A field without a type: the end is reported, and a type could stand there. -/
theorem readRule_firstMistake_field :
    ReportsFirstMistake .field
      ([⟨.smallIdentifier, "id", ⟨0, 2⟩, ⟨1, 1⟩⟩, ⟨.punctuation .subset, "<:", ⟨3, 5⟩, ⟨1, 4⟩⟩] ++
        [⟨.endOfFile, "", ⟨5, 5⟩, ⟨1, 6⟩⟩]) :=
  readRule_firstMistake _ _ .field (by decide) rfl (by decide)

end FirstMistake

end SyslModel
