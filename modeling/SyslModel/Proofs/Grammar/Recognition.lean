import SyslModel.Parsed
import SyslModel.Proofs.Grammar.ApplicationReaders
/-!
# The grammar is recognised

`readRule_recognition` says what reading a list of tokens by a rule gives.  Nothing is recorded
exactly if the tokens derive from the rule; then they do so in one way, and the value is what the
derivation means.

A rule of its own is read by one parser, which must come to the end; a whole file is read
application by application, and what was complete before an error is kept.
-/

namespace SyslModel

open SyslModel.Parser (collect)

/-- What reading these tokens, up to the end of the file, by a rule gives. -/
structure Recognition (tokens : List Token) (final : Token) (rule : Rule) : Prop where
  /-- Nothing is recorded exactly if the tokens derive from the rule. -/
  accepted : ((Session.ofTokens (tokens ++ [final])).readRule rule).2.diagnostics = [] ↔
    ∃ d : Derivation (Production.ofRule rule), d.tokens = tokens
  /-- They do so in one way at most. -/
  unique : ∀ d d' : Derivation (Production.ofRule rule), d.tokens = tokens → d'.tokens = tokens →
    d = d'
  /-- The value is what the derivation means. -/
  value : ∀ d : Derivation (Production.ofRule rule), d.tokens = tokens →
    ((Session.ofTokens (tokens ++ [final])).readRule rule).1 = some (Meaning.ofRule final rule d)

/-! ## The stream of all tokens -/

/-- The session in front of some tokens. -/
def Session.before (tokens : List Token) (final : Token) : Session :=
  ⟨⟨[], tokens, final⟩, [], none⟩

/-- Nothing behind the first end of the file is reached. -/
theorem Stream.ofTokens_cut {tokens : List Token} {final : Token}
    (htokens : ∀ t ∈ tokens, t.kind ≠ .endOfFile) (hfinal : final.kind = .endOfFile)
    (others : List Token) :
    Stream.ofTokens (tokens ++ final :: others) = ⟨[], tokens, final⟩ := by
  have htake : (tokens ++ final :: others).takeWhile (fun t => t.kind ≠ .endOfFile) = tokens := by
    rw [List.takeWhile_append_of_pos (by simpa using htokens)]
    simp [hfinal]
  have hfind : (tokens ++ final :: others).find? (fun t => t.kind = .endOfFile) = some final := by
    rw [List.find?_append, List.find?_eq_none.2 (by simpa using htokens)]
    simp [hfinal]
  simp only [Stream.ofTokens, htake, hfind, Option.getD_some]

theorem Session.ofTokens_eq {tokens : List Token} {final : Token}
    (htokens : ∀ t ∈ tokens, t.kind ≠ .endOfFile) (hfinal : final.kind = .endOfFile) :
    Session.ofTokens (tokens ++ [final]) = Session.before tokens final := by
  rw [Session.ofTokens, Stream.ofTokens_cut htokens hfinal []]
  rfl

/-- Going past all tokens comes to the end. -/
theorem reads_all {tokens read : List Token} (h : read = tokens) (final : Token) :
    Stream.Reads ⟨[], tokens, final⟩ read ⟨tokens.reverse, [], final⟩ := by
  subst h
  exact ⟨by simp, by simp, rfl⟩

theorem tokens_eq_of_atEnd {tokens read : List Token} {final : Token} {rest : Stream}
    (h : Stream.Reads ⟨[], tokens, final⟩ read rest) (hrest : rest.atEnd = true) :
    read = tokens := by
  have hahead := h.ahead
  rw [List.isEmpty_iff.1 hrest, List.append_nil] at hahead
  exact hahead.symm

/-- Nothing follows. -/
def AtEnd : Stream → Prop := fun s => s.atEnd = true

theorem atEnd_mk (consumed : List Token) (final : Token) : AtEnd ⟨consumed, [], final⟩ := rfl

/-! ## A rule of its own -/

section Whole

variable {e : Phrase} {p : Parser Fragment} {v : Derivation e → Fragment} {tokens : List Token}

theorem unique_of_recognises {α : Type} {p : Parser α} {v : Derivation e → Stream → α}
    (hp : Recognises p e v AtEnd) (d d' : Derivation e) (hd : d.tokens = tokens)
    (hd' : d'.tokens = tokens) : d = d' :=
  hp.unique (reads_all hd (.endOfFile .first)) (atEnd_mk _ _)
    (reads_all hd' (.endOfFile .first)) (atEnd_mk _ _)

/-- Either the tokens derive from the phrase, the value is what the derivation means and nothing is
recorded; or they do not, there is no value and something is recorded. -/
theorem readWhole_spec (hp : Recognises p e (fun d _ => v d) AtEnd) (rule : Rule)
    (tokens : List Token) (final : Token) :
    (∃ d : Derivation e, d.tokens = tokens ∧
      ((Session.before tokens final).readWhole rule p).1 = some (v d) ∧
      ((Session.before tokens final).readWhole rule p).2.diagnostics = []) ∨
    ((∀ d : Derivation e, d.tokens ≠ tokens) ∧
      ((Session.before tokens final).readWhole rule p).1 = none ∧
      ((Session.before tokens final).readWhole rule p).2.diagnostics ≠ []) := by
  have hok (d : Derivation e) (hd : d.tokens = tokens) : p rule ⟨[], tokens, final⟩ = _ :=
    hp.complete d (reads_all hd final) (atEnd_mk _ _)
  simp only [Session.readWhole, Session.call, Session.before]
  cases hcall : p rule ⟨[], tokens, final⟩ with
  | fail failure rest =>
    refine .inr ⟨fun d hd => ?_, by simp [Session.record]⟩
    rw [hcall] at hok
    cases hok d hd
  | ok x rest =>
    obtain ⟨d, hread, rfl⟩ := hp.sound hcall
    by_cases hend : rest.atEnd = true
    · exact .inl ⟨d, tokens_eq_of_atEnd hread hend, by simp [Session.moveTo, hend]⟩
    · refine .inr ⟨fun d hd => ?_, by simp [Session.moveTo, Session.record, hend]⟩
      rw [hcall] at hok
      obtain ⟨-, rfl⟩ := Outcome.ok.inj (hok d hd)
      exact hend rfl

end Whole

/-- The parser of every rule but the outermost recognises it. -/
theorem reader_recognises (final : Token) {rule : Rule} {p : Parser Fragment}
    (h : Grammar.reader? rule = some p) :
    Recognises p (Production.ofRule rule) (fun d _ => Meaning.ofRule final rule d) AtEnd := by
  have hend (s : Stream) (hs : AtEnd s) := Grammar.applicationEnds_of_atEnd hs
  match rule, h with
  | .model, h => cases h
  | .application, h =>
    obtain rfl := Option.some.inj h
    exact (Grammar.readApplication_recognises.mono hend).finish
      (q := fun x => pure (Fragment.application x)) fun _ _ _ => rfl
  | .attributes, h =>
    obtain rfl := Option.some.inj h
    exact (Grammar.readAttributes_recognises.mono fun _ _ => trivial).finish
      (q := fun x => pure (Fragment.attributes x)) fun _ _ _ => rfl
  | .attribute, h =>
    obtain rfl := Option.some.inj h
    exact (Grammar.readAttribute_recognises.mono fun _ _ => trivial).finish
      (q := fun x => pure (Fragment.attribute x.1 x.2)) fun _ _ _ => rfl
  | .declaration, h =>
    obtain rfl := Option.some.inj h
    exact (Grammar.readDeclaration_recognises.mono fun s hs => (hend s hs).declaration).finish
      (q := fun x => pure (Fragment.declaration x.1 x.2)) fun _ _ _ => rfl
  | .enumItem, h =>
    obtain rfl := Option.some.inj h
    exact (Grammar.readEnumItem_recognises.mono fun _ _ => trivial).finish
      (q := fun x => pure (Fragment.enumItem x.1 x.2)) fun _ _ _ => rfl
  | .field, h =>
    obtain rfl := Option.some.inj h
    exact (Grammar.readField_recognises.mono fun s hs => (hend s hs).declaration.fields.last).finish
      (q := fun x => pure (Fragment.field x.1 x.2)) fun _ _ _ => rfl
  | .typeRef, h =>
    obtain rfl := Option.some.inj h
    exact (Grammar.readTypeRef_recognises.mono fun _ _ => trivial).finish
      (q := fun x => pure (Fragment.typeRef x)) fun _ _ _ => rfl
  | .fieldAttrs, h =>
    obtain rfl := Option.some.inj h
    exact (Grammar.readFieldAttrs_recognises.mono fun _ _ => trivial).finish
      (q := fun x => pure (Fragment.fieldAttrs x)) fun _ _ _ => rfl
  | .fieldAttr, h =>
    obtain rfl := Option.some.inj h
    exact (Grammar.readFieldAttr_recognises.mono fun _ _ => trivial).finish
      (q := fun x => pure (Fragment.fieldAttr x.1 x.2)) fun _ _ _ => rfl
  | .endpoint, h =>
    obtain rfl := Option.some.inj h
    exact (Grammar.readEndpoint_recognises.mono fun _ _ => trivial).finish
      (q := fun x => pure (Fragment.endpoint x)) fun _ _ _ => rfl

/-! ## Whole files -/

/-- The applications that are read from the start of some tokens. -/
def applicationsOf (tokens : List Token) (final : Token) : Parser.Collected Application :=
  collect (fun s => !s.atEnd) Grammar.readApplication .model ⟨[], tokens, final⟩

theorem readModel_eq (tokens : List Token) (final : Token) :
    ((Session.before tokens final).readModel.2.diagnostics = [] ↔
      (applicationsOf tokens final).failure = none) ∧
    (Session.before tokens final).readModel.1 =
      ⟨.ofList ((applicationsOf tokens final).items.map fun app => (app.name, app)),
        (applicationsOf tokens final).rest.spanFrom (Stream.current ⟨[], tokens, final⟩).span⟩ := by
  have hall : collect (fun s => !s.atEnd) Grammar.readApplication .model
      (Session.before tokens final).stream = applicationsOf tokens final := rfl
  simp only [Session.readModel, hall]
  cases (applicationsOf tokens final).failure with
  | none => exact ⟨⟨fun _ => rfl, fun _ => rfl⟩, rfl⟩
  | some failure => simp [Session.before, Session.record]

/-- From the first token to the last one that was read; where none was, it is the first one. -/
theorem spanFrom_read {tokens read : List Token} {final : Token} {rest : Stream}
    (h : Stream.Reads ⟨[], tokens, final⟩ read rest) :
    rest.spanFrom (Stream.current ⟨[], tokens, final⟩).span =
      spanOf (Stream.current ⟨[], tokens, final⟩).span read := by
  by_cases hne : read = []
  · subst hne
    obtain rfl := Stream.Reads.nil_iff.1 h
    rfl
  · exact h.spanFrom hne _

/-- A file without applications stands where it ends; else from the first token to the last. -/
theorem spanFrom_all {tokens : List Token} {final : Token} {rest : Stream}
    (h : Stream.Reads ⟨[], tokens, final⟩ tokens rest) :
    rest.spanFrom (Stream.current ⟨[], tokens, final⟩).span = spanOf final.span tokens := by
  rw [spanFrom_read h]
  cases tokens <;> rfl

theorem readModel_of_derivation {tokens : List Token} (final : Token)
    {ds : Derivation Production.model} (hds : ds.tokens = tokens) :
    (Session.before tokens final).readModel.2.diagnostics = [] ∧
      (Session.before tokens final).readModel.1 = Meaning.model final ds := by
  have hread := reads_all hds final
  have hall : applicationsOf tokens final = _ :=
    Recognises.collect_complete Grammar.readApplication_recognises Grammar.application_repeats
      .model ds hread (atEnd_mk _ _)
  obtain ⟨hdiagnostics, hmodel⟩ := readModel_eq tokens final
  rw [hdiagnostics, hmodel, hall]
  rw [hds] at hread
  refine ⟨rfl, ?_⟩
  rw [spanFrom_all hread, ← hds]
  rfl

/-- The applications that are kept have derivations, whatever follows them. -/
theorem applicationsOf_sound (tokens : List Token) (final : Token) :
    ∃ ds : Derivation Production.model, ds.tokens <+: tokens ∧
      (applicationsOf tokens final).items = List.map Meaning.application ds ∧
      ((applicationsOf tokens final).failure = none → ds.tokens = tokens) := by
  obtain ⟨ds, middle, hitems, hread, hmiddle⟩ := Recognises.collect_sound
    Grammar.readApplication_recognises .model ⟨[], tokens, final⟩
  refine ⟨ds, ⟨middle.ahead, hread.ahead.symm⟩, hitems, fun hnone => ?_⟩
  have hstop := Recognises.collect_stop Grammar.readApplication_recognises
    Grammar.application_repeats.solid .model ⟨[], tokens, final⟩ hnone
  rw [← hmiddle hnone] at hstop
  exact tokens_eq_of_atEnd hread (by simpa using hstop)

theorem model_unique {tokens : List Token} (ds ds' : Derivation Production.model)
    (hds : ds.tokens = tokens) (hds' : ds'.tokens = tokens) : ds = ds' :=
  unique_of_recognises (Grammar.readApplication_recognises.repeatWhile Grammar.application_repeats)
    ds ds' hds hds'

/-! ## Every rule -/

theorem readRule_eq_readWhole {rule : Rule} {p : Parser Fragment}
    (h : Grammar.reader? rule = some p) (session : Session) :
    session.readRule rule = session.readWhole rule p := by
  rw [Session.readRule, h]

theorem readRule_model (session : Session) :
    session.readRule .model = (some (.model session.readModel.1), session.readModel.2) := rfl

theorem eq_model_of_reader? {rule : Rule} (h : Grammar.reader? rule = none) : rule = .model := by
  cases rule <;> first | rfl | cases h

/-- Tokens that derive from a rule are read by it, and the value is what the derivation means. -/
theorem readRule_of_derivation (final : Token) (rule : Rule) {tokens : List Token}
    {d : Derivation (Production.ofRule rule)} (hd : d.tokens = tokens) :
    ((Session.before tokens final).readRule rule).1 = some (Meaning.ofRule final rule d) ∧
      ((Session.before tokens final).readRule rule).2.diagnostics = [] := by
  cases hreader : Grammar.reader? rule with
  | none =>
    obtain rfl := eq_model_of_reader? hreader
    obtain ⟨hdiagnostics, hmodel⟩ := readModel_of_derivation final hd
    rw [readRule_model]
    exact ⟨congrArg (fun m => some (Fragment.model m)) hmodel, hdiagnostics⟩
  | some p =>
    have hp := reader_recognises final hreader
    rw [readRule_eq_readWhole hreader]
    rcases readWhole_spec hp rule tokens final with ⟨d', hd', hread⟩ | ⟨hnone, -⟩
    · rw [unique_of_recognises hp d d' hd hd']
      exact hread
    · exact absurd hd (hnone d)

/-- If nothing is recorded, the tokens derive from the rule. -/
theorem derivation_of_readRule (final : Token) (rule : Rule) {tokens : List Token}
    (h : ((Session.before tokens final).readRule rule).2.diagnostics = []) :
    ∃ d : Derivation (Production.ofRule rule), d.tokens = tokens := by
  cases hreader : Grammar.reader? rule with
  | none =>
    obtain rfl := eq_model_of_reader? hreader
    obtain ⟨ds, _, _, hds⟩ := applicationsOf_sound tokens final
    exact ⟨ds, hds ((readModel_eq tokens final).1.1 h)⟩
  | some p =>
    rw [readRule_eq_readWhole hreader] at h
    rcases readWhole_spec (reader_recognises final hreader) rule tokens final with
      ⟨d, hd, -⟩ | ⟨-, -, hne⟩
    · exact ⟨d, hd⟩
    · exact absurd h hne

theorem derivation_unique (rule : Rule) {tokens : List Token}
    (d d' : Derivation (Production.ofRule rule)) (hd : d.tokens = tokens)
    (hd' : d'.tokens = tokens) : d = d' := by
  cases hreader : Grammar.reader? rule with
  | none =>
    obtain rfl := eq_model_of_reader? hreader
    exact model_unique d d' hd hd'
  | some p =>
    exact unique_of_recognises (reader_recognises (.endOfFile .first) hreader) d d' hd hd'

/-- Reading by a rule records nothing exactly if the tokens derive from it, which they do in one
way, and the value is then what the derivation means. -/
theorem readRule_recognition (tokens : List Token) (final : Token) (rule : Rule)
    (htokens : ∀ t ∈ tokens, t.kind ≠ .endOfFile) (hfinal : final.kind = .endOfFile) :
    Recognition tokens final rule := by
  have hsession := Session.ofTokens_eq htokens hfinal
  refine ⟨?_, derivation_unique rule, ?_⟩
  · rw [hsession]
    constructor
    · exact derivation_of_readRule final rule
    · rintro ⟨d, hd⟩
      exact (readRule_of_derivation final rule hd).2
  · intro d hd
    rw [hsession]
    exact (readRule_of_derivation final rule hd).1

/-- The header of an application, read as one. -/
theorem readRule_recognition_header :
    Recognition
      [⟨.identifier, "Shop", ⟨0, 4⟩, ⟨1, 1⟩⟩, ⟨.punctuation .colon, ":", ⟨4, 5⟩, ⟨1, 5⟩⟩]
      ⟨.endOfFile, "", ⟨5, 5⟩, ⟨1, 6⟩⟩ .application :=
  readRule_recognition _ _ _ (by decide) rfl

end SyslModel
