import SyslModel.Proofs.Grammar.Stems
import SyslModel.Proofs.Token.Cut
/-!
# Spans are faithful

`parseModel_faithful` takes the model of any source without lexical errors, complete or not.  Every
application, declared type, field and endpoint in it can be parsed again from the text that its span
cuts out of the source: nothing is recorded and the same construct comes back, under the same name,
with its spans counted from where the text starts.  A reference is the text of its span.

What a construct stems from are neighbouring tokens of the source, and these are the tokens of the
text by itself, put behind what stands in front of it.
-/

namespace SyslModel

/-- The text of a span, parsed by a rule, gives a fragment again and no diagnostics, but for spans:
those are counted from where the text starts. -/
def Reparses (source : String) (rule : Rule) (span : Span) (fragment : Fragment) : Prop :=
  ∃ text again, IsSlice source.toList span text ∧
    parseRule (String.ofList text) rule = ⟨some again, []⟩ ∧
    again.respan (.shift span.start) = fragment

/-- The spans of a model cut its constructs out of the source. -/
structure FaithfulSpans (source : String) (m : Model) : Prop where
  /-- An application has the name it is stored under and can be parsed again. -/
  application : ∀ name app, (name, app) ∈ m.apps.entries →
    app.name = name ∧ Reparses source .application app.span (.application app)
  /-- A declared type can be parsed again, with its name. -/
  declaration : ∀ app, (Part.model m).Contains (.application app) →
    ∀ name t, (name, .type t) ∈ app.members.entries →
      Reparses source .declaration t.span (.declaration name t)
  /-- An endpoint has the name it is stored under and can be parsed again. -/
  endpoint : ∀ app, (Part.model m).Contains (.application app) →
    ∀ name e, (name, .endpoint e) ∈ app.members.entries →
      e.name = name ∧ Reparses source .endpoint e.span (.endpoint e)
  /-- A field of a table or of a record can be parsed again, with its name. -/
  field : ∀ part, (Part.model m).Contains part → ∀ fields, part.fields? = some fields →
    ∀ name t, (name, t) ∈ fields.entries → Reparses source .field t.span (.field name t)
  /-- A reference is the text of its span. -/
  reference : ∀ r, (Part.model m).Contains (.reference r) →
    IsSlice source.toList r.span r.dotted.toList

/-! ## Parsing a slice -/

/-- Only the span of a whole model can depend on where the source ends. -/
theorem Meaning.ofRule_congr {rule : Rule} (h : rule ≠ .model) (final last : Token)
    (d : Derivation (Production.ofRule rule)) : ofRule final rule d = ofRule last rule d := by
  cases rule with
  | model => exact absurd rfl h
  | _ => rfl

/-- What a derivation of neighbouring tokens means is parsed again from its slice. -/
theorem reparses_of_tokens {source : String} {tokens : List Token} {final : Token}
    (hlexed : (tokenize source).errors = []) (h : (tokenize source).tokens = tokens ++ [final])
    (rule : Rule) (hrule : rule ≠ .model) (d : Derivation (Production.ofRule rule))
    (hpart : d.tokens <:+: tokens) (hne : d.tokens ≠ []) :
    Reparses source rule (spanOf .origin d.tokens) (Meaning.ofRule final rule d) := by
  obtain ⟨before, text, after, own, last, hslice, herrors, hown, hplaced⟩ :=
    tokens_of_cut hlexed h hpart hne
  -- Read in the place that they have in the source, the tokens of the slice are those of `d`.
  have hread := (Session.before own last).readRule_relocate (.behind before) rule
  rw [Session.before_relocate, hplaced] at hread
  obtain ⟨hvalue, hdiagnostics⟩ :=
    readRule_of_derivation (last.relocate (.behind before)) rule (d := d) rfl
  rw [hread] at hvalue hdiagnostics
  obtain ⟨again, hagain, hrespan⟩ := Option.map_eq_some_iff.1 hvalue
  refine ⟨text, again, ⟨before, after, hslice⟩, ?_, ?_⟩
  · rw [parseRule_of_tokens hown, hagain, herrors, List.map_eq_nil_iff.1 hdiagnostics]
    rfl
  · rw [hslice.start_eq, Meaning.ofRule_congr hrule final]
    exact hrespan

/-! ## The constructs -/

theorem declaration_span (d : Derivation Production.declaration) :
    (Meaning.declaration d).2.span = spanOf .origin d.tokens := by
  obtain ⟨m, d, rfl⟩ := Grammar.exists_declare d
  rw [Grammar.meaning_declare, Grammar.declare_tokens]
  rfl

section Constructs

variable {source : String} {tokens : List Token} {final : Token}
  (hlexed : (tokenize source).errors = []) (h : (tokenize source).tokens = tokens ++ [final])

include hlexed h

theorem reparses_application {d : Derivation Production.application} (hd : d.tokens <:+: tokens) :
    Reparses source .application (Meaning.application d).span
      (.application (Meaning.application d)) :=
  reparses_of_tokens hlexed h .application (by decide) d hd (List.cons_ne_nil _ _)

theorem reparses_declaration {d : Derivation Production.declaration} (hd : d.tokens <:+: tokens) :
    Reparses source .declaration (Meaning.declaration d).2.span
      (.declaration (Meaning.declaration d).1 (Meaning.declaration d).2) := by
  rw [declaration_span]
  exact reparses_of_tokens hlexed h .declaration (by decide) d hd
    (Grammar.declaration_tokens_ne_nil d)

theorem reparses_field {d : Derivation Production.field} (hd : d.tokens <:+: tokens) :
    Reparses source .field (Meaning.field d).2.span
      (.field (Meaning.field d).1 (Meaning.field d).2) :=
  reparses_of_tokens hlexed h .field (by decide) d hd (Grammar.field_tokens_ne_nil d)

theorem reparses_endpoint {d : Derivation Production.endpoint} (hd : d.tokens <:+: tokens) :
    Reparses source .endpoint (Meaning.endpoint d).span (.endpoint (Meaning.endpoint d)) :=
  reparses_of_tokens hlexed h .endpoint (by decide) d hd (List.cons_ne_nil _ _)

end Constructs

/-! ## The model of a source -/

/-- The model of a source, complete or not, is made of applications that stem from its tokens. -/
theorem parseModel_stems {source : String} {tokens : List Token} {final : Token}
    (h : (tokenize source).tokens = tokens ++ [final]) :
    ∃ (ds : Derivation Production.model) (span : Span), ds.tokens <:+: tokens ∧
      (parseModel source).value = some ⟨Meaning.applications ds, span⟩ := by
  obtain ⟨ds, hprefix, hitems, -⟩ := applicationsOf_sound tokens final
  refine ⟨ds, (Session.before tokens final).readModel.1.span, hprefix.isInfix, ?_⟩
  rw [parseModel, parseRule_of_tokens h, readRule_model,
    (readModel_eq tokens final).2, hitems]
  rfl

/-- Whatever the source, if it has no lexical errors then the constructs of its model can be parsed
again from their own slices.  The model may be incomplete, and a construct may have replaced others
of its name. -/
theorem parseModel_faithful {source : String} (hlexed : (tokenize source).errors = []) :
    ∃ m, (parseModel source).value = some m ∧ FaithfulSpans source m := by
  obtain ⟨tokens, final, htokens, -, -, -, hkinds⟩ := final_token source
  obtain ⟨ds, span, hds, hvalue⟩ := parseModel_stems htokens
  have hstems {p : Part} (hp : (Part.model ⟨Meaning.applications ds, span⟩).Contains p) :
    p.StemsFrom tokens := (Part.StemsFrom.model hds).contains hp
  refine ⟨_, hvalue, ?application, ?declaration, ?endpoint, ?field, ?reference⟩
  case application =>
    intro name app happ
    obtain ⟨d, hd, heq⟩ := Meaning.mem_applications hds happ
    obtain ⟨rfl, rfl⟩ := Prod.mk.inj heq
    exact ⟨rfl, reparses_application hlexed htokens hd⟩
  case declaration =>
    intro app happ name t ht
    obtain ⟨d, hd, heq⟩ := (hstems happ).type_entry ht
    obtain ⟨rfl, rfl⟩ := Prod.mk.inj heq
    exact reparses_declaration hlexed htokens hd
  case endpoint =>
    intro app happ name e he
    obtain ⟨d, hd, rfl, hname⟩ := (hstems happ).endpoint_entry he
    exact ⟨hname, reparses_endpoint hlexed htokens hd⟩
  case field =>
    intro part hpart fields hfields name t ht
    obtain ⟨d, hd, heq⟩ := (hstems hpart).field_entry hfields ht
    obtain ⟨rfl, rfl⟩ := Prod.mk.inj heq
    exact reparses_field hlexed htokens hd
  case reference =>
    intro r hr
    obtain ⟨t, ht, rfl⟩ := (hstems hr).reference_token
    rw [Reference.dotted_ofDotted]
    exact (token_slice (htokens ▸ List.mem_append_left _ ht) (hkinds t ht)).2

/-- An application that replaced another one, in a model that is incomplete. -/
theorem parseModel_faithful_replaced :
    (tokenize "Shop:\nShop:\n/a GET:\n9").errors = [] ∧
      (parseModel "Shop:\nShop:\n/a GET:\n9").diagnostics ≠ [] ∧
      ∃ m, (parseModel "Shop:\nShop:\n/a GET:\n9").value = some m ∧
        FaithfulSpans "Shop:\nShop:\n/a GET:\n9" m ∧
        ∃ app, m.apps.entries = [("Shop", app)] ∧ app.span = ⟨6, 19⟩ := by
  have herrors : (tokenize "Shop:\nShop:\n/a GET:\n9").errors = [] := by decide +kernel
  have hvalue : (parseModel "Shop:\nShop:\n/a GET:\n9").value =
      some ⟨⟨[("Shop", ⟨"Shop", .empty,
        ⟨[("a", .endpoint ⟨"a", .get, .empty, ⟨12, 19⟩⟩)]⟩, ⟨6, 19⟩⟩)]⟩, ⟨0, 19⟩⟩ := by
    decide +kernel
  obtain ⟨m, hm, hfaithful⟩ := parseModel_faithful herrors
  obtain rfl := Option.some.inj (hm.symm.trans hvalue)
  exact ⟨herrors, by decide +kernel, _, hvalue, hfaithful, _, rfl, rfl⟩

end SyslModel
