import SyslModel.Proofs.Grammar.Recognition
import SyslModel.Proofs.NameMap
import SyslModel.Proofs.Tree.Part
/-!
# What the parts of a tree stem from

Every construct in a parsed model is what a derivation means, and the tokens of that derivation are
neighbours among those of the source.  `Part.StemsFrom` says this of a part, and the parts inside it
inherit it (`Part.StemsFrom.contains`), so it holds at any depth.  A construct that replaced another
one of its name is no exception: an entry of a map is one that was given.
-/

namespace SyslModel

variable {a b c e : Phrase} {tokens : List Token}

/-! ## Neighbouring tokens -/

namespace Derivation

theorem infix_first (d : Derivation (.seq a b)) : d.1.tokens <:+: d.tokens :=
  (List.prefix_append _ _).isInfix

theorem infix_second (d : Derivation (.seq a b)) : d.2.tokens <:+: d.tokens :=
  (List.suffix_append _ _).isInfix

theorem infix_middle (d : Derivation (.seq a (.seq b c))) : d.2.1.tokens <:+: d.tokens :=
  d.2.infix_first.trans d.infix_second

theorem infix_third (d : Derivation (.seq a (.seq b (.seq c e)))) : d.2.2.1.tokens <:+: d.tokens :=
  d.2.infix_middle.trans d.infix_second

theorem infix_fromFourth (d : Derivation (.seq a (.seq b (.seq c e)))) :
    d.2.2.2.tokens <:+: d.tokens :=
  (d.2.2.infix_second.trans d.2.infix_second).trans d.infix_second

theorem infix_of_mem {ds : Derivation (.many e)} {d : Derivation e}
    (hd : d ∈ (show List (Derivation e) from ds)) : d.tokens <:+: ds.tokens := by
  obtain ⟨front, back, heq⟩ := List.append_of_mem hd
  refine ⟨front.flatMap Derivation.tokens, back.flatMap Derivation.tokens, ?_⟩
  show _ = List.flatMap Derivation.tokens (show List (Derivation e) from ds)
  rw [heq, List.flatMap_append, List.flatMap_cons, List.append_assoc]

end Derivation

/-! ## Entries of maps -/

namespace Meaning

/-- An entry of a map that a repetition gives is what one of its items means. -/
theorem mem_many {α : Type} {v : Derivation e → String × α} {ds : Derivation (.many e)}
    (hds : ds.tokens <:+: tokens) {entry : String × α}
    (h : entry ∈ (NameMap.ofList (List.map v ds)).entries) :
    ∃ d : Derivation e, d.tokens <:+: tokens ∧ v d = entry := by
  obtain ⟨d, hd, rfl⟩ := List.mem_map.1 (NameMap.mem_of_mem_ofList h)
  exact ⟨d, (Derivation.infix_of_mem hd).trans hds, rfl⟩

theorem mem_applications {ds : Derivation Production.model} (hds : ds.tokens <:+: tokens)
    {entry : String × Application} (h : entry ∈ (applications ds).entries) :
    ∃ d : Derivation Production.application, d.tokens <:+: tokens ∧
      entry = ((application d).name, application d) := by
  obtain ⟨app, happ, rfl⟩ := List.mem_map.1 (NameMap.mem_of_mem_ofList h)
  obtain ⟨d, hd, rfl⟩ := List.mem_map.1 happ
  exact ⟨d, (Derivation.infix_of_mem hd).trans hds, rfl⟩

theorem mem_members {d : Derivation Production.application} (hd : d.tokens <:+: tokens)
    {entry : String × Member} (h : entry ∈ (application d).members.entries) :
    ∃ d' : Derivation Production.member, d'.tokens <:+: tokens ∧ member d' = entry := by
  have hmembers : d.2.2.2.tokens <:+: d.tokens := d.infix_fromFourth
  exact mem_many (hmembers.trans hd) h

end Meaning

/-! ## Parts -/

/-- The part is what a derivation of neighbouring tokens means.  Spans, attributes and enumerations
hold no construct that would have to be. -/
inductive Part.StemsFrom (tokens : List Token) : Part → Prop
  /-- A model, whatever its span: a partial one has a span of its own. -/
  | model {ds : Derivation Production.model} {span : Span} : ds.tokens <:+: tokens →
      StemsFrom tokens (.model ⟨Meaning.applications ds, span⟩)
  /-- An application. -/
  | application {d : Derivation Production.application} : d.tokens <:+: tokens →
      StemsFrom tokens (.application (Meaning.application d))
  /-- A member. -/
  | member {d : Derivation Production.member} : d.tokens <:+: tokens →
      StemsFrom tokens (.member (Meaning.member d).2)
  /-- An endpoint. -/
  | endpoint {d : Derivation Production.endpoint} : d.tokens <:+: tokens →
      StemsFrom tokens (.endpoint (Meaning.endpoint d))
  /-- A declared type. -/
  | declared {d : Derivation Production.declaration} : d.tokens <:+: tokens →
      StemsFrom tokens (.dataType (Meaning.declaration d).2)
  /-- The type of a field. -/
  | field {d : Derivation Production.field} : d.tokens <:+: tokens →
      StemsFrom tokens (.dataType (Meaning.field d).2)
  /-- The shape of a declared type. -/
  | body {m : Marker} {d : Derivation (Production.body m)} : d.tokens <:+: tokens →
      StemsFrom tokens (.shape (Meaning.body m d))
  /-- The shape of the type of a field. -/
  | typeName {d : Derivation Production.typeRef} : d.tokens <:+: tokens →
      StemsFrom tokens (.shape (Meaning.shape d))
  /-- A table. -/
  | relation {ds : Derivation (.many Production.field)} : ds.tokens <:+: tokens →
      StemsFrom tokens (.relation (.ofFields (Meaning.fields ds)))
  /-- The fields of a record. -/
  | tuple {ds : Derivation (.many Production.field)} : ds.tokens <:+: tokens →
      StemsFrom tokens (.tuple (Meaning.fields ds))
  /-- A reference, which is a token. -/
  | reference {t : Token} : t ∈ tokens → StemsFrom tokens (.reference (.ofDotted t.text t.span))
  /-- A span. -/
  | span (s : Span) : StemsFrom tokens (.span s)
  /-- An attribute. -/
  | attr (a : Attribute) : StemsFrom tokens (.attr a)
  /-- The items of an enumeration. -/
  | enumeration (items : NameMap Int) : StemsFrom tokens (.enumeration items)
  /-- Integers under names. -/
  | integers (items : NameMap Int) : StemsFrom tokens (.integers items)

namespace Part.StemsFrom

theorem attrs (attrs : Attributes) : ∀ c ∈ attrs.values.map Part.attr, c.StemsFrom tokens := by
  intro c hc
  obtain ⟨a, -, rfl⟩ := List.mem_map.1 hc
  exact .attr a

theorem fields {ds : Derivation (.many Production.field)} (hds : ds.tokens <:+: tokens) :
    ∀ c ∈ (Meaning.fields ds).values.map Part.dataType, c.StemsFrom tokens := by
  intro c hc
  obtain ⟨t, ht, rfl⟩ := List.mem_map.1 hc
  obtain ⟨entry, hentry, rfl⟩ := List.mem_map.1 ht
  obtain ⟨d, hd, rfl⟩ := Meaning.mem_many hds hentry
  exact .field hd

/-- The parts that a part is made of stem from tokens as well. -/
theorem children {p : Part} (h : p.StemsFrom tokens) : ∀ c ∈ p.children, c.StemsFrom tokens := by
  cases h with
  | model hds =>
    refine List.forall_mem_cons.2 ⟨.span _, fun c hc => ?_⟩
    obtain ⟨app, happ, rfl⟩ := List.mem_map.1 hc
    obtain ⟨entry, hentry, rfl⟩ := List.mem_map.1 happ
    obtain ⟨d, hd, rfl⟩ := Meaning.mem_applications hds hentry
    exact .application hd
  | application hd =>
    refine List.forall_mem_cons.2 ⟨.span _, List.forall_mem_append.2 ⟨attrs _, fun c hc => ?_⟩⟩
    obtain ⟨member, hmember, rfl⟩ := List.mem_map.1 hc
    obtain ⟨entry, hentry, rfl⟩ := List.mem_map.1 hmember
    obtain ⟨d', hd', rfl⟩ := Meaning.mem_members hd hentry
    exact .member hd'
  | @member d hd =>
    rcases d with d | d
    · exact List.forall_mem_singleton.2 (.declared hd)
    · exact List.forall_mem_singleton.2 (.endpoint hd)
  | endpoint hd => exact List.forall_mem_cons.2 ⟨.span _, attrs _⟩
  | @declared d hd =>
    obtain ⟨m, d, rfl⟩ := Grammar.exists_declare d
    rw [Grammar.declare_tokens] at hd
    rw [Grammar.meaning_declare]
    have hbody : d.2.2.2.2.tokens <:+: d.tokens := d.2.infix_fromFourth.trans d.infix_second
    exact List.forall_mem_cons.2 ⟨.span _, List.forall_mem_cons.2 ⟨.body (hbody.trans hd), attrs _⟩⟩
  | @field d hd =>
    have htype : d.2.2.1.tokens <:+: d.tokens := d.infix_third
    exact List.forall_mem_cons.2
      ⟨.span _, List.forall_mem_cons.2 ⟨.typeName (htype.trans hd), attrs _⟩⟩
  | @body m d hd =>
    cases m with
    | table => exact List.forall_mem_singleton.2 (.relation hd)
    | type => exact List.forall_mem_singleton.2 (.tuple hd)
    | enumeration => exact List.forall_mem_singleton.2 (.enumeration _)
  | @typeName d hd =>
    rcases d with u | u | u
    · exact List.forall_mem_nil _
    · exact List.forall_mem_singleton.2 (.reference (hd.subset (List.mem_singleton_self _)))
    · exact List.forall_mem_singleton.2 (.reference (hd.subset (List.mem_singleton_self _)))
  | relation hds => exact fields hds
  | tuple hds => exact fields hds
  | reference _ => exact List.forall_mem_singleton.2 (.span _)
  | enumeration _ => exact List.forall_mem_singleton.2 (.integers _)
  | span _ => exact List.forall_mem_nil _
  | attr _ => exact List.forall_mem_nil _
  | integers _ => exact List.forall_mem_nil _

/-- Everything inside a part that stems from tokens stems from them. -/
theorem contains {whole part : Part} (hcontains : whole.Contains part)
    (h : whole.StemsFrom tokens) : part.StemsFrom tokens :=
  hcontains.induct (fun _ hp => hp.children) h

/-! ## What stands under a name -/

theorem type_entry {app : Application} (h : (Part.application app).StemsFrom tokens)
    {name : String} {t : DataType} (ht : (name, .type t) ∈ app.members.entries) :
    ∃ d : Derivation Production.declaration, d.tokens <:+: tokens ∧
      Meaning.declaration d = (name, t) := by
  cases h with
  | application hd =>
    obtain ⟨d | d, hd', heq⟩ := Meaning.mem_members hd ht
    · obtain ⟨rfl, hmember⟩ := Prod.mk.inj heq
      exact ⟨d, hd', Prod.ext rfl (Member.type.inj hmember)⟩
    · cases (Prod.mk.inj heq).2

theorem endpoint_entry {app : Application} (h : (Part.application app).StemsFrom tokens)
    {name : String} {e : Endpoint} (he : (name, .endpoint e) ∈ app.members.entries) :
    ∃ d : Derivation Production.endpoint, d.tokens <:+: tokens ∧ Meaning.endpoint d = e ∧
      e.name = name := by
  cases h with
  | application hd =>
    obtain ⟨d | d, hd', heq⟩ := Meaning.mem_members hd he
    · cases (Prod.mk.inj heq).2
    · obtain ⟨rfl, hmember⟩ := Prod.mk.inj heq
      obtain rfl := Member.endpoint.inj hmember
      exact ⟨d, hd', rfl, rfl⟩

/-- Tables and records have their fields from the same production. -/
theorem field_entry {p : Part} {fields : Fields} (h : p.StemsFrom tokens)
    (hfields : p.fields? = some fields) {name : String} {t : DataType}
    (ht : (name, t) ∈ fields.entries) :
    ∃ d : Derivation Production.field, d.tokens <:+: tokens ∧ Meaning.field d = (name, t) := by
  cases h with
  | relation hds =>
    cases hfields
    exact Meaning.mem_many hds ht
  | tuple hds =>
    cases hfields
    exact Meaning.mem_many hds ht
  | _ => cases hfields

theorem reference_token {r : Reference} (h : (Part.reference r).StemsFrom tokens) :
    ∃ t ∈ tokens, Reference.ofDotted t.text t.span = r := by
  cases h with
  | reference ht => exact ⟨_, ht, rfl⟩

end Part.StemsFrom
end SyslModel
