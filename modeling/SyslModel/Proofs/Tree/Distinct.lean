import SyslModel.Proofs.Grammar.Calls
import SyslModel.Proofs.Json.PartJson
import SyslModel.Proofs.NameMap.LastWrite
/-!
# No name twice, anywhere in a tree

A lookup in a name map returns the first match, so lookups are right only if no name stands twice.
`Part.Distinct` says that none does, in any map at any depth of a part, and `Part.Obtained.distinct`
that this holds of every tree that is parsed or decoded.  So a type or an endpoint is looked up in
an application exactly if it is listed there (`Application.Lookups`).

Trees that are parsed are followed construct by construct; a tree that is decoded is given back from
its own JSON value, which is impossible where a name stands twice.

`orderedMaps` puts this together with the laws of single maps.
-/

namespace SyslModel

open Json

/-! ## The maps of a part -/

/-- The names of the maps that a part is itself made of, map by map. -/
def Part.mapNames : Part → List (List String)
  | .model m => [m.apps.names]
  | .application app => [app.attrs.names, app.members.names]
  | .endpoint e => [e.attrs.names]
  | .dataType t => [t.attrs.names]
  | .relation table => [table.names]
  | .tuple fields => [fields.names]
  | .enumeration items | .integers items => [items.names]
  | .member _ | .shape _ | .attr _ | .reference _ | .span _ | .position _ => []

/-- The names of a map of attributes that belongs to no construct. -/
def Fragment.mapNames : Fragment → List (List String)
  | .attributes attrs | .fieldAttrs attrs => [attrs.names]
  | .model _ | .application _ | .attribute _ _ | .declaration _ _ | .enumItem _ _ | .field _ _
  | .typeRef _ | .fieldAttr _ _ | .endpoint _ => []

/-- In no map of a part, at any depth, does a name stand twice. -/
def Part.Distinct (whole : Part) : Prop :=
  ∀ part, whole.Contains part → ∀ names ∈ part.mapNames, names.Nodup

/-- The parts that come out of parsing and decoding. -/
inductive Part.Obtained : Part → Prop
  /-- A part of what a call on some tokens returns, after any calls. -/
  | read {tokens : List Token} {fragment : Fragment} {p : Part} : fragment.ReadFrom tokens →
      p ∈ fragment.parts → Obtained p
  /-- A part of what a source is parsed as. -/
  | parsed {source : String} {rule : Rule} {fragment : Fragment} {p : Part} :
      (parseRule source rule).value = some fragment → p ∈ fragment.parts → Obtained p
  /-- A JSON value, as that of a text, is read as a type within any budget of nested values. -/
  | decoded {kind : PartKind} {depth : Nat} {value : Value} {p : Part} :
      kind.ofJson? depth value = some p → Obtained p
  /-- Everything inside of what is obtained. -/
  | inside {whole p : Part} : Obtained whole → whole.Contains p → Obtained p

theorem NameMap.nodup_ofList {α : Type} (list : List (String × α)) : (ofList list).names.Nodup :=
  (each_true_ofList list).nodup

namespace Part

/-! ## From the children of a part -/

theorem Distinct.of_contains {whole part : Part} (h : whole.Distinct)
    (hcontains : whole.Contains part) : part.Distinct :=
  fun inner hinner => h inner (Relation.ReflTransGen.trans hcontains hinner)

/-- A part is distinct if its own maps are and the parts that it is made of. -/
theorem distinct_of_children {p : Part} (hown : ∀ names ∈ p.mapNames, names.Nodup)
    (hchildren : ∀ c ∈ p.children, c.Distinct) : p.Distinct := by
  intro part hcontains
  cases Relation.ReflTransGen.cases_head hcontains with
  | inl heq => exact heq ▸ hown
  | inr h =>
    obtain ⟨c, hc, hinside⟩ := h
    exact hchildren c hc part hinside

theorem distinct_span (s : Span) : (Part.span s).Distinct :=
  distinct_of_children (List.forall_mem_nil _) (List.forall_mem_nil _)

theorem distinct_attr (a : Attribute) : (Part.attr a).Distinct :=
  distinct_of_children (List.forall_mem_nil _) (List.forall_mem_nil _)

theorem distinct_attrs (attrs : Attributes) : ∀ c ∈ attrs.values.map Part.attr, c.Distinct := by
  intro c hc
  obtain ⟨a, -, rfl⟩ := List.mem_map.1 hc
  exact distinct_attr a

theorem distinct_reference (r : Reference) : (Part.reference r).Distinct :=
  distinct_of_children (List.forall_mem_nil _) (List.forall_mem_singleton.2 (distinct_span r.span))

theorem distinct_dataType {t : DataType} (hattrs : t.attrs.names.Nodup)
    (hshape : (Part.shape t.shape).Distinct) : (Part.dataType t).Distinct := by
  apply distinct_of_children
  · exact List.forall_mem_singleton.2 hattrs
  · exact List.forall_mem_cons.2
      ⟨distinct_span t.span, List.forall_mem_cons.2 ⟨hshape, distinct_attrs t.attrs⟩⟩

/-- The fields of a table or of a record are given one by one. -/
theorem distinct_values {α : Type} {variant : α → Part} {list : List (String × α)}
    (h : ∀ entry ∈ list, (variant entry.2).Distinct) :
    ∀ c ∈ (NameMap.ofList list).values.map variant, c.Distinct := by
  intro c hc
  obtain ⟨value, hvalue, rfl⟩ := List.mem_map.1 hc
  obtain ⟨entry, hentry, rfl⟩ := List.mem_map.1 hvalue
  exact h entry (NameMap.mem_of_mem_ofList hentry)

/-! ## What is parsed -/

theorem distinct_typeName (d : Derivation Production.typeRef) :
    (Part.shape (Meaning.shape d)).Distinct := by
  apply distinct_of_children (List.forall_mem_nil _)
  rcases d with t | t | t
  · exact List.forall_mem_nil _
  · exact List.forall_mem_singleton.2 (distinct_reference _)
  · exact List.forall_mem_singleton.2 (distinct_reference _)

theorem distinct_typeRef (d : Derivation Production.typeRef) :
    (Part.dataType (Meaning.typeRef d)).Distinct :=
  distinct_dataType List.nodup_nil (distinct_typeName d)

theorem nodup_fieldAttrs (d : Derivation (.option Production.fieldAttrs)) :
    (Option.elim d .empty Meaning.fieldAttrs : Attributes).names.Nodup := by
  cases d with
  | none => exact List.nodup_nil
  | some d => exact NameMap.nodup_ofList _

theorem distinct_field (d : Derivation Production.field) :
    (Part.dataType (Meaning.field d).2).Distinct :=
  distinct_dataType (nodup_fieldAttrs d.2.2.2.2) (distinct_typeName d.2.2.1)

theorem distinct_fields (ds : Derivation (.many Production.field)) :
    ∀ c ∈ (Meaning.fields ds).values.map Part.dataType, c.Distinct := by
  apply distinct_values
  intro entry hentry
  obtain ⟨d, -, rfl⟩ := List.mem_map.1 hentry
  exact distinct_field d

theorem distinct_integers {items : NameMap Int} (h : items.names.Nodup) :
    (Part.integers items).Distinct :=
  distinct_of_children (List.forall_mem_singleton.2 h) (List.forall_mem_nil _)

theorem distinct_body {m : Marker} (d : Derivation (Production.body m)) :
    (Part.shape (Meaning.body m d)).Distinct := by
  have hown : ∀ names ∈ (Part.shape (Meaning.body m d)).mapNames, names.Nodup :=
    List.forall_mem_nil _
  apply distinct_of_children hown
  cases m with
  | table =>
    refine List.forall_mem_singleton.2 (distinct_of_children ?_ (distinct_fields d))
    exact List.forall_mem_singleton.2 (NameMap.nodup_ofList _)
  | type =>
    refine List.forall_mem_singleton.2 (distinct_of_children ?_ (distinct_fields d))
    exact List.forall_mem_singleton.2 (NameMap.nodup_ofList _)
  | enumeration =>
    have hitems : (Meaning.enumItems d).names.Nodup := NameMap.nodup_ofList _
    refine List.forall_mem_singleton.2 (distinct_of_children ?_ ?_)
    · exact List.forall_mem_singleton.2 hitems
    · exact List.forall_mem_singleton.2 (distinct_integers hitems)

theorem nodup_attributes (d : Derivation (.option Production.attrs)) :
    (Meaning.optionalAttributes d).names.Nodup := by
  cases d with
  | none => exact List.nodup_nil
  | some d => exact NameMap.nodup_ofList _

theorem distinct_declaration (d : Derivation Production.declaration) :
    (Part.dataType (Meaning.declaration d).2).Distinct := by
  obtain ⟨m, d, rfl⟩ := Grammar.exists_declare d
  rw [Grammar.meaning_declare]
  exact distinct_dataType (nodup_attributes d.2.2.1) (distinct_body d.2.2.2.2)

theorem distinct_endpoint (d : Derivation Production.endpoint) :
    (Part.endpoint (Meaning.endpoint d)).Distinct := by
  apply distinct_of_children
  · exact List.forall_mem_singleton.2 (nodup_attributes d.2.2.1)
  · exact List.forall_mem_cons.2 ⟨distinct_span _, distinct_attrs _⟩

theorem distinct_member (d : Derivation Production.member) :
    (Part.member (Meaning.member d).2).Distinct := by
  rcases d with d | d
  · exact distinct_of_children (List.forall_mem_nil _)
      (List.forall_mem_singleton.2 (distinct_declaration d))
  · exact distinct_of_children (List.forall_mem_nil _)
      (List.forall_mem_singleton.2 (distinct_endpoint d))

theorem distinct_application (d : Derivation Production.application) :
    (Part.application (Meaning.application d)).Distinct := by
  apply distinct_of_children
  · exact List.forall_mem_cons.2 ⟨nodup_attributes d.2.1,
      List.forall_mem_singleton.2 (NameMap.nodup_ofList _)⟩
  · refine List.forall_mem_cons.2 ⟨distinct_span _, List.forall_mem_append.2
      ⟨distinct_attrs _, distinct_values ?_⟩⟩
    intro entry hentry
    obtain ⟨d', -, rfl⟩ := List.mem_map.1 hentry
    exact distinct_member d'

theorem distinct_model (ds : Derivation Production.model) (span : Span) :
    (Part.model ⟨Meaning.applications ds, span⟩).Distinct := by
  apply distinct_of_children
  · exact List.forall_mem_singleton.2 (NameMap.nodup_ofList _)
  · refine List.forall_mem_cons.2 ⟨distinct_span _, distinct_values ?_⟩
    intro entry hentry
    obtain ⟨app, happ, rfl⟩ := List.mem_map.1 hentry
    obtain ⟨d, -, rfl⟩ := List.mem_map.1 happ
    exact distinct_application d

/-- The parts of whatever a call returns. -/
theorem distinct_of_means {tokens : List Token} {fragment : Fragment}
    (h : fragment.Means tokens) : ∀ p ∈ fragment.parts, p.Distinct := by
  cases h with
  | model _ => exact List.forall_mem_singleton.2 (distinct_model _ _)
  | @ofRule rule d final hne _ =>
    cases rule with
    | model => exact absurd rfl hne
    | application => exact List.forall_mem_singleton.2 (distinct_application d)
    | attributes | fieldAttrs => exact distinct_attrs _
    | «attribute» | fieldAttr => exact List.forall_mem_singleton.2 (distinct_attr _)
    | declaration => exact List.forall_mem_singleton.2 (distinct_declaration d)
    | enumItem => exact List.forall_mem_nil _
    | field => exact List.forall_mem_singleton.2 (distinct_field d)
    | typeRef => exact List.forall_mem_singleton.2 (distinct_typeRef d)
    | endpoint => exact List.forall_mem_singleton.2 (distinct_endpoint d)

/-! ## What is decoded -/

theorem nodup_of_restores {α : Type} {decode : Decoder α} {encode : α → Value} {m : NameMap α}
    {depth : Nat} (h : Restores (mapOf decode) (NameMap.toJson encode) depth m) :
    m.names.Nodup := by
  cases depth with
  | zero => cases h
  | succ depth => exact (restores_mapOf_iff.1 h).nodup

/-- A part that is given back has no name twice in its own maps. -/
theorem Restored.nodup {depth : Nat} {p : Part} (h : p.Restored (depth + 1)) :
    ∀ names ∈ p.mapNames, names.Nodup := by
  cases p with
  | model m =>
    have happs := (Model.isRecord.restores_iff.1 (restored_model.1 h)).1
    exact List.forall_mem_singleton.2 (nodup_of_restores happs)
  | application app =>
    obtain ⟨hattrs, hmembers, -⟩ := Application.restores_iff.1 (restored_application.1 h)
    exact List.forall_mem_cons.2 ⟨nodup_of_restores hattrs,
      List.forall_mem_singleton.2 (nodup_of_restores hmembers)⟩
  | endpoint e =>
    have hattrs := (Endpoint.restores_iff.1 (restored_endpoint.1 h)).1
    exact List.forall_mem_singleton.2 (nodup_of_restores hattrs)
  | dataType t =>
    have hattrs := (DataType.restores_iff.1 (restored_dataType.1 h)).2.1
    exact List.forall_mem_singleton.2 (nodup_of_restores hattrs)
  | relation table =>
    have htable := (Table.restores_iff.1 (restored_relation.1 h)).2
    have hfields := Fields.relation_isRecord.restores_iff.1 htable
    exact List.forall_mem_singleton.2 (nodup_of_restores hfields)
  | tuple fields =>
    have hfields := Fields.tuple_isRecord.restores_iff.1 (restored_tuple.1 h)
    exact List.forall_mem_singleton.2 (nodup_of_restores hfields)
  | enumeration items =>
    have hitems := enumeration_isRecord.restores_iff.1 (restored_enumeration.1 h)
    exact List.forall_mem_singleton.2 (nodup_of_restores hitems)
  | integers items =>
    exact List.forall_mem_singleton.2 (nodup_of_restores (restored_integers.1 h))
  | member | shape | attr | reference | span | position => exact List.forall_mem_nil _

theorem Restored.distinct {depth : Nat} {p : Part} (h : p.Restored depth) : p.Distinct :=
  fun _ hcontains => (h.of_contains hcontains).succ.nodup

/-- Whatever is parsed or decoded has no name twice in any of its maps. -/
theorem Obtained.distinct {p : Part} (h : p.Obtained) : p.Distinct := by
  induction h with
  | read hread hp => exact distinct_of_means hread.means _ hp
  | parsed hvalue hp => exact distinct_of_means (readFrom_of_parseRule hvalue).means _ hp
  | decoded hdecoded => exact (restored_of_ofJson? hdecoded).2.distinct
  | inside _ hcontains ih => exact ih.of_contains hcontains

end Part

/-- Nor do attributes that belong to no construct. -/
theorem Fragment.ReadFrom.nodup {tokens : List Token} {fragment : Fragment}
    (h : fragment.ReadFrom tokens) : ∀ names ∈ fragment.mapNames, names.Nodup := by
  cases h.means with
  | model _ => exact List.forall_mem_nil _
  | @ofRule rule d final hne _ =>
    cases rule with
    | model => exact absurd rfl hne
    | attributes | fieldAttrs => exact List.forall_mem_singleton.2 (NameMap.nodup_ofList _)
    | _ => exact List.forall_mem_nil _

/-! ## Types and endpoints of an application -/

/-- What is looked up in an application is what is listed in it, and its members are the types and
the endpoints. -/
structure Application.Lookups (app : Application) : Prop where
  /-- The type of a name is the one that is listed under this name. -/
  type : ∀ name t, app.type? name = some t ↔ (name, t) ∈ app.types
  /-- The endpoint of a name is the one that is listed under this name. -/
  endpoint : ∀ name e, app.endpoint? name = some e ↔ (name, e) ∈ app.endpoints
  /-- Each member is among the types or among the endpoints, and both keep the order. -/
  partition : app.members.entries.partition (fun member => member.2.type?.isSome) =
    (app.types.map fun entry => (entry.1, .type entry.2),
      app.endpoints.map fun entry => (entry.1, .endpoint entry.2))

/-- Members in two lists, each in order. -/
theorem Application.partition_members (entries : List (String × Member)) :
    entries.partition (fun member => member.2.type?.isSome) =
      ((entries.filterMap fun member => member.2.type?.map (member.1, ·)).map
          fun entry => (entry.1, .type entry.2),
        (entries.filterMap fun member => member.2.endpoint?.map (member.1, ·)).map
          fun entry => (entry.1, .endpoint entry.2)) := by
  rw [List.partition_eq_filter_filter]
  induction entries with
  | nil => rfl
  | cons entry entries ih =>
    obtain ⟨hfirst, hsecond⟩ := Prod.mk.inj ih
    obtain ⟨name, t | e⟩ := entry
    · simp_all [Member.type?, Member.endpoint?]
    · simp_all [Member.type?, Member.endpoint?]

/-- Without a name twice among its members, lookups in an application are right. -/
theorem Application.lookups_of_nodup {app : Application} (h : app.members.names.Nodup) :
    app.Lookups := by
  have heach : app.members.Each fun _ _ => True := ⟨h, fun _ _ => trivial⟩
  exact ⟨fun _ _ => heach.bind_get?_eq_some_iff, fun _ _ => heach.bind_get?_eq_some_iff,
    partition_members _⟩

/-! ## All together -/

/-- The laws of maps from names, and what they come to in trees. -/
structure OrderedMaps : Prop where
  /-- However a map is made of pairs, it is one and the same, and the last write wins in it. -/
  made : ∀ {α : Type} (pairs : List (String × α)),
    ∃ m, NameMap.Builds pairs m ∧ NameMap.LastWriteWins pairs m
  /-- Giving a name another value tells what was looked up under it, and makes the map of the pairs
  with this one behind them. -/
  replaced : ∀ {α : Type} (pairs : List (String × α)) (name : String) (value : α),
    (NameMap.ofList pairs).replace name value =
      ((NameMap.ofList pairs).get? name, NameMap.ofList (pairs ++ [(name, value)]))
  /-- In no map of a tree that is parsed or decoded does a name stand twice. -/
  distinct : ∀ whole part : Part, whole.Obtained → whole.Contains part →
    ∀ names ∈ part.mapNames, names.Nodup
  /-- Nor in attributes that are parsed on their own. -/
  attributes : ∀ (tokens : List Token) (fragment : Fragment), fragment.ReadFrom tokens →
    ∀ names ∈ fragment.mapNames, names.Nodup
  /-- Lookups in every application of such a tree are right. -/
  lookups : ∀ (whole : Part) (app : Application), whole.Obtained →
    whole.Contains (.application app) → app.Lookups

/-- A name map keeps the first place and the last value of every name, and so does every map in a
tree that is parsed or decoded. -/
theorem orderedMaps : OrderedMaps where
  made pairs := ⟨.ofList pairs, NameMap.builds_ofList pairs, NameMap.lastWriteWins_ofList pairs⟩
  replaced pairs name value := by rw [NameMap.replace_eq, NameMap.ofList_concat]
  distinct whole part hwhole hcontains := hwhole.distinct part hcontains
  attributes _ _ hread := hread.nodup
  lookups whole app hwhole hcontains := by
    apply Application.lookups_of_nodup
    exact hwhole.distinct _ hcontains _ (List.mem_cons_of_mem _ (List.mem_singleton_self _))

end SyslModel
