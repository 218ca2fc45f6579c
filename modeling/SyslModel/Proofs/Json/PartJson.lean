import SyslModel.Proofs.Json.TreeJson
import SyslModel.Proofs.Json.Written
import SyslModel.Proofs.Tree.Part
/-!
# Parts of trees are given back

`PartKind.ofJson?` decodes a part of a known type.  Whatever it gives is given back
(`Part.restored_of_ofJson?`), and a part that is given back has parts that are
(`Part.Restored.of_contains`).
-/

namespace SyslModel

open Json

/-- A part as a JSON value. -/
def Part.toJson : Part → Value
  | .model m => m.toJson
  | .application app => app.toJson
  | .member m => m.toJson
  | .endpoint e => e.toJson
  | .dataType t => t.toJson
  | .shape s => s.toJson
  | .relation table => table.toJson
  | .tuple fields => fields.tupleToJson
  | .enumeration items => enumerationToJson items
  | .attr a => a.toJson
  | .reference r => r.toJson
  | .span s => s.toJson
  | .position p => p.toJson
  | .integers items => items.toJson .integer

/-- The part of a type that a value denotes. -/
def PartKind.ofJson? : PartKind → Decoder Part
  | .model, depth, value => (Model.ofJson? depth value).map .model
  | .application, depth, value => (Application.ofJson? depth value).map .application
  | .member, depth, value => (Member.ofJson? depth value).map .member
  | .endpoint, depth, value => (Endpoint.ofJson? depth value).map .endpoint
  | .dataType, depth, value => (DataType.ofJson? depth value).map .dataType
  | .shape, depth, value => (Shape.ofJson? depth value).map .shape
  | .relation, depth, value => (Table.ofJson? depth value).map .relation
  | .tuple, depth, value => (Fields.recordOfJson? depth value).map .tuple
  | .enumeration, depth, value => (enumerationOfJson? depth value).map .enumeration
  | .attr, depth, value => (Attribute.ofJson? depth value).map .attr
  | .reference, depth, value => (Reference.ofJson? depth value).map .reference
  | .span, depth, value => (Span.ofJson? depth value).map .span
  | .position, depth, value => (Position.ofJson? depth value).map .position
  | .integers, depth, value => (integersOfJson? depth value).map .integers

namespace Part

/-- Decoding what a part is written as, as a part of its type, gives it back. -/
def Restored (depth : Nat) (p : Part) : Prop := Restores p.kind.ofJson? Part.toJson depth p

variable {depth : Nat}

section Kinds

variable {m : Model} {app : Application} {member : Member} {e : Endpoint} {t : DataType}
  {s : Shape DataType} {table : Table DataType} {fields : Fields} {items : NameMap Int}
  {a : Attribute} {r : Reference} {span : Span} {position : Position}

theorem restored_model :
    (Part.model m).Restored depth ↔ Restores Model.ofJson? Model.toJson depth m :=
  map_eq_some_variant_iff fun _ _ => Part.model.inj

theorem restored_application : (Part.application app).Restored depth ↔
    Restores Application.ofJson? Application.toJson depth app :=
  map_eq_some_variant_iff fun _ _ => Part.application.inj

theorem restored_member :
    (Part.member member).Restored depth ↔ Restores Member.ofJson? Member.toJson depth member :=
  map_eq_some_variant_iff fun _ _ => Part.member.inj

theorem restored_endpoint :
    (Part.endpoint e).Restored depth ↔ Restores Endpoint.ofJson? Endpoint.toJson depth e :=
  map_eq_some_variant_iff fun _ _ => Part.endpoint.inj

theorem restored_dataType :
    (Part.dataType t).Restored depth ↔ Restores DataType.ofJson? DataType.toJson depth t :=
  map_eq_some_variant_iff fun _ _ => Part.dataType.inj

theorem restored_shape :
    (Part.shape s).Restored depth ↔ Restores Shape.ofJson? Shape.toJson depth s :=
  map_eq_some_variant_iff fun _ _ => Part.shape.inj

theorem restored_relation : (Part.relation table).Restored depth ↔
    Restores Table.ofJson? Table.toJson depth table :=
  map_eq_some_variant_iff fun _ _ => Part.relation.inj

theorem restored_tuple : (Part.tuple fields).Restored depth ↔
    Restores Fields.recordOfJson? Fields.tupleToJson depth fields :=
  map_eq_some_variant_iff fun _ _ => Part.tuple.inj

theorem restored_enumeration : (Part.enumeration items).Restored depth ↔
    Restores enumerationOfJson? enumerationToJson depth items :=
  map_eq_some_variant_iff fun _ _ => Part.enumeration.inj

theorem restored_attribute :
    (Part.attr a).Restored depth ↔ Restores Attribute.ofJson? Attribute.toJson depth a :=
  map_eq_some_variant_iff fun _ _ => Part.attr.inj

theorem restored_reference :
    (Part.reference r).Restored depth ↔ Restores Reference.ofJson? Reference.toJson depth r :=
  map_eq_some_variant_iff fun _ _ => Part.reference.inj

theorem restored_span :
    (Part.span span).Restored depth ↔ Restores Span.ofJson? Span.toJson depth span :=
  map_eq_some_variant_iff fun _ _ => Part.span.inj

theorem restored_position : (Part.position position).Restored depth ↔
    Restores Position.ofJson? Position.toJson depth position :=
  map_eq_some_variant_iff fun _ _ => Part.position.inj

theorem restored_integers : (Part.integers items).Restored depth ↔
    Restores integersOfJson? (NameMap.toJson Value.integer) depth items :=
  map_eq_some_variant_iff fun _ _ => Part.integers.inj

end Kinds

/-! ## What was decoded -/

/-- What decodes the parts of one type, for one budget. -/
theorem of_lawful {α : Type} {decode : Decoder α} {encode : α → Value} {kind : PartKind}
    (variant : α → Part) (h : Lawful decode encode depth) (hkind : ∀ x, (variant x).kind = kind)
    (hrestored : ∀ {x}, (variant x).Restored depth ↔ Restores decode encode depth x)
    {value : Value} {p : Part} (hp : (decode depth value).map variant = some p) :
    p.kind = kind ∧ p.Restored depth := by
  obtain ⟨x, hx, rfl⟩ := Option.map_eq_some_iff.1 hp
  exact ⟨hkind x, hrestored.2 (h.stable hx)⟩

/-- Whatever was decoded is of the type it was decoded as, and is given back. -/
theorem restored_of_ofJson? {kind : PartKind} {value : Value} {p : Part}
    (h : kind.ofJson? depth value = some p) : p.kind = kind ∧ p.Restored depth := by
  have htypes := typesLawful depth
  cases kind with
  | model => exact of_lawful .model (Model.lawful depth) (fun _ => rfl) restored_model h
  | application =>
    exact of_lawful .application (Application.lawful depth) (fun _ => rfl) restored_application h
  | member => exact of_lawful .member (Member.lawful depth) (fun _ => rfl) restored_member h
  | endpoint => exact of_lawful .endpoint (Endpoint.lawful depth) (fun _ => rfl) restored_endpoint h
  | dataType => exact of_lawful .dataType htypes.dataType (fun _ => rfl) restored_dataType h
  | shape => exact of_lawful .shape htypes.shape (fun _ => rfl) restored_shape h
  | relation => exact of_lawful .relation htypes.relation (fun _ => rfl) restored_relation h
  | tuple => exact of_lawful .tuple htypes.tuple (fun _ => rfl) restored_tuple h
  | enumeration =>
    exact of_lawful .enumeration (enumeration_lawful depth) (fun _ => rfl) restored_enumeration h
  | attr => exact of_lawful .attr (Attribute.lawful depth) (fun _ => rfl) restored_attribute h
  | reference =>
    exact of_lawful .reference (Reference.lawful depth) (fun _ => rfl) restored_reference h
  | span => exact of_lawful .span (Span.lawful depth) (fun _ => rfl) restored_span h
  | position => exact of_lawful .position (Position.lawful depth) (fun _ => rfl) restored_position h
  | integers => exact of_lawful .integers (integers_lawful depth) (fun _ => rfl) restored_integers h

/-! ## Parts of parts -/

theorem Restored.succ {p : Part} (h : p.Restored depth) : p.Restored (depth + 1) := by
  have htypes := typesLawful depth
  cases p with
  | model => exact restored_model.2 ((Model.lawful depth).widens (restored_model.1 h))
  | application =>
    exact restored_application.2 ((Application.lawful depth).widens (restored_application.1 h))
  | member => exact restored_member.2 ((Member.lawful depth).widens (restored_member.1 h))
  | endpoint => exact restored_endpoint.2 ((Endpoint.lawful depth).widens (restored_endpoint.1 h))
  | dataType => exact restored_dataType.2 (htypes.dataType.widens (restored_dataType.1 h))
  | shape => exact restored_shape.2 (htypes.shape.widens (restored_shape.1 h))
  | relation => exact restored_relation.2 (htypes.relation.widens (restored_relation.1 h))
  | tuple => exact restored_tuple.2 (htypes.tuple.widens (restored_tuple.1 h))
  | enumeration =>
    exact restored_enumeration.2 ((enumeration_lawful depth).widens (restored_enumeration.1 h))
  | attr =>
    exact restored_attribute.2 ((Attribute.lawful depth).widens (restored_attribute.1 h))
  | reference =>
    exact restored_reference.2 ((Reference.lawful depth).widens (restored_reference.1 h))
  | span => exact restored_span.2 ((Span.lawful depth).widens (restored_span.1 h))
  | position => exact restored_position.2 ((Position.lawful depth).widens (restored_position.1 h))
  | integers => exact restored_integers.2 ((integers_lawful depth).widens (restored_integers.1 h))

theorem Restored.mono {p : Part} {more : Nat} (h : p.Restored depth) (hle : depth ≤ more) :
    p.Restored more := by
  induction hle with
  | refl => exact h
  | step _ ih => exact ih.succ

/-- The values of a map that is given back are given back. -/
theorem restored_values {α : Type} {decode : Decoder α} {encode : α → Value} {variant : α → Part}
    (hrestored : ∀ {depth x}, (variant x).Restored depth ↔ Restores decode encode depth x)
    {m : NameMap α} (h : Restores (mapOf decode) (NameMap.toJson encode) depth m) :
    ∀ c ∈ m.values.map variant, c.Restored depth := by
  cases depth with
  | zero => cases h
  | succ depth =>
    have heach := restores_mapOf_iff.1 h
    intro c hc
    obtain ⟨x, hx, rfl⟩ := List.mem_map.1 hc
    obtain ⟨e, he, rfl⟩ := List.mem_map.1 hx
    exact (hrestored.2 (heach.entry e he)).succ

theorem restored_attributes {attrs : Attributes}
    (h : Restores Attributes.ofJson? Attributes.toJson depth attrs) :
    ∀ c ∈ attrs.values.map Part.attr, c.Restored depth :=
  restored_values restored_attribute h

/-- The parts that a part is made of are given back if it is. -/
theorem Restored.children {p : Part} (h : p.Restored (depth + 1)) :
    ∀ c ∈ p.children, c.Restored depth := by
  cases p with
  | model m =>
    obtain ⟨happs, hspan⟩ := Model.isRecord.restores_iff.1 (restored_model.1 h)
    exact List.forall_mem_cons.2
      ⟨restored_span.2 hspan, restored_values restored_application happs⟩
  | application app =>
    obtain ⟨hattrs, hmembers, hspan⟩ := Application.restores_iff.1 (restored_application.1 h)
    exact List.forall_mem_cons.2 ⟨restored_span.2 hspan, List.forall_mem_append.2
      ⟨restored_attributes hattrs, restored_values restored_member hmembers⟩⟩
  | member m =>
    cases m with
    | type t =>
      have ht := Member.restores_type_iff.1 (restored_member.1 h)
      exact List.forall_mem_singleton.2 (restored_dataType.2 ht)
    | endpoint e =>
      have he := Member.restores_endpoint_iff.1 (restored_member.1 h)
      exact List.forall_mem_singleton.2 (restored_endpoint.2 he)
  | endpoint e =>
    obtain ⟨hattrs, hspan⟩ := Endpoint.restores_iff.1 (restored_endpoint.1 h)
    exact List.forall_mem_cons.2 ⟨restored_span.2 hspan, restored_attributes hattrs⟩
  | dataType t =>
    obtain ⟨hshape, hattrs, hspan⟩ := DataType.restores_iff.1 (restored_dataType.1 h)
    exact List.forall_mem_cons.2 ⟨restored_span.2 hspan, List.forall_mem_cons.2
      ⟨restored_shape.2 hshape, restored_attributes hattrs⟩⟩
  | shape s =>
    have hs := restored_shape.1 h
    cases s with
    | primitive p => exact List.forall_mem_nil _
    | relation table =>
      exact List.forall_mem_singleton.2 (restored_relation.2 (Shape.restores_relation_iff.1 hs))
    | tuple fields =>
      exact List.forall_mem_singleton.2 (restored_tuple.2 (Shape.restores_tuple_iff.1 hs))
    | enumeration items =>
      have hitems := Shape.restores_enumeration_iff.1 hs
      exact List.forall_mem_singleton.2 (restored_enumeration.2 hitems)
    | typeRef target =>
      exact List.forall_mem_singleton.2 (restored_reference.2 (Shape.restores_typeRef_iff.1 hs))
    | foreignKey target =>
      have htarget := Shape.restores_foreignKey_iff.1 hs
      exact List.forall_mem_singleton.2 (restored_reference.2 htarget)
  | relation table =>
    have htable := (Table.restores_iff.1 (restored_relation.1 h)).2
    have hfields := Fields.relation_isRecord.restores_iff.1 htable
    exact restored_values restored_dataType hfields
  | tuple fields =>
    have hfields := Fields.tuple_isRecord.restores_iff.1 (restored_tuple.1 h)
    exact restored_values restored_dataType hfields
  | enumeration items =>
    have hitems := enumeration_isRecord.restores_iff.1 (restored_enumeration.1 h)
    exact List.forall_mem_singleton.2 (restored_integers.2 hitems)
  | reference r =>
    have hspan := (Reference.isRecord.restores_iff.1 (restored_reference.1 h)).2
    exact List.forall_mem_singleton.2 (restored_span.2 hspan)
  | attr | span | position | integers => exact List.forall_mem_nil _

/-- Everything inside a part is given back if the part is. -/
theorem Restored.of_contains {whole part : Part} (hcontains : whole.Contains part)
    (h : whole.Restored depth) : part.Restored depth := by
  refine hcontains.induct (fun p hp c hc => ?_) h
  exact (hp.succ.children c hc)

/-- A part that is given back is read back from its text. -/
theorem Restored.decodeText {p : Part} (h : p.Restored nestingLimit) :
    Json.decodeText p.kind.ofJson? p.toJson.compact = some p := by
  rw [Json.decodeText, ofString?_compact]
  exact h

end Part
end SyslModel
