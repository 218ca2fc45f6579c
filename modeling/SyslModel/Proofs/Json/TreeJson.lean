import SyslModel.Proofs.Json.TreeParts
/-!
# Types, applications and models are given back

Types nest through the types of fields, so their decoders are shown to be lawful together, by
induction on the budget.  Each construct is given back exactly if its parts are.  A table is written
with the primary key that it stores, which is skipped and derived anew when the table is read.
-/

namespace SyslModel

open Json

variable {depth : Nat}

/-! ## Types -/

theorem Fields.jsonMembers_eq_map (fields : List (String × DataType)) :
    Fields.jsonMembers fields = fields.map fun f => (f.1, f.2.toJson) := by
  induction fields with
  | nil => rfl
  | cons f rest ih =>
    rw [Fields.jsonMembers, ih]
    rfl

theorem Fields.record_jsonMembers (fields : Fields) :
    Value.record (Fields.jsonMembers fields.entries) = NameMap.toJson DataType.toJson fields := by
  rw [Fields.jsonMembers_eq_map, NameMap.toJson]

theorem Fields.ofJson?_eq : Fields.ofJson? = mapOf DataType.ofJson? := by
  funext depth value
  cases depth <;> rfl

theorem Fields.relation_isRecord : Record₁ ["fields"] (mapOf DataType.ofJson?)
    (NameMap.toJson DataType.toJson) Fields.recordOfJson? Fields.relationToJson where
  zero _ := rfl
  decodes _ _ := by
    rw [← Fields.ofJson?_eq]
    rfl
  encodes fields :=
    congrArg (fun record => some [record]) (Fields.record_jsonMembers fields)

theorem Fields.tuple_isRecord : Record₁ ["fields"] (mapOf DataType.ofJson?)
    (NameMap.toJson DataType.toJson) Fields.recordOfJson? Fields.tupleToJson where
  zero := Fields.relation_isRecord.zero
  decodes := Fields.relation_isRecord.decodes
  encodes fields :=
    congrArg (fun record => some [record]) (Fields.record_jsonMembers fields)

/-- A variant is given back exactly if its content is. -/
theorem map_eq_some_variant_iff {α β : Type} {variant : α → β}
    (hvariant : Function.Injective variant) {content : Option α} {x : α} :
    content.map variant = some (variant x) ↔ content = some x :=
  (Option.map_injective hvariant).eq_iff (b := some x)

/-- Whatever key stands beside the fields of a table, they are decoded in the same way. -/
theorem Table.recordOfJson?_toJson (depth : Nat) (table : Table DataType) :
    Fields.recordOfJson? depth table.toJson =
      Fields.recordOfJson? depth (Fields.relationToJson table.fields) := by
  cases depth with
  | zero => rfl
  | succ depth => rfl

/-- A table is given back exactly if its key is in step and its fields are given back. -/
theorem Table.restores_iff {table : Table DataType} :
    Restores Table.ofJson? Table.toJson depth table ↔
      table.InStep ∧ Restores Fields.recordOfJson? Fields.relationToJson depth table.fields := by
  unfold Restores Table.ofJson?
  rw [Table.recordOfJson?_toJson]
  constructor
  · intro h
    obtain ⟨fields, hfields, rfl⟩ := Option.map_eq_some_iff.1 h
    exact ⟨Table.inStep_ofFields fields, hfields⟩
  · rintro ⟨hkey, hfields⟩
    rw [hfields, Option.map_some, ← hkey.eq_ofFields]

theorem Table.lawful (h : Lawful Fields.recordOfJson? Fields.relationToJson depth) :
    Lawful Table.ofJson? Table.toJson depth where
  stable := by
    intro value table htable
    obtain ⟨fields, hfields, rfl⟩ := Option.map_eq_some_iff.1 htable
    exact Table.restores_iff.2 ⟨Table.inStep_ofFields fields, h.stable hfields⟩
  widens := by
    intro table htable
    obtain ⟨hkey, hfields⟩ := Table.restores_iff.1 htable
    exact Table.restores_iff.2 ⟨hkey, h.widens hfields⟩

section Shapes

variable {table : Table DataType} {fields : Fields} {items : NameMap Int} {target : Reference}

theorem Shape.restores_primitive (p : Primitive) :
    Restores Shape.ofJson? Shape.toJson (depth + 1) (.primitive p) :=
  (map_eq_some_variant_iff fun _ _ => Shape.primitive.inj).2 (Primitive.restores depth p)

/-- In the value of a shape, a table is decoded as it is on its own. -/
theorem Shape.ofJson?_relation (depth : Nat) (value : Value) :
    Shape.ofJson? (depth + 1) (.record [("Relation", value)]) =
      (Table.ofJson? depth value).map .relation :=
  (Option.map_map _ _ _).symm

theorem Shape.restores_relation_iff :
    Restores Shape.ofJson? Shape.toJson (depth + 1) (.relation table) ↔
      Restores Table.ofJson? Table.toJson depth table := by
  unfold Restores
  rw [← map_eq_some_variant_iff (fun _ _ => Shape.relation.inj), ← Shape.ofJson?_relation]
  rfl

theorem Shape.restores_tuple_iff :
    Restores Shape.ofJson? Shape.toJson (depth + 1) (.tuple fields) ↔
      Restores Fields.recordOfJson? Fields.tupleToJson depth fields :=
  map_eq_some_variant_iff fun _ _ => Shape.tuple.inj

theorem Shape.restores_enumeration_iff :
    Restores Shape.ofJson? Shape.toJson (depth + 1) (.enumeration items) ↔
      Restores enumerationOfJson? enumerationToJson depth items :=
  map_eq_some_variant_iff fun _ _ => Shape.enumeration.inj

theorem Shape.restores_typeRef_iff :
    Restores Shape.ofJson? Shape.toJson (depth + 1) (.typeRef target) ↔
      Restores Reference.ofJson? Reference.toJson depth target :=
  map_eq_some_variant_iff fun _ _ => Shape.typeRef.inj

theorem Shape.restores_foreignKey_iff :
    Restores Shape.ofJson? Shape.toJson (depth + 1) (.foreignKey target) ↔
      Restores Reference.ofJson? Reference.toJson depth target :=
  map_eq_some_variant_iff fun _ _ => Shape.foreignKey.inj

end Shapes

theorem Shape.lawful_succ
    (hrelation : Lawful Table.ofJson? Table.toJson depth)
    (htuple : Lawful Fields.recordOfJson? Fields.tupleToJson depth) :
    Lawful Shape.ofJson? Shape.toJson (depth + 1) where
  stable := by
    intro value shape h
    simp only [Shape.ofJson?, Option.bind_eq_bind, Option.bind_eq_some_iff] at h
    obtain ⟨variant, -, h⟩ := h
    split at h
    case h_7 => cases h
    all_goals obtain ⟨x, hx, rfl⟩ := Option.map_eq_some_iff.1 h
    · exact Shape.restores_primitive x
    · exact Shape.restores_relation_iff.2 (hrelation.stable (Option.map_eq_some_iff.2 ⟨x, hx, rfl⟩))
    · exact Shape.restores_tuple_iff.2 (htuple.stable hx)
    · exact Shape.restores_enumeration_iff.2 ((enumeration_lawful depth).stable hx)
    · exact Shape.restores_typeRef_iff.2 ((Reference.lawful depth).stable hx)
    · exact Shape.restores_foreignKey_iff.2 ((Reference.lawful depth).stable hx)
  widens := by
    intro shape h
    cases shape with
    | primitive p => exact Shape.restores_primitive p
    | relation table =>
      exact Shape.restores_relation_iff.2 (hrelation.widens (Shape.restores_relation_iff.1 h))
    | tuple fields =>
      exact Shape.restores_tuple_iff.2 (htuple.widens (Shape.restores_tuple_iff.1 h))
    | enumeration items =>
      have hitems := Shape.restores_enumeration_iff.1 h
      exact Shape.restores_enumeration_iff.2 ((enumeration_lawful depth).widens hitems)
    | typeRef target =>
      have htarget := Shape.restores_typeRef_iff.1 h
      exact Shape.restores_typeRef_iff.2 ((Reference.lawful depth).widens htarget)
    | foreignKey target =>
      have htarget := Shape.restores_foreignKey_iff.1 h
      exact Shape.restores_foreignKey_iff.2 ((Reference.lawful depth).widens htarget)

theorem DataType.isRecord : Record₄ ["kind", "optional", "attrs", "span"] Shape.ofJson? Shape.toJson
    (fun _ => Value.bool?) Value.bool Attributes.ofJson? Attributes.toJson Span.ofJson? Span.toJson
    DataType.mk DataType.shape DataType.optional DataType.attrs DataType.span DataType.ofJson?
    DataType.toJson where
  zero _ := rfl
  decodes _ _ := rfl
  encodes t := by
    cases t
    rfl
  make_parts t := by
    cases t
    rfl
  parts_make _ _ _ _ := ⟨rfl, rfl, rfl, rfl⟩

/-- What is shown of the decoders of types at once, for one budget. -/
structure TypesLawful (depth : Nat) : Prop where
  /-- Types. -/
  dataType : Lawful DataType.ofJson? DataType.toJson depth
  /-- Shapes. -/
  shape : Lawful Shape.ofJson? Shape.toJson depth
  /-- Tables. -/
  relation : Lawful Table.ofJson? Table.toJson depth
  /-- The fields of records. -/
  tuple : Lawful Fields.recordOfJson? Fields.tupleToJson depth
  /-- Fields under their names. -/
  fields : Lawful (mapOf DataType.ofJson?) (NameMap.toJson DataType.toJson) depth

theorem typesLawful (depth : Nat) : TypesLawful depth := by
  induction depth with
  | zero =>
    exact ⟨lawful_zero fun _ => rfl, lawful_zero fun _ => rfl,
      Table.lawful (lawful_zero Fields.relation_isRecord.zero),
      lawful_zero Fields.tuple_isRecord.zero,
      lawful_zero fun _ => rfl⟩
  | succ depth ih =>
    exact ⟨DataType.isRecord.lawful ih.shape (bool_lawful depth) (Attributes.lawful depth)
        (Span.lawful depth),
      Shape.lawful_succ ih.relation ih.tuple,
      Table.lawful (Fields.relation_isRecord.lawful ih.fields),
      Fields.tuple_isRecord.lawful ih.fields, ih.dataType.mapOf⟩

/-- A type is given back exactly if its shape, its attributes and its span are. -/
theorem DataType.restores_iff {t : DataType} :
    Restores DataType.ofJson? DataType.toJson (depth + 1) t ↔
      Restores Shape.ofJson? Shape.toJson depth t.shape ∧
        Restores Attributes.ofJson? Attributes.toJson depth t.attrs ∧
        Restores Span.ofJson? Span.toJson depth t.span := by
  have hbool : Restores (fun _ => Value.bool?) Value.bool depth t.optional := rfl
  rw [DataType.isRecord.restores_iff, and_iff_right hbool]

/-! ## Endpoints, members, applications and models -/

theorem Endpoint.isRecord : Record₄ ["name", "method", "attrs", "span"] (fun _ => Value.string?)
    Value.string Method.ofJson? Method.toJson Attributes.ofJson? Attributes.toJson Span.ofJson?
    Span.toJson Endpoint.mk Endpoint.name Endpoint.method Endpoint.attrs Endpoint.span
    Endpoint.ofJson? Endpoint.toJson where
  zero _ := rfl
  decodes _ _ := rfl
  encodes _ := rfl
  make_parts _ := rfl
  parts_make _ _ _ _ := ⟨rfl, rfl, rfl, rfl⟩

theorem Endpoint.lawful (depth : Nat) : Lawful Endpoint.ofJson? Endpoint.toJson depth := by
  cases depth with
  | zero => exact lawful_zero Endpoint.isRecord.zero
  | succ depth =>
    exact Endpoint.isRecord.lawful (string_lawful depth) (lawful_of_restores Method.restores depth)
      (Attributes.lawful depth) (Span.lawful depth)

/-- An endpoint is given back exactly if its attributes and its span are. -/
theorem Endpoint.restores_iff {e : Endpoint} :
    Restores Endpoint.ofJson? Endpoint.toJson (depth + 1) e ↔
      Restores Attributes.ofJson? Attributes.toJson depth e.attrs ∧
        Restores Span.ofJson? Span.toJson depth e.span := by
  have hname : Restores (fun _ => Value.string?) Value.string depth e.name := rfl
  rw [Endpoint.isRecord.restores_iff, and_iff_right hname,
    and_iff_right (Method.restores depth e.method)]

theorem Member.restores_type_iff {t : DataType} :
    Restores Member.ofJson? Member.toJson (depth + 1) (.type t) ↔
      Restores DataType.ofJson? DataType.toJson depth t :=
  map_eq_some_variant_iff fun _ _ => Member.type.inj

theorem Member.restores_endpoint_iff {e : Endpoint} :
    Restores Member.ofJson? Member.toJson (depth + 1) (.endpoint e) ↔
      Restores Endpoint.ofJson? Endpoint.toJson depth e :=
  map_eq_some_variant_iff fun _ _ => Member.endpoint.inj

theorem Member.lawful (depth : Nat) : Lawful Member.ofJson? Member.toJson depth := by
  cases depth with
  | zero => exact lawful_zero fun _ => rfl
  | succ depth =>
    have htype := (typesLawful depth).dataType
    have hendpoint := Endpoint.lawful depth
    constructor
    · intro value member h
      simp only [Member.ofJson?, Option.bind_eq_bind, Option.bind_eq_some_iff] at h
      obtain ⟨variant, -, h⟩ := h
      split at h
      · obtain ⟨t, ht, rfl⟩ := Option.map_eq_some_iff.1 h
        exact Member.restores_type_iff.2 (htype.stable ht)
      · obtain ⟨e, he, rfl⟩ := Option.map_eq_some_iff.1 h
        exact Member.restores_endpoint_iff.2 (hendpoint.stable he)
      · cases h
    · intro member h
      cases member with
      | type t => exact Member.restores_type_iff.2 (htype.widens (Member.restores_type_iff.1 h))
      | endpoint e =>
        exact Member.restores_endpoint_iff.2 (hendpoint.widens (Member.restores_endpoint_iff.1 h))

theorem Application.isRecord : Record₄ ["name", "attrs", "members", "span"]
    (fun _ => Value.string?) Value.string Attributes.ofJson? Attributes.toJson
    (mapOf Member.ofJson?) (NameMap.toJson Member.toJson) Span.ofJson? Span.toJson Application.mk
    Application.name Application.attrs Application.members Application.span Application.ofJson?
    Application.toJson where
  zero _ := rfl
  decodes _ _ := rfl
  encodes _ := rfl
  make_parts _ := rfl
  parts_make _ _ _ _ := ⟨rfl, rfl, rfl, rfl⟩

theorem Application.lawful (depth : Nat) :
    Lawful Application.ofJson? Application.toJson depth := by
  cases depth with
  | zero => exact lawful_zero Application.isRecord.zero
  | succ depth =>
    exact Application.isRecord.lawful (string_lawful depth) (Attributes.lawful depth)
      (lawful_mapOf Member.lawful depth) (Span.lawful depth)

/-- An application is given back exactly if its attributes, its members and its span are. -/
theorem Application.restores_iff {app : Application} :
    Restores Application.ofJson? Application.toJson (depth + 1) app ↔
      Restores Attributes.ofJson? Attributes.toJson depth app.attrs ∧
        Restores (mapOf Member.ofJson?) (NameMap.toJson Member.toJson) depth app.members ∧
        Restores Span.ofJson? Span.toJson depth app.span := by
  have hname : Restores (fun _ => Value.string?) Value.string depth app.name := rfl
  rw [Application.isRecord.restores_iff, and_iff_right hname]

theorem Model.isRecord : Record₂ ["apps", "span"] (mapOf Application.ofJson?)
    (NameMap.toJson Application.toJson) Span.ofJson? Span.toJson Model.mk Model.apps Model.span
    Model.ofJson? Model.toJson where
  zero _ := rfl
  decodes _ _ := rfl
  encodes _ := rfl
  make_parts _ := rfl
  parts_make _ _ := ⟨rfl, rfl⟩

theorem Model.lawful (depth : Nat) : Lawful Model.ofJson? Model.toJson depth := by
  cases depth with
  | zero => exact lawful_zero Model.isRecord.zero
  | succ depth =>
    exact Model.isRecord.lawful (lawful_mapOf Application.lawful depth) (Span.lawful depth)

end SyslModel
