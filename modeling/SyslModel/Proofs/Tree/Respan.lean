import SyslModel.Grammar.Fragment
import SyslModel.Proofs.NameMap
import SyslModel.Proofs.Tree.Part
/-!
# Trees and their spans

Two trees may differ in spans only.  Either all spans are forgotten (`unspanned`), or a function is
applied to each (`respan`).
-/

namespace SyslModel

/-!
## Trees without their spans

`unspanned` puts the same span everywhere in a tree and leaves all else as it is, so two trees with
equal `unspanned` differ in spans at most.  Neither the canonical text nor a primary key depends on
spans (`Fragment.canonical?_unspanned`, `Fragment.primaryKeys_unspanned`).
-/

/-! ### Forgetting spans -/

/-- The reference without its span. -/
def Reference.unspanned (r : Reference) : Reference := { r with span := .origin }

mutual

/-- The type without spans, at any depth. -/
def DataType.unspanned : DataType → DataType
  | ⟨shape, optional, attrs, _⟩ => ⟨Shape.unspanned shape, optional, attrs, .origin⟩

/-- The shape without spans. -/
def Shape.unspanned : Shape DataType → Shape DataType
  | .primitive p => .primitive p
  | .relation ⟨⟨fields⟩, key⟩ => .relation ⟨⟨Fields.unspanned fields⟩, key⟩
  | .tuple ⟨fields⟩ => .tuple ⟨Fields.unspanned fields⟩
  | .enumeration items => .enumeration items
  | .typeRef target => .typeRef target.unspanned
  | .foreignKey target => .foreignKey target.unspanned

/-- The fields without the spans of their types. -/
def Fields.unspanned : List (String × DataType) → List (String × DataType)
  | [] => []
  | (name, type) :: rest => (name, DataType.unspanned type) :: Fields.unspanned rest

end

/-- The endpoint without its span. -/
def Endpoint.unspanned (e : Endpoint) : Endpoint := { e with span := .origin }

/-- The member without spans. -/
def Member.unspanned : Member → Member
  | .type declared => .type declared.unspanned
  | .endpoint e => .endpoint e.unspanned

/-- The application without spans. -/
def Application.unspanned (app : Application) : Application :=
  { app with members := app.members.mapValues Member.unspanned, span := .origin }

/-- The model without spans. -/
def Model.unspanned (m : Model) : Model := ⟨m.apps.mapValues Application.unspanned, .origin⟩

/-- The fragment without spans. -/
def Fragment.unspanned : Fragment → Fragment
  | .model m => .model m.unspanned
  | .application app => .application app.unspanned
  | .declaration name declared => .declaration name declared.unspanned
  | .field name type => .field name type.unspanned
  | .typeRef type => .typeRef type.unspanned
  | .endpoint e => .endpoint e.unspanned
  | .attributes attrs => .attributes attrs
  | .attribute key value => .attribute key value
  | .enumItem name value => .enumItem name value
  | .fieldAttrs attrs => .fieldAttrs attrs
  | .fieldAttr name value => .fieldAttr name value

theorem Fields.unspanned_eq_map (fields : List (String × DataType)) :
    Fields.unspanned fields = fields.map fun f => (f.1, f.2.unspanned) := by
  induction fields with
  | nil => rfl
  | cons f rest ih =>
    rw [Fields.unspanned, ih]
    rfl

/-- The table with other types of its fields, and with the key that it has. -/
def Table.mapTypes (f : DataType → DataType) (table : Table DataType) : Table DataType :=
  { table with fields := table.fields.mapValues f }

/-- A key that was derived stays right as long as no type gains or loses the flag. -/
theorem Table.mapTypes_ofFields {f : DataType → DataType}
    (hf : ∀ t, (f t).hasFlag Fields.keyFlag = t.hasFlag Fields.keyFlag) (fields : Fields) :
    (Table.ofFields fields).mapTypes f = .ofFields (fields.mapValues f) := by
  have hkey : Fields.primaryKey (fields.mapValues f) = fields.primaryKey := by
    unfold Fields.primaryKey NameMap.mapValues
    rw [List.filter_map, List.map_map]
    simp only [Function.comp_def, hf]
  exact congrArg (Table.mk _) hkey.symm

theorem Shape.unspanned_relation (table : Table DataType) :
    (Shape.relation table).unspanned = .relation (table.mapTypes DataType.unspanned) :=
  congrArg (fun list => Shape.relation ⟨⟨list⟩, table.primaryKey⟩)
    (Fields.unspanned_eq_map table.entries)

theorem Shape.unspanned_tuple (fields : Fields) :
    (Shape.tuple fields).unspanned = .tuple (fields.mapValues DataType.unspanned) :=
  congrArg (fun list => Shape.tuple ⟨list⟩) (Fields.unspanned_eq_map fields.entries)

theorem DataType.unspanned_eq (t : DataType) :
    t.unspanned = ⟨t.shape.unspanned, t.optional, t.attrs, .origin⟩ := by
  cases t
  rw [DataType.unspanned]

theorem Shape.unspanned_ofFields (fields : Fields) :
    (Shape.relation (.ofFields fields)).unspanned =
      .relation (.ofFields (fields.mapValues DataType.unspanned)) := by
  rw [Shape.unspanned_relation, Table.mapTypes_ofFields fun t => ?_]
  rw [DataType.unspanned_eq]
  rfl

/-! ### Primary keys -/

/-- The primary key of a type that is a table. -/
def DataType.primaryKey? (t : DataType) : Option (List String) :=
  match t.shape with
  | .relation table => some table.primaryKey
  | _ => none

/-- The primary keys of the tables of an application, in order. -/
def Application.primaryKeys (app : Application) : List (List String) :=
  app.members.values.filterMap fun member => member.type?.bind DataType.primaryKey?

/-- The primary keys of the tables of a fragment, in order. -/
def Fragment.primaryKeys : Fragment → List (List String)
  | .model m => m.apps.values.flatMap Application.primaryKeys
  | .application app => app.primaryKeys
  | .declaration _ declared => declared.primaryKey?.toList
  | _ => []

theorem DataType.primaryKey?_unspanned (t : DataType) :
    t.unspanned.primaryKey? = t.primaryKey? := by
  obtain ⟨shape, optional, attrs, span⟩ := t
  cases shape <;> rfl

theorem Application.primaryKeys_unspanned (app : Application) :
    app.unspanned.primaryKeys = app.primaryKeys := by
  have hmember (member : Member) : member.unspanned.type?.bind DataType.primaryKey?
      = member.type?.bind DataType.primaryKey? := by
    cases member with
    | type declared => exact DataType.primaryKey?_unspanned declared
    | endpoint e => rfl
  unfold Application.primaryKeys Application.unspanned
  rw [NameMap.values_mapValues, List.filterMap_map]
  simp only [Function.comp_def, hmember]

/-- Primary keys do not depend on spans. -/
theorem Fragment.primaryKeys_unspanned (fragment : Fragment) :
    fragment.unspanned.primaryKeys = fragment.primaryKeys := by
  cases fragment with
  | model m =>
    show (m.apps.mapValues Application.unspanned).values.flatMap Application.primaryKeys = _
    rw [NameMap.values_mapValues, List.flatMap_map]
    simp only [Application.primaryKeys_unspanned]
    rfl
  | application app => exact Application.primaryKeys_unspanned app
  | declaration _ declared => exact congrArg Option.toList (DataType.primaryKey?_unspanned declared)
  | _ => rfl

/-! ### The canonical text -/

theorem Shape.canonical_unspanned (shape : Shape DataType) :
    shape.unspanned.canonical = shape.canonical := by
  cases shape <;> rfl

theorem Shape.marker_unspanned (shape : Shape DataType) :
    shape.unspanned.marker = shape.marker := by
  cases shape <;> rfl

theorem DataType.canonical_unspanned (t : DataType) : t.unspanned.canonical = t.canonical := by
  rw [DataType.canonical, DataType.unspanned_eq, Shape.canonical_unspanned]
  rfl

/-- A text made line by line from the values of a map does not depend on what a function forgets. -/
theorem join_mapValues {α : Type} (f : α → α) (line : String → α → String) (m : NameMap α)
    (h : ∀ name value, line name (f value) = line name value) :
    String.join ((m.mapValues f).entries.map fun e => line e.1 e.2)
      = String.join (m.entries.map fun e => line e.1 e.2) := by
  rw [NameMap.mapValues, List.map_map]
  simp only [Function.comp_def, h]

theorem DataType.fieldLine_unspanned (level : Nat) (name : String) (t : DataType) :
    DataType.fieldLine level name t.unspanned = DataType.fieldLine level name t := by
  rw [DataType.fieldLine, DataType.canonical_unspanned, DataType.fieldLine]

theorem DataType.body_unspanned (level : Nat) (shape : Shape DataType) :
    DataType.body level shape.unspanned = DataType.body level shape := by
  cases shape with
  | relation table =>
    rw [Shape.unspanned_relation]
    exact join_mapValues _ _ table.fields (DataType.fieldLine_unspanned level)
  | tuple fields =>
    rw [Shape.unspanned_tuple]
    exact join_mapValues _ _ fields (DataType.fieldLine_unspanned level)
  | primitive | enumeration | typeRef | foreignKey => rfl

theorem DataType.declaration_unspanned (level : Nat) (name : String) (t : DataType) :
    t.unspanned.declaration level name = t.declaration level name := by
  rw [DataType.declaration, DataType.unspanned_eq, Shape.marker_unspanned, DataType.body_unspanned]
  rfl

theorem Member.canonical_unspanned (level : Nat) (name : String) (member : Member) :
    member.unspanned.canonical level name = member.canonical level name := by
  cases member with
  | type declared => exact DataType.declaration_unspanned level name declared
  | endpoint e => rfl

theorem Application.canonical_unspanned (level : Nat) (app : Application) :
    app.unspanned.canonical level = app.canonical level := by
  rw [Application.canonical, Application.canonical, Application.unspanned]
  rw [join_mapValues _ _ app.members (Member.canonical_unspanned (level + 1))]

theorem Model.canonical_unspanned (level : Nat) (m : Model) :
    m.unspanned.canonical level = m.canonical level := by
  rw [Model.canonical, Model.canonical, Model.unspanned, NameMap.values_mapValues, List.map_map]
  simp only [Function.comp_def, Application.canonical_unspanned]

/-- The canonical text does not depend on spans. -/
theorem Fragment.canonical?_unspanned (level : Nat) (fragment : Fragment) :
    fragment.unspanned.canonical? level = fragment.canonical? level := by
  cases fragment with
  | model m => exact congrArg some (Model.canonical_unspanned level m)
  | application app => exact congrArg some (Application.canonical_unspanned level app)
  | declaration _ type => exact congrArg some (DataType.canonical_unspanned type)
  | field _ type => exact congrArg some (DataType.canonical_unspanned type)
  | typeRef type => exact congrArg some (DataType.canonical_unspanned type)
  | _ => rfl

/-!
## Trees with other spans

`respan f` applies a function to every span of a tree and leaves all else as it is.  Forgetting all
spans is the case of a constant function (`Fragment.respan_origin`), and moving a tree by a number
of bytes is the case of `Span.shift`.  The identity changes nothing (`Fragment.respan_id`).
-/

section Respan

/-- The span moved up by a number of bytes. -/
def Span.shift (bytes : Nat) (s : Span) : Span := ⟨s.start + bytes, s.stop + bytes⟩

variable (f : Span → Span)

/-- The reference with another span. -/
def Reference.respan (r : Reference) : Reference := { r with span := f r.span }

mutual

/-- The type with other spans, at any depth. -/
def DataType.respan (f : Span → Span) : DataType → DataType
  | ⟨shape, optional, attrs, span⟩ => ⟨Shape.respan f shape, optional, attrs, f span⟩

/-- The shape with other spans. -/
def Shape.respan (f : Span → Span) : Shape DataType → Shape DataType
  | .primitive p => .primitive p
  | .relation ⟨⟨fields⟩, key⟩ => .relation ⟨⟨Fields.respan f fields⟩, key⟩
  | .tuple ⟨fields⟩ => .tuple ⟨Fields.respan f fields⟩
  | .enumeration items => .enumeration items
  | .typeRef target => .typeRef (target.respan f)
  | .foreignKey target => .foreignKey (target.respan f)

/-- The fields with other spans of their types. -/
def Fields.respan (f : Span → Span) : List (String × DataType) → List (String × DataType)
  | [] => []
  | (name, type) :: rest => (name, DataType.respan f type) :: Fields.respan f rest

end

/-- The endpoint with another span. -/
def Endpoint.respan (e : Endpoint) : Endpoint := { e with span := f e.span }

/-- The member with other spans. -/
def Member.respan : Member → Member
  | .type declared => .type (declared.respan f)
  | .endpoint e => .endpoint (e.respan f)

/-- The application with other spans. -/
def Application.respan (app : Application) : Application :=
  { app with members := app.members.mapValues (Member.respan f), span := f app.span }

/-- The model with other spans. -/
def Model.respan (m : Model) : Model := ⟨m.apps.mapValues (Application.respan f), f m.span⟩

/-- The fragment with other spans. -/
def Fragment.respan : Fragment → Fragment
  | .model m => .model (m.respan f)
  | .application app => .application (app.respan f)
  | .declaration name declared => .declaration name (declared.respan f)
  | .field name type => .field name (type.respan f)
  | .typeRef type => .typeRef (type.respan f)
  | .endpoint e => .endpoint (e.respan f)
  | .attributes attrs => .attributes attrs
  | .attribute key value => .attribute key value
  | .enumItem name value => .enumItem name value
  | .fieldAttrs attrs => .fieldAttrs attrs
  | .fieldAttr name value => .fieldAttr name value

/-! ### Part by part -/

theorem Fields.respan_eq_map (fields : List (String × DataType)) :
    Fields.respan f fields = fields.map fun field => (field.1, field.2.respan f) := by
  induction fields with
  | nil => rfl
  | cons field rest ih =>
    rw [Fields.respan, ih]
    rfl

theorem Shape.respan_relation (table : Table DataType) :
    (Shape.relation table).respan f = .relation (table.mapTypes (DataType.respan f)) :=
  congrArg (fun list => Shape.relation ⟨⟨list⟩, table.primaryKey⟩)
    (Fields.respan_eq_map f table.entries)

theorem Shape.respan_tuple (fields : Fields) :
    (Shape.tuple fields).respan f = .tuple (fields.mapValues (DataType.respan f)) :=
  congrArg (fun list => Shape.tuple ⟨list⟩) (Fields.respan_eq_map f fields.entries)

theorem DataType.respan_eq (t : DataType) :
    t.respan f = ⟨t.shape.respan f, t.optional, t.attrs, f t.span⟩ := by
  cases t
  rw [DataType.respan]

theorem Shape.respan_ofFields (fields : Fields) :
    (Shape.relation (.ofFields fields)).respan f =
      .relation (.ofFields (fields.mapValues (DataType.respan f))) := by
  rw [Shape.respan_relation, Table.mapTypes_ofFields fun t => ?_]
  rw [DataType.respan_eq]
  rfl

/-! ### Forgetting spans -/

mutual

theorem DataType.respan_origin : (t : DataType) → t.respan (fun _ => .origin) = t.unspanned
  | ⟨shape, _, _, _⟩ => by
    rw [DataType.respan, DataType.unspanned, Shape.respan_origin shape]

theorem Shape.respan_origin : (s : Shape DataType) → s.respan (fun _ => .origin) = s.unspanned
  | .relation ⟨⟨fields⟩, _⟩ => by rw [Shape.respan, Shape.unspanned, Fields.respan_origin fields]
  | .tuple ⟨fields⟩ => by rw [Shape.respan, Shape.unspanned, Fields.respan_origin fields]
  | .primitive _ | .enumeration _ | .typeRef _ | .foreignKey _ => rfl

theorem Fields.respan_origin : (fields : List (String × DataType)) →
    Fields.respan (fun _ => .origin) fields = Fields.unspanned fields
  | [] => rfl
  | (name, type) :: rest => by
    rw [Fields.respan, Fields.unspanned, DataType.respan_origin type, Fields.respan_origin rest]

end

theorem Member.respan_origin (member : Member) :
    member.respan (fun _ => .origin) = member.unspanned := by
  cases member with
  | type declared => exact congrArg Member.type (DataType.respan_origin declared)
  | endpoint e => rfl

theorem Application.respan_origin (app : Application) :
    app.respan (fun _ => .origin) = app.unspanned := by
  rw [Application.respan, Application.unspanned, funext Member.respan_origin]

/-- Putting one span everywhere forgets them. -/
theorem Fragment.respan_origin (fragment : Fragment) :
    fragment.respan (fun _ => .origin) = fragment.unspanned := by
  cases fragment with
  | model m =>
    show Fragment.model ⟨m.apps.mapValues (Application.respan fun _ => .origin), .origin⟩ = _
    rw [funext Application.respan_origin]
    rfl
  | application app => exact congrArg Fragment.application (Application.respan_origin app)
  | declaration name type =>
    exact congrArg (Fragment.declaration name) (DataType.respan_origin type)
  | field name type => exact congrArg (Fragment.field name) (DataType.respan_origin type)
  | typeRef type => exact congrArg Fragment.typeRef (DataType.respan_origin type)
  | _ => rfl

/-! ### Leaving spans as they are -/

mutual

theorem DataType.respan_id : (t : DataType) → t.respan id = t
  | ⟨shape, _, _, _⟩ => by
    rw [DataType.respan, Shape.respan_id shape]
    rfl

theorem Shape.respan_id : (s : Shape DataType) → s.respan id = s
  | .relation ⟨⟨fields⟩, _⟩ => by rw [Shape.respan, Fields.respan_id fields]
  | .tuple ⟨fields⟩ => by rw [Shape.respan, Fields.respan_id fields]
  | .primitive _ | .enumeration _ | .typeRef _ | .foreignKey _ => rfl

theorem Fields.respan_id : (fields : List (String × DataType)) → Fields.respan id fields = fields
  | [] => rfl
  | (name, type) :: rest => by
    rw [Fields.respan, DataType.respan_id type, Fields.respan_id rest]

end

theorem Member.respan_id (member : Member) : member.respan id = member := by
  cases member with
  | type declared => exact congrArg Member.type (DataType.respan_id declared)
  | endpoint e => rfl

theorem Application.respan_id (app : Application) : app.respan id = app := by
  rw [Application.respan, NameMap.mapValues_eq_self Member.respan_id]
  rfl

theorem Fragment.respan_id (fragment : Fragment) : fragment.respan id = fragment := by
  cases fragment with
  | model m =>
    show Fragment.model ⟨m.apps.mapValues (Application.respan id), m.span⟩ = _
    rw [NameMap.mapValues_eq_self Application.respan_id]
  | application app => exact congrArg Fragment.application (Application.respan_id app)
  | declaration name type => exact congrArg (Fragment.declaration name) (DataType.respan_id type)
  | field name type => exact congrArg (Fragment.field name) (DataType.respan_id type)
  | typeRef type => exact congrArg Fragment.typeRef (DataType.respan_id type)
  | _ => rfl

end Respan

end SyslModel
