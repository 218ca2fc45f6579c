import SyslModel.NameMap
import SyslModel.Source
import SyslModel.Text
/-!
# Trees

The tree of a model: applications with declared types and endpoints, types with fields, attributes
on all of them, and references from one to another.  Every construct has a span, and every map keeps
its entries in the order in which they were given.

`Model.canonical` and its like write a tree down again.
-/

namespace SyslModel

/-!
## Attributes

Applications, declared types and endpoints carry texts (`package="io.sysl.demo"`); fields carry
flags (`pk`, `~autoinc`).  Both kinds live in one map from names.
-/

/-- What stands under a name between square brackets. -/
inductive Attribute where
  /-- A text: `key="value"` or `key=name.space`. -/
  | text (value : String)
  /-- A flag, with a tilde in front when it is negated. -/
  | flag (negated : Bool)
  deriving DecidableEq, Inhabited

namespace Attribute

/-- The text of an attribute that has one. -/
def text? : Attribute → Option String
  | .text value => some value
  | .flag _ => none

end Attribute

/-- The attributes of one construct. -/
abbrev Attributes := NameMap Attribute

namespace Attributes

/-- Is there a flag of this name that is not negated? -/
def hasFlag (attrs : Attributes) (name : String) : Bool :=
  attrs.get? name == some (.flag false)

end Attributes

/-!
## Dotted references

A reference names a declaration, or a field inside one: `Employee`, `Employee.employeeId`.  Reading
splits the text at every dot and joining puts the dots back, so no text is lost (`dotted_ofDotted`).
-/

/-- A path of names, outermost first, and where it was written. -/
structure Reference where
  /-- The names between the dots. -/
  path : List String
  /-- Where the reference stands in the source. -/
  span : Span
  deriving DecidableEq, Inhabited

namespace Reference

/-- The segments between the dots of a text. -/
def segments (text : String) : List String :=
  (text.toList.splitOn '.').map String.ofList

/-- The reference that a dotted text writes. -/
def ofDotted (text : String) (span : Span) : Reference := ⟨segments text, span⟩

/-- The names of the path with dots between them. -/
def dotted (r : Reference) : String := ".".intercalate r.path

theorem dotted_ofDotted (text : String) (span : Span) : (ofDotted text span).dotted = text := by
  apply String.toList_injective
  simp [dotted, ofDotted, segments, Function.comp_def, List.intercalate_splitOn]

end Reference

/-!
## Data types

A data type has a shape: one of four primitives, a table with fields, a record with fields, an
enumeration, or a reference to a declared type or to a field of one.  `Shape` leaves open what a
field holds; `DataType` closes the circle, so fields may hold types of any shape, nested to any
depth.

A table stores its primary key beside its fields.  `Fields.primaryKey` says which key the fields
call for: the names of those that carry the flag `pk`, in their order.  Whatever makes or changes a
table derives the key anew, and a table with another key is not made by any of it.

Two types are equal when all their parts are, spans and the order of entries included
(`DataType.same_iff`).
-/

/-- The built-in types of values. -/
inductive Primitive where
  /-- Whole numbers. -/
  | int
  /-- Decimal numbers. -/
  | decimal
  /-- Texts. -/
  | string
  /-- Dates. -/
  | date
  deriving DecidableEq, Inhabited

namespace Primitive

/-- The four primitives. -/
def all : List Primitive := [.int, .decimal, .string, .date]

/-- The word that writes the primitive. -/
def keyword : Primitive → String
  | .int => "int"
  | .decimal => "decimal"
  | .string => "string"
  | .date => "date"

end Primitive

/-- A table: its fields, and the names of those that form the primary key. -/
structure Table (Field : Type) extends fields : NameMap Field where
  /-- The names in the primary key. -/
  primaryKey : List String
  deriving DecidableEq, Inhabited

/-- Where fields are asked for, a table stands for its own. -/
instance {Field : Type} : CoeOut (Table Field) (NameMap Field) := ⟨Table.fields⟩

/-- What a type is made of, with `Field` for the types of its fields. -/
inductive Shape (Field : Type) where
  /-- A built-in type. -/
  | primitive (primitive : Primitive)
  /-- A table: fields, some of which form the primary key. -/
  | relation (table : Table Field)
  /-- A record: fields without a key. -/
  | tuple (fields : NameMap Field)
  /-- An enumeration: names with the integers they stand for. -/
  | enumeration (items : NameMap Int)
  /-- A declared type, by name. -/
  | typeRef (target : Reference)
  /-- A field of a declared type, by name. -/
  | foreignKey (target : Reference)
  deriving DecidableEq, Inhabited

/-- A declared type, or the type of a field. -/
structure DataType where
  /-- What the type is made of. -/
  shape : Shape DataType
  /-- May the value be absent? -/
  optional : Bool
  /-- The attributes of the declaration or the flags of the field. -/
  attrs : Attributes
  /-- Where the type stands in the source. -/
  span : Span
  deriving Inhabited

/-- The fields of a table or of a record. -/
abbrev Fields := NameMap DataType

namespace DataType

/-- A type that is required and carries no attribute. -/
def plain (shape : Shape DataType) (span : Span) : DataType := ⟨shape, false, .empty, span⟩

/-- The primitive, of a type that is one. -/
def primitive? (t : DataType) : Option Primitive :=
  match t.shape with
  | .primitive p => some p
  | _ => none

/-- The table, of a type that is one. -/
def relation? (t : DataType) : Option (Table DataType) :=
  match t.shape with
  | .relation table => some table
  | _ => none

/-- Does the type carry this flag, not negated? -/
def hasFlag (t : DataType) (name : String) : Bool := t.attrs.hasFlag name

end DataType

/-! ### The primary key -/

namespace Fields

/-- The flag that puts a field into the primary key. -/
def keyFlag : String := "pk"

/-- The names of the fields that carry the key flag, in order. -/
def primaryKey (fields : Fields) : List String :=
  (fields.entries.filter fun field => field.2.hasFlag keyFlag).map Prod.fst

end Fields

namespace Table

/-- Derives the primary key from the fields, whatever it was. -/
def deriveKey (table : Table DataType) : Table DataType :=
  { table with primaryKey := Fields.primaryKey table.fields }

/-- The table of some fields. -/
def ofFields (fields : Fields) : Table DataType := deriveKey ⟨fields, []⟩

/-- Gives a table a field, or replaces one, and tells the type that it replaces. -/
def insertField (table : Table DataType) (name : String) (type : DataType) :
    Option DataType × Table DataType :=
  let (replaced, fields) := table.fields.replace name type
  (replaced, deriveKey { table with fields })

/-- The stored key is the one that the fields call for. -/
def InStep (table : Table DataType) : Prop := table.primaryKey = Fields.primaryKey table.fields

theorem inStep_ofFields (fields : Fields) : (ofFields fields).InStep := rfl

theorem inStep_insertField (table : Table DataType) (name : String) (type : DataType) :
    (table.insertField name type).2.InStep := rfl

/-- In step with its key, a table is the one that is made of its fields. -/
theorem InStep.eq_ofFields {table : Table DataType} (h : table.InStep) :
    table = ofFields table.fields := by
  obtain ⟨fields, key⟩ := table
  obtain rfl : key = Fields.primaryKey fields := h
  rfl

end Table

/-! ### Equality -/

mutual

/-- Are two types equal in all their parts? -/
def DataType.same : DataType → DataType → Bool
  | ⟨shape₁, optional₁, attrs₁, span₁⟩, ⟨shape₂, optional₂, attrs₂, span₂⟩ =>
    Shape.same shape₁ shape₂ && optional₁ == optional₂ && attrs₁ == attrs₂ && span₁ == span₂

/-- Are two shapes equal in all their parts? -/
def Shape.same : Shape DataType → Shape DataType → Bool
  | .primitive p, .primitive q => p == q
  | .relation ⟨⟨fields₁⟩, key₁⟩, .relation ⟨⟨fields₂⟩, key₂⟩ =>
    Fields.same fields₁ fields₂ && key₁ == key₂
  | .tuple ⟨fields₁⟩, .tuple ⟨fields₂⟩ => Fields.same fields₁ fields₂
  | .enumeration items₁, .enumeration items₂ => items₁ == items₂
  | .typeRef r, .typeRef s => r == s
  | .foreignKey r, .foreignKey s => r == s
  | _, _ => false

/-- Do two lists of fields hold equal names and types in the same order? -/
def Fields.same : List (String × DataType) → List (String × DataType) → Bool
  | [], [] => true
  | (name₁, type₁) :: rest₁, (name₂, type₂) :: rest₂ =>
    name₁ == name₂ && DataType.same type₁ type₂ && Fields.same rest₁ rest₂
  | _, _ => false

end

mutual

theorem DataType.same_iff : (t u : DataType) → (DataType.same t u = true ↔ t = u)
  | ⟨shape₁, optional₁, attrs₁, span₁⟩, ⟨shape₂, optional₂, attrs₂, span₂⟩ => by
    simp [DataType.same, Shape.same_iff shape₁ shape₂, and_assoc]

theorem Shape.same_iff : (s t : Shape DataType) → (Shape.same s t = true ↔ s = t)
  | .relation ⟨⟨fields₁⟩, key₁⟩, t => by
    cases t with
    | relation table₂ =>
      obtain ⟨⟨fields₂⟩, key₂⟩ := table₂
      simp [Shape.same, Fields.same_iff fields₁]
    | _ => simp [Shape.same]
  | .tuple ⟨fields₁⟩, t => by
    cases t with
    | tuple fields₂ => cases fields₂; simp [Shape.same, Fields.same_iff fields₁]
    | _ => simp [Shape.same]
  | .primitive p, t => by cases t <;> simp [Shape.same]
  | .enumeration items, t => by cases t <;> simp [Shape.same]
  | .typeRef r, t => by cases t <;> simp [Shape.same]
  | .foreignKey r, t => by cases t <;> simp [Shape.same]

theorem Fields.same_iff :
    (fields₁ fields₂ : List (String × DataType)) →
      (Fields.same fields₁ fields₂ = true ↔ fields₁ = fields₂)
  | [], [] => by simp [Fields.same]
  | [], _ :: _ => by simp [Fields.same]
  | _ :: _, [] => by simp [Fields.same]
  | (name₁, type₁) :: rest₁, (name₂, type₂) :: rest₂ => by
    simp [Fields.same, DataType.same_iff type₁ type₂, Fields.same_iff rest₁ rest₂]

end

instance : DecidableEq DataType := fun t u => decidable_of_iff _ (DataType.same_iff t u)

/-!
## Applications and models

A model is a map of applications.  An application groups declared types and endpoints, which share
one map of names, so a name stands for a type or for an endpoint and never for both.
-/

/-- The methods by which an endpoint can be called. -/
inductive Method where
  /-- `GET` -/
  | get
  /-- `POST` -/
  | post
  /-- `PUT` -/
  | put
  /-- `DELETE` -/
  | delete
  deriving DecidableEq, Inhabited

namespace Method

/-- The four methods. -/
def all : List Method := [.get, .post, .put, .delete]

/-- The word that writes the method. -/
def keyword : Method → String
  | .get => "GET"
  | .post => "POST"
  | .put => "PUT"
  | .delete => "DELETE"

end Method

/-- An endpoint: `/petshop GET:`. -/
structure Endpoint where
  /-- The path without its first slash. -/
  name : String
  /-- How the endpoint is called. -/
  method : Method
  /-- The attributes of the endpoint. -/
  attrs : Attributes
  /-- Where the endpoint stands in the source. -/
  span : Span
  deriving DecidableEq, Inhabited

/-- What an application holds under a name. -/
inductive Member where
  /-- A declared type. -/
  | type (declared : DataType)
  /-- An endpoint. -/
  | endpoint (endpoint : Endpoint)
  deriving DecidableEq, Inhabited

namespace Member

/-- The declared type, of a member that is one. -/
def type? : Member → Option DataType
  | .type t => some t
  | .endpoint _ => none

/-- The endpoint, of a member that is one. -/
def endpoint? : Member → Option Endpoint
  | .type _ => none
  | .endpoint e => some e

end Member

/-- A named group of declared types and endpoints. -/
structure Application where
  /-- The name of the application. -/
  name : String
  /-- The attributes of the application. -/
  attrs : Attributes
  /-- The types and the endpoints, by name. -/
  members : NameMap Member
  /-- Where the application stands in the source. -/
  span : Span
  deriving DecidableEq, Inhabited

namespace Application

/-- The declared types with their names, in order. -/
def types (app : Application) : List (String × DataType) :=
  app.members.entries.filterMap fun member => member.2.type?.map (member.1, ·)

/-- The endpoints with the names they are held under, in order. -/
def endpoints (app : Application) : List (String × Endpoint) :=
  app.members.entries.filterMap fun member => member.2.endpoint?.map (member.1, ·)

/-- The type declared under a name. -/
def type? (app : Application) (name : String) : Option DataType :=
  (app.members.get? name).bind Member.type?

/-- The endpoint held under a name. -/
def endpoint? (app : Application) (name : String) : Option Endpoint :=
  (app.members.get? name).bind Member.endpoint?

end Application

/-- A whole model. -/
structure Model where
  /-- The applications, by name. -/
  apps : NameMap Application
  /-- Where the model stands in the source. -/
  span : Span
  deriving DecidableEq, Inhabited

/-!
## The canonical text of a tree

Every construct is written on a line of its own, two spaces further in than the construct around it.
Attributes follow their construct in square brackets and are left out when there are none; texts are
quoted.  Applications are separated by an empty line.
-/

/-- One attribute: `key="value"`, `flag` or `~flag`. -/
def Attribute.canonical (name : String) : Attribute → String
  | .text value => name ++ "=" ++ Quoted.write value
  | .flag true => "~" ++ name
  | .flag false => name

/-- A space and the attributes in square brackets, or nothing where there are none. -/
def Attributes.canonical (attrs : Attributes) : String :=
  if attrs.isEmpty then ""
  else " [" ++ ", ".intercalate (attrs.entries.map fun a => a.2.canonical a.1) ++ "]"

namespace Shape

/-- What stands for a shape where a type is used: declared shapes have no name of their own. -/
def canonical {Field : Type} : Shape Field → String
  | .primitive p => p.keyword
  | .typeRef target | .foreignKey target => target.dotted
  | .relation _ | .tuple _ | .enumeration _ => "<anonymous>"

/-- The marker that declares a shape. -/
def marker {Field : Type} : Shape Field → String
  | .relation _ => "!table"
  | .enumeration _ => "!enum"
  | _ => "!type"

end Shape

namespace DataType

/-- A type as it is used by a field: its name, a question mark if it is optional, its flags. -/
def canonical (t : DataType) : String :=
  t.shape.canonical ++ (if t.optional then "?" else "") ++ t.attrs.canonical

/-- The line of a field. -/
def fieldLine (level : Nat) (name : String) (t : DataType) : String :=
  indentation level ++ name ++ " <: " ++ t.canonical ++ "\n"

/-- The line of an item of an enumeration. -/
def itemLine (level : Nat) (name : String) (value : Int) : String :=
  indentation level ++ name ++ ": " ++ Decimal.text value ++ "\n"

/-- The lines of fields. -/
def fieldLines (level : Nat) (fields : Fields) : String :=
  String.join (fields.entries.map fun field => fieldLine level field.1 field.2)

/-- The lines below the header of a declaration. -/
def body (level : Nat) : Shape DataType → String
  | .relation table => fieldLines level table.fields
  | .tuple fields => fieldLines level fields
  | .enumeration items => String.join (items.entries.map fun item => itemLine level item.1 item.2)
  | .primitive _ | .typeRef _ | .foreignKey _ => ""

/-- The declaration of a type under a name. -/
def declaration (level : Nat) (name : String) (t : DataType) : String :=
  indentation level ++ t.shape.marker ++ " " ++ name ++ t.attrs.canonical ++ ":\n"
    ++ body (level + 1) t.shape

end DataType

/-- The line of an endpoint. -/
def Endpoint.canonical (level : Nat) (e : Endpoint) : String :=
  indentation level ++ "/" ++ e.name ++ " " ++ e.method.keyword ++ e.attrs.canonical ++ ":\n"

/-- The lines of a member: a type goes by the name it is held under, an endpoint by its own. -/
def Member.canonical (level : Nat) (name : String) : Member → String
  | .type t => t.declaration level name
  | .endpoint e => e.canonical level

/-- The header of an application and its members. -/
def Application.canonical (level : Nat) (app : Application) : String :=
  indentation level ++ app.name ++ app.attrs.canonical ++ ":\n"
    ++ String.join (app.members.entries.map fun member => member.2.canonical (level + 1) member.1)

/-- The applications, with an empty line between them. -/
def Model.canonical (level : Nat) (m : Model) : String :=
  "\n".intercalate (m.apps.values.map (Application.canonical level))

end SyslModel
