import SyslModel.Grammar.Fragment
import SyslModel.Json
import SyslModel.Source
/-!
# Trees as JSON values

A construct is an object with its parts in a fixed order, a choice between constructs an object with
one member that is named for the one chosen, and a map from names an object in the order of the map.
A table has its primary key beside its fields.
-/

namespace SyslModel

open Json

/-- A map from names as an object. -/
def NameMap.toJson {α : Type} (encode : α → Value) (m : NameMap α) : Value :=
  .record (m.entries.map fun entry => (entry.1, encode entry.2))

/-- A span as an object. -/
def Span.toJson (s : Span) : Value :=
  .record [("start", .integer s.start), ("end", .integer s.stop)]

/-- A position as an object. -/
def Position.toJson (p : Position) : Value :=
  .record [("line", .integer p.line), ("column", .integer p.column)]

/-- A reference as an object. -/
def Reference.toJson (r : Reference) : Value :=
  .record [("path", .array (r.path.map .string)), ("span", r.span.toJson)]

/-- What a primitive is called in JSON. -/
def Primitive.jsonName : Primitive → String
  | .int => "INT"
  | .decimal => "DECIMAL"
  | .string => "STRING"
  | .date => "DATE"

/-- A primitive as its name. -/
def Primitive.toJson (p : Primitive) : Value := .string p.jsonName

/-- A method as its word. -/
def Method.toJson (m : Method) : Value := .string m.keyword

/-- An attribute as an object. -/
def Attribute.toJson : Attribute → Value
  | .text value => .record [("Str", .string value)]
  | .flag negated => .record [("Flag", .record [("negated", .bool negated)])]

/-- Attributes as an object. -/
def Attributes.toJson (attrs : Attributes) : Value := NameMap.toJson Attribute.toJson attrs

/-! ## Types -/

/-- A table as an object, given its fields and its primary key. -/
def relationRecord (fields : Value) (key : List String) : Value :=
  .record [("fields", fields), ("primary_key", .array (key.map .string))]

/-- A record as an object, given its fields. -/
def tupleRecord (fields : Value) : Value := .record [("fields", fields)]

/-- An enumeration as an object. -/
def enumerationToJson (items : NameMap Int) : Value :=
  .record [("items", NameMap.toJson .integer items)]

mutual

/-- A type as an object. -/
def DataType.toJson : DataType → Value
  | ⟨shape, optional, attrs, span⟩ =>
    .record [("kind", Shape.toJson shape), ("optional", .bool optional), ("attrs", attrs.toJson),
      ("span", span.toJson)]

/-- A shape as an object. -/
def Shape.toJson : Shape DataType → Value
  | .primitive p => .record [("Primitive", p.toJson)]
  | .relation ⟨⟨fields⟩, key⟩ =>
    .record [("Relation", relationRecord (.record (Fields.jsonMembers fields)) key)]
  | .tuple ⟨fields⟩ => .record [("Tuple", tupleRecord (.record (Fields.jsonMembers fields)))]
  | .enumeration items => .record [("Enum", enumerationToJson items)]
  | .typeRef target => .record [("TypeRef", target.toJson)]
  | .foreignKey target => .record [("ForeignKey", target.toJson)]

/-- Fields as the members of an object. -/
def Fields.jsonMembers : List (String × DataType) → List (String × Value)
  | [] => []
  | (name, type) :: others => (name, type.toJson) :: Fields.jsonMembers others

end

/-- A table as an object, with the key that it stores. -/
def Table.toJson (table : Table DataType) : Value :=
  relationRecord (.record (Fields.jsonMembers table.entries)) table.primaryKey

/-- The table of some fields as an object. -/
def Fields.relationToJson (fields : Fields) : Value := (Table.ofFields fields).toJson

/-- The fields of a record as an object. -/
def Fields.tupleToJson (fields : Fields) : Value :=
  tupleRecord (.record (Fields.jsonMembers fields.entries))

/-! ## Applications and models -/

/-- The parts of an endpoint. -/
def Endpoint.jsonMembers (e : Endpoint) : List (String × Value) :=
  [("name", .string e.name), ("method", e.method.toJson), ("attrs", e.attrs.toJson),
    ("span", e.span.toJson)]

/-- An endpoint as an object. -/
def Endpoint.toJson (e : Endpoint) : Value := .record e.jsonMembers

/-- A member as an object. -/
def Member.toJson : Member → Value
  | .type t => .record [("Type", t.toJson)]
  | .endpoint e => .record [("Endpoint", e.toJson)]

/-- The parts of an application. -/
def Application.jsonMembers (app : Application) : List (String × Value) :=
  [("name", .string app.name), ("attrs", app.attrs.toJson),
    ("members", app.members.toJson Member.toJson), ("span", app.span.toJson)]

/-- An application as an object. -/
def Application.toJson (app : Application) : Value := .record app.jsonMembers

/-- The parts of a model. -/
def Model.jsonMembers (m : Model) : List (String × Value) :=
  [("apps", m.apps.toJson Application.toJson), ("span", m.span.toJson)]

/-- A model as an object. -/
def Model.toJson (m : Model) : Value := .record m.jsonMembers

/-! ## Fragments -/

/-- The parts of a type. -/
def DataType.jsonMembers (t : DataType) : List (String × Value) :=
  [("kind", t.shape.toJson), ("optional", .bool t.optional), ("attrs", t.attrs.toJson),
    ("span", t.span.toJson)]

/-- The parts of a fragment. -/
def Fragment.jsonMembers : Fragment → List (String × Value)
  | .model m => m.jsonMembers
  | .application app => app.jsonMembers
  | .attributes attrs | .fieldAttrs attrs => [("attrs", attrs.toJson)]
  | .attribute key value => [("key", .string key), ("value", value.toJson)]
  | .declaration name type | .field name type => [("name", .string name), ("ty", type.toJson)]
  | .enumItem name value => [("name", .string name), ("value", .integer value)]
  | .typeRef type => type.jsonMembers
  | .fieldAttr name value => [("name", .string name), ("value", value.toJson)]
  | .endpoint e => e.jsonMembers

/-- A fragment as an object: first the name of its rule, then its parts. -/
def Fragment.toJson (f : Fragment) : Value :=
  .record (("rule", .string f.rule.name) :: f.jsonMembers)

/-- A name and a value as a pair. -/
def pairToJson (name : String) (value : Value) : Value := .array [.string name, value]

/-- A fragment without the name of its rule: the construct itself, or a pair of its name and its
value. -/
def Fragment.valueToJson : Fragment → Value
  | .model m => m.toJson
  | .application app => app.toJson
  | .attributes attrs | .fieldAttrs attrs => attrs.toJson
  | .attribute name value | .fieldAttr name value => pairToJson name value.toJson
  | .declaration name type | .field name type => pairToJson name type.toJson
  | .enumItem name value => pairToJson name (.integer value)
  | .typeRef type => type.toJson
  | .endpoint e => e.toJson

end SyslModel
