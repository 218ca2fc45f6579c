import SyslModel.Json
import SyslModel.Tree.ToJson
/-!
# Trees from JSON values

The inverse of writing a tree as JSON, within a budget of nested arrays and objects.  The primary
key of a table is not read: it follows from the fields.
-/

namespace SyslModel

open Json

/-- The span that a value denotes. -/
def Span.ofJson? : Decoder Span
  | 0, _ => none
  | _ + 1, value => do
    match ← value.fields? ["start", "end"] with
    | [start, stop] => pure ⟨← start.unsigned64?, ← stop.unsigned64?⟩
    | _ => none

/-- The position that a value denotes. -/
def Position.ofJson? : Decoder Position
  | 0, _ => none
  | _ + 1, value => do
    match ← value.fields? ["line", "column"] with
    | [line, column] => pure ⟨← line.unsigned64?, ← column.unsigned64?⟩
    | _ => none

/-- The reference that a value denotes. -/
def Reference.ofJson? : Decoder Reference
  | 0, _ => none
  | depth + 1, value => do
    match ← value.fields? ["path", "span"] with
    | [path, span] =>
      pure ⟨← arrayOf (fun _ => Value.string?) depth path, ← Span.ofJson? depth span⟩
    | _ => none

/-- The primitive that a value denotes. -/
def Primitive.ofJson? : Decoder Primitive := fun depth value => do
  let name ← value.bareVariant? depth
  Primitive.all.find? (·.jsonName == name)

/-- The method that a value denotes. -/
def Method.ofJson? : Decoder Method := fun depth value => do
  let name ← value.bareVariant? depth
  Method.all.find? (·.keyword == name)

/-- The truth value in the record of a flag. -/
def Attribute.negatedOfJson? : Decoder Bool
  | 0, _ => none
  | _ + 1, value => do
    match ← value.fields? ["negated"] with
    | [negated] => negated.bool?
    | _ => none

/-- The attribute that a value denotes. -/
def Attribute.ofJson? : Decoder Attribute
  | 0, _ => none
  | depth + 1, value => do
    match ← value.variant? with
    | ("Str", content) => content.string?.map .text
    | ("Flag", content) => (Attribute.negatedOfJson? depth content).map .flag
    | _ => none

/-- The attributes that a value denotes. -/
def Attributes.ofJson? : Decoder Attributes := mapOf Attribute.ofJson?

/-- The integers that a value denotes, by their names. -/
def integersOfJson? : Decoder (NameMap Int) := mapOf fun _ => Value.signed64?

/-- The items of the enumeration that a value denotes. -/
def enumerationOfJson? : Decoder (NameMap Int)
  | 0, _ => none
  | depth + 1, value => do
    match ← value.fields? ["items"] with
    | [items] => integersOfJson? depth items
    | _ => none

/-! ## Types -/

mutual

/-- The type that a value denotes. -/
def DataType.ofJson? : Nat → Value → Option DataType
  | 0, _ => none
  | depth + 1, value => do
    match ← value.fields? ["kind", "optional", "attrs", "span"] with
    | [shape, optional, attrs, span] =>
      pure ⟨← Shape.ofJson? depth shape, ← optional.bool?, ← Attributes.ofJson? depth attrs,
        ← Span.ofJson? depth span⟩
    | _ => none

/-- The shape that a value denotes. -/
def Shape.ofJson? : Nat → Value → Option (Shape DataType)
  | 0, _ => none
  | depth + 1, value => do
    match ← value.variant? with
    | ("Primitive", content) => (Primitive.ofJson? depth content).map .primitive
    | ("Relation", content) =>
      (Fields.recordOfJson? depth content).map fun fields => .relation (.ofFields fields)
    | ("Tuple", content) => (Fields.recordOfJson? depth content).map .tuple
    | ("Enum", content) => (enumerationOfJson? depth content).map .enumeration
    | ("TypeRef", content) => (Reference.ofJson? depth content).map .typeRef
    | ("ForeignKey", content) => (Reference.ofJson? depth content).map .foreignKey
    | _ => none

/-- The fields in the record of a table or of a tuple. -/
def Fields.recordOfJson? : Nat → Value → Option Fields
  | 0, _ => none
  | depth + 1, value => do
    match ← value.fields? ["fields"] with
    | [fields] => Fields.ofJson? depth fields
    | _ => none

/-- The fields that an object denotes. -/
def Fields.ofJson? : Nat → Value → Option Fields
  | 0, _ => none
  | depth + 1, value => do
    let members ← value.members?
    let entries ← members.mapM fun m => (DataType.ofJson? depth m.2).map (m.1, ·)
    pure (NameMap.ofList entries)

end

/-- The table that a value denotes.  Only the fields are read: the key is derived, whatever the
value says about it. -/
def Table.ofJson? : Decoder (Table DataType) := fun depth value =>
  (Fields.recordOfJson? depth value).map .ofFields

/-! ## Applications and models -/

/-- The endpoint that a value denotes. -/
def Endpoint.ofJson? : Decoder Endpoint
  | 0, _ => none
  | depth + 1, value => do
    match ← value.fields? ["name", "method", "attrs", "span"] with
    | [name, method, attrs, span] =>
      pure ⟨← name.string?, ← Method.ofJson? depth method, ← Attributes.ofJson? depth attrs,
        ← Span.ofJson? depth span⟩
    | _ => none

/-- The member that a value denotes. -/
def Member.ofJson? : Decoder Member
  | 0, _ => none
  | depth + 1, value => do
    match ← value.variant? with
    | ("Type", content) => (DataType.ofJson? depth content).map .type
    | ("Endpoint", content) => (Endpoint.ofJson? depth content).map .endpoint
    | _ => none

/-- The application that a value denotes. -/
def Application.ofJson? : Decoder Application
  | 0, _ => none
  | depth + 1, value => do
    match ← value.fields? ["name", "attrs", "members", "span"] with
    | [name, attrs, members, span] =>
      pure ⟨← name.string?, ← Attributes.ofJson? depth attrs, ← mapOf Member.ofJson? depth members,
        ← Span.ofJson? depth span⟩
    | _ => none

/-- The model that a value denotes. -/
def Model.ofJson? : Decoder Model
  | 0, _ => none
  | depth + 1, value => do
    match ← value.fields? ["apps", "span"] with
    | [apps, span] => pure ⟨← mapOf Application.ofJson? depth apps, ← Span.ofJson? depth span⟩
    | _ => none

end SyslModel
