import SyslModel.Tree
/-!
# Rules and fragments

The grammar has eleven rules, and each yields a fragment of a tree of its own kind.
-/

namespace SyslModel

/-!
## Rules of the grammar

A source is a whole file by default, but any rule may be the one it is read by.
-/

/-- A rule of the grammar. -/
inductive Rule where
  /-- Applications up to the end of the file. -/
  | model
  /-- A name, attributes and members. -/
  | application
  /-- Texts in square brackets. -/
  | attributes
  /-- A key and its text. -/
  | attribute
  /-- A table, a record or an enumeration. -/
  | declaration
  /-- A name and its integer. -/
  | enumItem
  /-- A name, a type and flags. -/
  | field
  /-- The name of a type. -/
  | typeRef
  /-- Flags in square brackets. -/
  | fieldAttrs
  /-- A flag. -/
  | fieldAttr
  /-- A path, a method and attributes. -/
  | endpoint
  deriving DecidableEq

namespace Rule

/-- All rules, the outermost first. -/
def all : List Rule :=
  [.model, .application, .attributes, .attribute, .declaration, .enumItem, .field, .typeRef,
    .fieldAttrs, .fieldAttr, .endpoint]

/-- The rule of a whole file. -/
def standard : Rule := .model

instance : Inhabited Rule := ⟨standard⟩

/-- What a rule is called. -/
def name : Rule → String
  | .model => "module"
  | .application => "application"
  | .attributes => "attributes"
  | .attribute => "attribute"
  | .declaration => "declaration"
  | .enumItem => "enum_item"
  | .field => "field"
  | .typeRef => "type_ref"
  | .fieldAttrs => "field_attrs"
  | .fieldAttr => "field_attr"
  | .endpoint => "endpoint"

/-- The rule of a name. -/
def ofName? (name : String) : Option Rule := all.find? fun rule => rule.name == name

/-- The words that report a name without a rule. -/
def unknownMessage (name : String) : String := "unknown rule '" ++ name ++ "'"

theorem ofName?_name (rule : Rule) : ofName? rule.name = some rule := by
  cases rule <;> decide

end Rule

/-!
## Fragments

Each rule of the grammar yields a fragment of a tree.
-/

/-- What a rule yields. -/
inductive Fragment where
  /-- A whole model. -/
  | model (model : Model)
  /-- An application. -/
  | application (application : Application)
  /-- The attributes of an application, a declared type or an endpoint. -/
  | attributes (attrs : Attributes)
  /-- One attribute under its key. -/
  | attribute (key : String) (value : Attribute)
  /-- A declared type under its name. -/
  | declaration (name : String) (declared : DataType)
  /-- An item of an enumeration. -/
  | enumItem (name : String) (value : Int)
  /-- A field under its name. -/
  | field (name : String) (type : DataType)
  /-- A type by its name. -/
  | typeRef (type : DataType)
  /-- The flags of a field. -/
  | fieldAttrs (attrs : Attributes)
  /-- One flag under its name. -/
  | fieldAttr (name : String) (value : Attribute)
  /-- An endpoint. -/
  | endpoint (endpoint : Endpoint)
  deriving DecidableEq, Inhabited

namespace Fragment

/-- The rule that yields the fragment. -/
def rule : Fragment → Rule
  | .model _ => .model
  | .application _ => .application
  | .attributes _ => .attributes
  | .attribute _ _ => .attribute
  | .declaration _ _ => .declaration
  | .enumItem _ _ => .enumItem
  | .field _ _ => .field
  | .typeRef _ => .typeRef
  | .fieldAttrs _ => .fieldAttrs
  | .fieldAttr _ _ => .fieldAttr
  | .endpoint _ => .endpoint

/-- The model, of a fragment that is one. -/
def model? : Fragment → Option Model
  | .model m => some m
  | _ => none

/-- The canonical text of a fragment that has one: of a declaration and of a field it is that of the
type alone. -/
def canonical? (level : Nat) : Fragment → Option String
  | .model m => some (m.canonical level)
  | .application app => some (app.canonical level)
  | .declaration _ type | .field _ type | .typeRef type => some type.canonical
  | .endpoint e => some (e.canonical level)
  | .attributes _ | .attribute _ _ | .enumItem _ _ | .fieldAttrs _ | .fieldAttr _ _ => none

end Fragment

end SyslModel
