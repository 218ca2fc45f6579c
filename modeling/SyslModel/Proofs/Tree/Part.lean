import Mathlib.Logic.Relation
import SyslModel.Grammar.Fragment
import SyslModel.Source
/-!
# The parts of a tree

A `Part` is a value of any of the types that trees are made of, from a whole model down to a span.
`Part.children` lists the parts that a part is made of, and `Part.Contains` reaches all that are
inside it, at any depth.  So a statement about everything in a tree can be made once.
-/

namespace SyslModel

/-- The fields of a shape that has some: a table or a record. -/
def Shape.fields? : Shape DataType → Option Fields
  | .relation table => some table.fields
  | .tuple fields => some fields
  | _ => none

/-- A value of one of the types that trees are made of. -/
inductive Part where
  /-- A whole model. -/
  | model (m : Model)
  /-- An application. -/
  | application (app : Application)
  /-- A member of an application. -/
  | member (m : Member)
  /-- An endpoint. -/
  | endpoint (e : Endpoint)
  /-- A declared type, or the type of a field. -/
  | dataType (t : DataType)
  /-- What a type is made of. -/
  | shape (s : Shape DataType)
  /-- A table. -/
  | relation (table : Table DataType)
  /-- The fields of a record. -/
  | tuple (fields : Fields)
  /-- The items of an enumeration. -/
  | enumeration (items : NameMap Int)
  /-- An attribute. -/
  | attr (a : Attribute)
  /-- A reference. -/
  | reference (r : Reference)
  /-- A span. -/
  | span (s : Span)
  /-- A position. -/
  | position (p : Position)
  /-- Integers under names. -/
  | integers (items : NameMap Int)

/-- The types that parts are of. -/
inductive PartKind where
  /-- Whole models. -/
  | model
  /-- Applications. -/
  | application
  /-- Members of applications. -/
  | member
  /-- Endpoints. -/
  | endpoint
  /-- Declared types and types of fields. -/
  | dataType
  /-- What types are made of. -/
  | shape
  /-- Tables. -/
  | relation
  /-- The fields of records. -/
  | tuple
  /-- The items of enumerations. -/
  | enumeration
  /-- Attributes. -/
  | attr
  /-- References. -/
  | reference
  /-- Spans. -/
  | span
  /-- Positions. -/
  | position
  /-- Integers under names. -/
  | integers

namespace Part

/-- The type that a part is of. -/
def kind : Part → PartKind
  | .model _ => .model
  | .application _ => .application
  | .member _ => .member
  | .endpoint _ => .endpoint
  | .dataType _ => .dataType
  | .shape _ => .shape
  | .relation _ => .relation
  | .tuple _ => .tuple
  | .enumeration _ => .enumeration
  | .attr _ => .attr
  | .reference _ => .reference
  | .span _ => .span
  | .position _ => .position
  | .integers _ => .integers

/-- The parts that a part is made of. -/
def children : Part → List Part
  | .model m => .span m.span :: m.apps.values.map .application
  | .application app =>
    .span app.span :: (app.attrs.values.map .attr ++ app.members.values.map .member)
  | .member (.type t) => [.dataType t]
  | .member (.endpoint e) => [.endpoint e]
  | .endpoint e => .span e.span :: e.attrs.values.map .attr
  | .dataType t => .span t.span :: .shape t.shape :: t.attrs.values.map .attr
  | .shape (.relation table) => [.relation table]
  | .shape (.tuple fields) => [.tuple fields]
  | .shape (.enumeration items) => [.enumeration items]
  | .shape (.typeRef target) | .shape (.foreignKey target) => [.reference target]
  | .relation table => table.values.map .dataType
  | .tuple fields => fields.values.map .dataType
  | .enumeration items => [.integers items]
  | .reference r => [.span r.span]
  | .shape (.primitive _) | .attr _ | .span _ | .position _ | .integers _ => []

/-- The fields of a part that is a table or a record. -/
def fields? : Part → Option Fields
  | .relation table => some table.fields
  | .tuple fields => some fields
  | _ => none

/-- A part is inside another one, or is that one. -/
def Contains : Part → Part → Prop := Relation.ReflTransGen fun whole part => part ∈ whole.children

/-- What the parts of a part inherit holds of everything inside it. -/
theorem Contains.induct {P : Part → Prop} (hchildren : ∀ p, P p → ∀ c ∈ p.children, P c)
    {whole part : Part} (h : whole.Contains part) (hwhole : P whole) : P part := by
  induction h with
  | refl => exact hwhole
  | tail _ hmem ih => exact hchildren _ ih _ hmem

end Part

/-- The parts that a fragment is made of; a fragment that is itself a part is the only one. -/
def Fragment.parts : Fragment → List Part
  | .model m => [.model m]
  | .application app => [.application app]
  | .attributes attrs | .fieldAttrs attrs => attrs.values.map .attr
  | .attribute _ value | .fieldAttr _ value => [.attr value]
  | .declaration _ t | .field _ t | .typeRef t => [.dataType t]
  | .enumItem _ _ => []
  | .endpoint e => [.endpoint e]

end SyslModel
