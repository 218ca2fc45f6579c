import SyslModel.Grammar.Fragment
import SyslModel.Grammar.Parser
/-!
# The rules as parsers

Every rule of the grammar but the outermost is a parser here, written above it as a production over
kinds of tokens.  Names that are given twice keep their first place and their last value.

Two rules look further ahead than one token.  A primitive is the name of a field only in front of
`<:`, and an identifier is the name of an item only in front of a colon and an integer; else it
starts the next application.
-/

namespace SyslModel
namespace Grammar

open SyslModel.Parser

/-! ## Attributes -/

/-- The list `'[' (item (',' item)*)? ']'`. -/
def bracketed (item : Parser (String × Attribute)) : Parser Attributes := do
  let _ ← expect (.punctuation .openBracket)
  let items ← branch (·.isAt (.punctuation .closeBracket)) (pure []) do
    let first ← item
    let others ← repeatWhile (·.isAt (.punctuation .comma)) do
      let _ ← expect (.punctuation .comma)
      item
    pure (first :: others)
  let _ ← expect (.punctuation .closeBracket)
  pure (NameMap.ofList items)

/-- The text of an attribute that a token gives: a quoted text or a qualified name. -/
def attributeText? (t : Token) : Option String :=
  match t.kind with
  | .quoted => some (Quoted.read t.text)
  | .qualifiedName => some t.text
  | _ => none

/-- The rule `attribute := SmallIdentifier '=' (Quoted | QualifiedName)`. -/
def readAttribute : Parser (String × Attribute) := within .attribute do
  let key ← expect .smallIdentifier
  let _ ← expect (.punctuation .equals)
  let text ← take .attributeText attributeText?
  pure (key.text, .text text)

/-- The rule `attributes := '[' (attribute (',' attribute)*)? ']'`. -/
def readAttributes : Parser Attributes := within .attributes (bracketed readAttribute)

/-- Attributes where there are some. -/
def optionalAttributes : Parser Attributes :=
  branch (·.isAt (.punctuation .openBracket)) readAttributes (pure .empty)

/-- The rule `field_attr := '~'? SmallIdentifier`. -/
def readFieldAttr : Parser (String × Attribute) := within .fieldAttr do
  let negated ← accept (.punctuation .tilde)
  let name ← expect .smallIdentifier
  pure (name.text, .flag negated)

/-- The rule `field_attrs := '[' (field_attr (',' field_attr)*)? ']'`. -/
def readFieldAttrs : Parser Attributes := within .fieldAttrs (bracketed readFieldAttr)

/-! ## Fields -/

/-- The shape that a token names. -/
def typeName? (t : Token) : Option (Shape DataType) :=
  match t.kind with
  | .primitive p => some (.primitive p)
  | .foreignKey => some (.foreignKey (Reference.ofDotted t.text t.span))
  | .identifier => some (.typeRef (Reference.ofDotted t.text t.span))
  | _ => none

/-- The rule `type_ref := Primitive | ForeignKey | Identifier`. -/
def readTypeRef : Parser DataType := within .typeRef do
  let span ← start
  let shape ← take .typeName typeName?
  pure (DataType.plain shape span)

/-- The name of a field that a token gives. -/
def fieldName? (t : Token) : Option String :=
  match t.kind with
  | .smallIdentifier => some t.text
  | .primitive _ => some t.text
  | _ => none

/-- The rule `field := (SmallIdentifier | Primitive) '<:' type_ref '?'? field_attrs?`. -/
def readField : Parser (String × DataType) := within .field do
  let first ← start
  let name ← take .fieldName fieldName?
  let _ ← expect (.punctuation .subset)
  let type ← readTypeRef
  let optional ← accept (.punctuation .question)
  let attrs ← branch (·.isAt (.punctuation .openBracket)) readFieldAttrs (pure .empty)
  let span ← spanFrom first
  pure (name, ⟨type.shape, optional, attrs, span⟩)

/-- Does a field start here? -/
def atField (s : Stream) : Bool :=
  s.isAt .smallIdentifier ||
    ((s.kindAt 0).isPrimitive && s.kindAt 1 == .punctuation .subset)

/-- The fields of a declaration, `field*`. -/
def readFields : Parser Fields := do
  let list ← repeatWhile atField readField
  pure (NameMap.ofList list)

/-! ## Enumerations -/

/-- The name of an item that a token gives. -/
def itemName? (t : Token) : Option String :=
  match t.kind with
  | .identifier => some t.text
  | .smallIdentifier => some t.text
  | _ => none

/-- The integer that a token writes, which has to fit into 64 bits. -/
def readInteger (literal : Token) : Parser Int :=
  match Decimal.read64? literal.text.toList with
  | some value => pure value
  | none => fail (.integerOutOfRange literal)

/-- The rule `enum_item := (Identifier | SmallIdentifier) ':' Integer`. -/
def readEnumItem : Parser (String × Int) := within .enumItem do
  let name ← take .itemName itemName?
  let _ ← expect (.punctuation .colon)
  let literal ← expect .integer
  let value ← readInteger literal
  pure (name, value)

/-- Does an item start here? -/
def atEnumItem (s : Stream) : Bool :=
  s.isAt .smallIdentifier ||
    (s.isAt .identifier && s.kindAt 1 == .punctuation .colon && s.kindAt 2 == .integer)

/-- The items of an enumeration, `enum_item*`. -/
def readEnumItems : Parser (NameMap Int) := do
  let list ← repeatWhile atEnumItem readEnumItem
  pure (NameMap.ofList list)

/-! ## Declarations, endpoints and applications -/

/-- The marker that a token is. -/
def marker? (t : Token) : Option Marker :=
  match t.kind with
  | .marker m => some m
  | _ => none

/-- What stands below the header of a declaration. -/
def readBody : Marker → Parser (Shape DataType)
  | .table => do
    let list ← readFields
    pure (.relation (.ofFields list))
  | .type => do
    let list ← readFields
    pure (.tuple list)
  | .enumeration => do
    let list ← readEnumItems
    pure (.enumeration list)

/-- The rule `declaration := Marker Identifier attributes? ':' (field* | enum_item*)`. -/
def readDeclaration : Parser (String × DataType) := within .declaration do
  let first ← start
  let marker ← take .marker marker?
  let name ← expect .identifier
  let attrs ← optionalAttributes
  let _ ← expect (.punctuation .colon)
  let shape ← readBody marker
  let span ← spanFrom first
  pure (name.text, ⟨shape, false, attrs, span⟩)

/-- The method that a token is. -/
def method? (t : Token) : Option Method :=
  match t.kind with
  | .method m => some m
  | _ => none

/-- A path without its first slash. -/
def pathName (path : String) : String :=
  match path.toList with
  | '/' :: name => String.ofList name
  | _ => path

/-- The rule `endpoint := Path Method attributes? ':'`. -/
def readEndpoint : Parser Endpoint := within .endpoint do
  let first ← start
  let path ← expect .path
  let method ← take .method method?
  let attrs ← optionalAttributes
  let _ ← expect (.punctuation .colon)
  let span ← spanFrom first
  pure ⟨pathName path.text, method, attrs, span⟩

/-- Does a member start here? -/
def atMember (s : Stream) : Bool := (s.kindAt 0).isMarker || s.isAt .path

/-- A member under its name, `declaration | endpoint`.  Nothing else is taken for one. -/
def readMember : Parser (String × Member) :=
  branch (fun s => (s.kindAt 0).isMarker)
    (do
      let (name, declared) ← readDeclaration
      pure (name, .type declared))
    (branch (·.isAt .path)
      (do
        let e ← readEndpoint
        pure (e.name, .endpoint e))
      (take .member fun _ => none))

/-- The rule `application := Identifier attributes? ':' (declaration | endpoint)*`. -/
def readApplication : Parser Application := within .application do
  let first ← start
  let name ← expect .identifier
  let attrs ← optionalAttributes
  let _ ← expect (.punctuation .colon)
  let members ← repeatWhile atMember readMember
  let span ← spanFrom first
  pure ⟨name.text, attrs, NameMap.ofList members, span⟩

/-! ## Fragments -/

/-- The parser of a rule; the rule of whole files has none, since it keeps what it has read when it
fails. -/
def reader? : Rule → Option (Parser Fragment)
  | .model => none
  | .application => some (.application <$> readApplication)
  | .attributes => some (.attributes <$> readAttributes)
  | .attribute => some ((fun a => .attribute a.1 a.2) <$> readAttribute)
  | .declaration => some ((fun d => .declaration d.1 d.2) <$> readDeclaration)
  | .enumItem => some ((fun i => .enumItem i.1 i.2) <$> readEnumItem)
  | .field => some ((fun f => .field f.1 f.2) <$> readField)
  | .typeRef => some (.typeRef <$> readTypeRef)
  | .fieldAttrs => some (.fieldAttrs <$> readFieldAttrs)
  | .fieldAttr => some ((fun a => .fieldAttr a.1 a.2) <$> readFieldAttr)
  | .endpoint => some (.endpoint <$> readEndpoint)

end Grammar
end SyslModel
