import SyslModel.Grammar.Rules
import SyslModel.Proofs.Grammar.Reads
import SyslModel.Proofs.Text.Decimal
/-!
# Rules by their steps

A parser is a function, and a function does not tell which rules were entered and left on the way to
its outcome.  A `Script` is a parser by its steps, and `Script.parser` is the parser that takes
them.  The rules of the grammar are written down as scripts once more, step by step, and
`reader?_eq` says that their parsers are the parsers of the grammar.

A script can ask only a few things of its tokens, so it can be followed on anything that answers
them.  A script that `Consumes` goes past a token whenever it yields a value, which can be told from
its steps.  All items that the grammar repeats do (`Grammar.items_consume`), so a repetition goes on
behind each of them (`Parser.Consumes.collect_eq`).
-/

namespace SyslModel

/-! ## Steps -/

/-- A look at the tokens ahead, before a script decides how to go on. -/
inductive Look where
  /-- At the kinds of the next tokens. -/
  | kinds (test : (Nat → TokenKind) → Bool)
  /-- Is there a token in front of the end? -/
  | notAtEnd

/-- What the look finds on a stream. -/
def Look.holds : Look → Stream → Bool
  | .kinds test, s => test s.kindAt
  | .notAtEnd, s => !s.atEnd

/-- A parser by its steps. -/
inductive Script : Type → Type 1 where
  /-- Yields a value without reading. -/
  | yield {α : Type} (value : α) : Script α
  /-- Reads one value and goes on with another script. -/
  | andThen {α β : Type} (first : Script α) (next : α → Script β) : Script β
  /-- Works for an inner rule. -/
  | within {α : Type} (rule : Rule) (body : Script α) : Script α
  /-- Refuses an integer that does not fit. -/
  | refuse {α : Type} (literal : Token) : Script α
  /-- Consumes the next token if `choose` makes something of it. -/
  | take {α : Type} (expected : Expectation) (choose : Token → Option α) : Script α
  /-- The span at the place. -/
  | start : Script Span
  /-- The span from the start of a first token to the end of the last consumed one. -/
  | spanFrom (first : Span) : Script Span
  /-- Reads with one script or another, by a look at the next tokens. -/
  | branch {α : Type} (look : Look) (yes no : Script α) : Script α
  /-- Reads items as long as a look finds one. -/
  | repeatWhile {α : Type} (look : Look) (item : Script α) : Script (List α)

instance : Monad Script where
  pure := .yield
  bind := .andThen

namespace Script

/-- The parser that takes the steps. -/
def parser {α : Type} : Script α → Parser α
  | .yield value => pure value
  | .andThen first next => first.parser >>= fun value => (next value).parser
  | .within rule body => Parser.within rule body.parser
  | .refuse literal => Parser.fail (.integerOutOfRange literal)
  | .take expected choose => Parser.take expected choose
  | .start => Parser.start
  | .spanFrom first => Parser.spanFrom first
  | .branch look yes no => Parser.branch look.holds yes.parser no.parser
  | .repeatWhile look item => Parser.repeatWhile look.holds item.parser

/-- Consumes a token of one kind. -/
def expect (kind : TokenKind) : Script Token :=
  .take (.token kind) fun t => if t.kind = kind then some t else none

/-- Is the token at the place of this kind? -/
def isAt (kind : TokenKind) : Look := .kinds fun kinds => kinds 0 == kind

/-- Consumes the next token if it is of one kind, and tells whether it was. -/
def accept (kind : TokenKind) : Script Bool :=
  .branch (isAt kind) (do let _ ← expect kind; pure true) (pure false)

end Script

/-! ## The looks of the grammar -/

namespace Grammar

/-- Does a field start where these kinds of tokens stand? -/
def fieldAt (kinds : Nat → TokenKind) : Bool :=
  kinds 0 == .smallIdentifier || ((kinds 0).isPrimitive && kinds 1 == .punctuation .subset)

/-- Does an item of an enumeration start where these kinds of tokens stand? -/
def enumItemAt (kinds : Nat → TokenKind) : Bool :=
  kinds 0 == .smallIdentifier ||
    (kinds 0 == .identifier && kinds 1 == .punctuation .colon && kinds 2 == .integer)

/-- Does a member start where these kinds of tokens stand? -/
def memberAt (kinds : Nat → TokenKind) : Bool := (kinds 0).isMarker || kinds 0 == .path

theorem atField_eq (s : Stream) : atField s = fieldAt s.kindAt := rfl

theorem atEnumItem_eq (s : Stream) : atEnumItem s = enumItemAt s.kindAt := rfl

end Grammar

/-! ## The scripts of the rules -/

namespace Script

/-- The script of a list in brackets. -/
def bracketed (item : Script (String × Attribute)) : Script Attributes := do
  let _ ← expect (.punctuation .openBracket)
  let items ← .branch (isAt (.punctuation .closeBracket)) (pure []) do
    let first ← item
    let others ← .repeatWhile (isAt (.punctuation .comma)) do
      let _ ← expect (.punctuation .comma)
      item
    pure (first :: others)
  let _ ← expect (.punctuation .closeBracket)
  pure (NameMap.ofList items)

/-- The script of an attribute. -/
def readAttribute : Script (String × Attribute) := .within .attribute do
  let key ← expect .smallIdentifier
  let _ ← expect (.punctuation .equals)
  let text ← .take .attributeText Grammar.attributeText?
  pure (key.text, .text text)

/-- The script of attributes. -/
def readAttributes : Script Attributes := .within .attributes (bracketed readAttribute)

/-- The script of attributes where there are some. -/
def optionalAttributes : Script Attributes :=
  .branch (isAt (.punctuation .openBracket)) readAttributes (pure .empty)

/-- The script of a flag. -/
def readFieldAttr : Script (String × Attribute) := .within .fieldAttr do
  let negated ← accept (.punctuation .tilde)
  let name ← expect .smallIdentifier
  pure (name.text, .flag negated)

/-- The script of flags. -/
def readFieldAttrs : Script Attributes := .within .fieldAttrs (bracketed readFieldAttr)

/-- The script of a type that is named. -/
def readTypeRef : Script DataType := .within .typeRef do
  let span ← .start
  let shape ← .take .typeName Grammar.typeName?
  pure (DataType.plain shape span)

/-- The script of a field. -/
def readField : Script (String × DataType) := .within .field do
  let first ← .start
  let name ← .take .fieldName Grammar.fieldName?
  let _ ← expect (.punctuation .subset)
  let type ← readTypeRef
  let optional ← accept (.punctuation .question)
  let attrs ← .branch (isAt (.punctuation .openBracket)) readFieldAttrs (pure .empty)
  let span ← .spanFrom first
  pure (name, ⟨type.shape, optional, attrs, span⟩)

/-- The script of fields. -/
def readFields : Script Fields := do
  let list ← .repeatWhile (.kinds Grammar.fieldAt) readField
  pure (NameMap.ofList list)

/-- The script of the value of an integer token. -/
def readInteger (literal : Token) : Script Int :=
  match Decimal.signed64? literal.text.toList with
  | some value => pure value
  | none => .refuse literal

/-- The script of an item of an enumeration. -/
def readEnumItem : Script (String × Int) := .within .enumItem do
  let name ← .take .itemName Grammar.itemName?
  let _ ← expect (.punctuation .colon)
  let literal ← expect .integer
  let value ← readInteger literal
  pure (name, value)

/-- The script of the items of an enumeration. -/
def readEnumItems : Script (NameMap Int) := do
  let list ← .repeatWhile (.kinds Grammar.enumItemAt) readEnumItem
  pure (NameMap.ofList list)

/-- The script of what stands below the header of a declaration. -/
def readBody : Marker → Script (Shape DataType)
  | .table => do
    let list ← readFields
    pure (.relation (.ofFields list))
  | .type => do
    let list ← readFields
    pure (.tuple list)
  | .enumeration => do
    let list ← readEnumItems
    pure (.enumeration list)

/-- The script of a declaration. -/
def readDeclaration : Script (String × DataType) := .within .declaration do
  let first ← .start
  let marker ← .take .marker Grammar.marker?
  let name ← expect .identifier
  let attrs ← optionalAttributes
  let _ ← expect (.punctuation .colon)
  let shape ← readBody marker
  let span ← .spanFrom first
  pure (name.text, ⟨shape, false, attrs, span⟩)

/-- The script of an endpoint. -/
def readEndpoint : Script Endpoint := .within .endpoint do
  let first ← .start
  let path ← expect .path
  let method ← .take .method Grammar.method?
  let attrs ← optionalAttributes
  let _ ← expect (.punctuation .colon)
  let span ← .spanFrom first
  pure ⟨Grammar.pathName path.text, method, attrs, span⟩

/-- The script of a member. -/
def readMember : Script (String × Member) :=
  .branch (.kinds fun kinds => (kinds 0).isMarker)
    (do
      let (name, declared) ← readDeclaration
      pure (name, .type declared))
    (.branch (isAt .path)
      (do
        let e ← readEndpoint
        pure (e.name, .endpoint e))
      (.take .member fun _ => none))

/-- The script of an application. -/
def readApplication : Script Application := .within .application do
  let first ← .start
  let name ← expect .identifier
  let attrs ← optionalAttributes
  let _ ← expect (.punctuation .colon)
  let members ← .repeatWhile (.kinds Grammar.memberAt) readMember
  let span ← .spanFrom first
  pure ⟨name.text, attrs, NameMap.ofList members, span⟩

/-- The script of a rule; the rule of whole files has none of its own. -/
def ofRule? : Rule → Option (Script Fragment)
  | .model => none
  | .application => some (.application <$> readApplication)
  | .attributes => some (.attributes <$> readAttributes)
  | .attribute => some ((fun a => .attribute a.1 a.2) <$> readAttribute)
  | .declaration => some ((fun d => .declaration d.1 d.2) <$> readDeclaration)
  | .enumItem => some ((fun i => .enumItem i.1 i.2) <$> readEnumItem)
  | .field => some ((fun f => .field f.1 f.2) <$> readField)
  | .typeRef => some (.typeRef <$> readTypeRef)
  | .fieldAttrs => some (.fieldAttrs <$> readFieldAttrs)
  | .fieldAttr => some ((fun a => .fieldAttr a.1 a.2) <$> readFieldAttr)
  | .endpoint => some (.endpoint <$> readEndpoint)

/-- The script of a rule; that of whole files is to read applications up to the end. -/
def ofRule (rule : Rule) : Script Unit :=
  match ofRule? rule with
  | some script => do
    let _ ← script
    pure ()
  | none => do
    let _ ← .repeatWhile .notAtEnd readApplication
    pure ()

/-! ## Their parsers -/

section Parsers

variable {α β : Type}

@[simp] theorem holds_isAt (kind : TokenKind) : (isAt kind).holds = (·.isAt kind) := rfl

@[simp] theorem holds_isMarker :
    (Look.kinds fun kinds => (kinds 0).isMarker).holds = fun s => (s.kindAt 0).isMarker := rfl

@[simp] theorem holds_fieldAt : (Look.kinds Grammar.fieldAt).holds = Grammar.atField := rfl

@[simp] theorem holds_enumItemAt : (Look.kinds Grammar.enumItemAt).holds = Grammar.atEnumItem := rfl

@[simp] theorem holds_memberAt : (Look.kinds Grammar.memberAt).holds = Grammar.atMember := rfl

@[simp] theorem holds_notAtEnd : Look.notAtEnd.holds = fun s => !s.atEnd := rfl

@[simp] theorem parser_pure (value : α) : (pure value : Script α).parser = pure value := rfl

@[simp] theorem parser_bind (first : Script α) (next : α → Script β) :
    (first >>= next).parser = first.parser >>= fun value => (next value).parser := rfl

@[simp] theorem parser_map (f : α → β) (script : Script α) :
    (f <$> script).parser = f <$> script.parser := rfl

@[simp] theorem parser_within (rule : Rule) (body : Script α) :
    (Script.within rule body).parser = Parser.within rule body.parser := rfl

@[simp] theorem parser_refuse (literal : Token) :
    (Script.refuse literal : Script α).parser = Parser.fail (.integerOutOfRange literal) := rfl

@[simp] theorem parser_take (expected : Expectation) (choose : Token → Option α) :
    (Script.take expected choose).parser = Parser.take expected choose := rfl

@[simp] theorem parser_branch (look : Look) (yes no : Script α) :
    (Script.branch look yes no).parser = Parser.branch look.holds yes.parser no.parser := rfl

@[simp] theorem parser_repeatWhile (look : Look) (item : Script α) :
    (Script.repeatWhile look item).parser = Parser.repeatWhile look.holds item.parser := rfl

@[simp] theorem parser_expect (kind : TokenKind) : (expect kind).parser = Parser.expect kind := rfl

@[simp] theorem parser_accept (kind : TokenKind) : (accept kind).parser = Parser.accept kind := rfl

@[simp] theorem parser_start : Script.start.parser = Parser.start := rfl

@[simp] theorem parser_spanFrom (first : Span) :
    (Script.spanFrom first).parser = Parser.spanFrom first := rfl

@[simp] theorem parser_bracketed (item : Script (String × Attribute)) :
    (bracketed item).parser = Grammar.bracketed item.parser := rfl

@[simp] theorem parser_readAttribute : readAttribute.parser = Grammar.readAttribute := rfl

@[simp] theorem parser_readAttributes : readAttributes.parser = Grammar.readAttributes := rfl

@[simp] theorem parser_optionalAttributes :
    optionalAttributes.parser = Grammar.optionalAttributes := rfl

@[simp] theorem parser_readFieldAttr : readFieldAttr.parser = Grammar.readFieldAttr := rfl

@[simp] theorem parser_readFieldAttrs : readFieldAttrs.parser = Grammar.readFieldAttrs := rfl

@[simp] theorem parser_readTypeRef : readTypeRef.parser = Grammar.readTypeRef := rfl

@[simp] theorem parser_readField : readField.parser = Grammar.readField := rfl

@[simp] theorem parser_readFields : readFields.parser = Grammar.readFields := rfl

@[simp] theorem parser_readInteger (literal : Token) :
    (readInteger literal).parser = Grammar.readInteger literal := by
  rw [readInteger, Grammar.readInteger, Decimal.read64?_eq]
  cases Decimal.signed64? literal.text.toList <;> rfl

@[simp] theorem parser_readEnumItem : readEnumItem.parser = Grammar.readEnumItem := by
  simp [readEnumItem, Grammar.readEnumItem]

@[simp] theorem parser_readEnumItems : readEnumItems.parser = Grammar.readEnumItems := by
  simp [readEnumItems, Grammar.readEnumItems]

@[simp] theorem parser_readBody (marker : Marker) :
    (readBody marker).parser = Grammar.readBody marker := by
  cases marker <;> simp [readBody, Grammar.readBody]

@[simp] theorem parser_readDeclaration : readDeclaration.parser = Grammar.readDeclaration := by
  simp [readDeclaration, Grammar.readDeclaration]

@[simp] theorem parser_readEndpoint : readEndpoint.parser = Grammar.readEndpoint := rfl

@[simp] theorem parser_readMember : readMember.parser = Grammar.readMember := by
  simp [readMember, Grammar.readMember]

@[simp] theorem parser_readApplication : readApplication.parser = Grammar.readApplication := by
  simp [readApplication, Grammar.readApplication]

/-- The parsers of the grammar take the steps of their scripts. -/
theorem reader?_eq (rule : Rule) : Grammar.reader? rule = (ofRule? rule).map parser := by
  cases rule <;> simp [Grammar.reader?, ofRule?]

end Parsers

end Script

/-! ## Going past tokens -/

namespace Parser

variable {α : Type}

/-- The parser does not go back when it yields a value. -/
def Onwards (p : Parser α) : Prop :=
  ∀ {rule : Rule} {s rest : Stream} {value : α}, p rule s = .ok value rest →
    rest.ahead.length ≤ s.ahead.length

/-- The parser goes past a token when it yields a value. -/
def Consumes (p : Parser α) : Prop :=
  ∀ {rule : Rule} {s rest : Stream} {value : α}, p rule s = .ok value rest →
    rest.ahead.length < s.ahead.length

theorem Onwards.repeatWhile {p : Parser α} (h : p.Onwards) (more : Stream → Bool) :
    (repeatWhile more p).Onwards := by
  intro rule s rest values hok
  induction hlength : s.ahead.length using Nat.strongRecOn generalizing s values with
  | ind length ih =>
    rw [repeatWhile_eq] at hok
    split at hok
    · split at hok
      · cases hok
      · next value middle hitem =>
        split at hok
        · next hlt =>
          split at hok
          · next others last hothers =>
            obtain ⟨-, rfl⟩ := Outcome.ok.inj hok
            have hle := ih middle.ahead.length (hlength ▸ hlt) hothers rfl
            omega
          · cases hok
        · obtain ⟨-, rfl⟩ := Outcome.ok.inj hok
          exact hlength ▸ h hitem
    · obtain ⟨-, rfl⟩ := Outcome.ok.inj hok
      omega

/-- If items go past a token, a repetition goes on behind each of them: the guard against items that
do not is never met. -/
theorem Consumes.collect_eq {item : Parser α} (h : item.Consumes) (more : Stream → Bool)
    (rule : Rule) (s : Stream) :
    collect more item rule s =
      if more s then
        match item rule s with
        | .fail failure rest => ⟨[], some failure, rest⟩
        | .ok value rest =>
          let others := collect more item rule rest
          ⟨value :: others.items, others.failure, others.rest⟩
      else ⟨[], none, s⟩ := by
  rw [collect]
  cases hitem : item rule s with
  | fail failure rest => rfl
  | ok value rest => simp only [h hitem, if_true]

end Parser

namespace Script

variable {α : Type}

/-- One of the steps takes a token, whenever the script yields a value. -/
def Consumes {α : Type} : Script α → Prop
  | .yield _ | .start | .spanFrom _ | .repeatWhile _ _ => False
  | .refuse _ | .take _ _ => True
  | .andThen first next => first.Consumes ∨ ∀ value, (next value).Consumes
  | .within _ body => body.Consumes
  | .branch _ yes no => yes.Consumes ∧ no.Consumes

theorem parser_onwards (script : Script α) : script.parser.Onwards := by
  intro rule s rest value hok
  induction script generalizing rule s rest with
  | yield | start | spanFrom =>
    obtain ⟨-, rfl⟩ := Outcome.ok.inj hok
    exact Nat.le_refl _
  | refuse => cases hok
  | within rule body ih => exact ih hok
  | take expected choose =>
    obtain ⟨t, others, hahead, -, rfl⟩ := Parser.take_ok hok
    rw [hahead]
    exact Nat.le_succ _
  | andThen first next ihfirst ihnext =>
    obtain ⟨x, middle, hfirst, hnext⟩ := Parser.bind_ok hok
    exact (ihnext x hnext).trans (ihfirst hfirst)
  | branch look yes no ihyes ihno =>
    simp only [parser_branch, Parser.branch] at hok
    split at hok
    · exact ihyes hok
    · exact ihno hok
  | repeatWhile look item ih => exact Parser.Onwards.repeatWhile ih look.holds hok

/-- A step that takes a token goes past it, and no other step goes back. -/
theorem Consumes.parser {script : Script α} (h : script.Consumes) : script.parser.Consumes := by
  intro rule s rest value hok
  induction script generalizing rule s rest with
  | yield | start | spanFrom | repeatWhile => exact h.elim
  | refuse => cases hok
  | within rule body ih => exact ih h hok
  | take expected choose =>
    obtain ⟨t, others, hahead, -, rfl⟩ := Parser.take_ok hok
    rw [hahead]
    exact Nat.lt_succ_self _
  | andThen first next ihfirst ihnext =>
    obtain ⟨x, middle, hfirst, hnext⟩ := Parser.bind_ok hok
    rcases h with h | h
    · exact Nat.lt_of_le_of_lt (parser_onwards _ hnext) (ihfirst h hfirst)
    · exact Nat.lt_of_lt_of_le (ihnext x (h x) hnext) (parser_onwards _ hfirst)
  | branch look yes no ihyes ihno =>
    simp only [parser_branch, Parser.branch] at hok
    split at hok
    · exact ihyes h.1 hok
    · exact ihno h.2 hok

theorem readField_consumes : readField.Consumes := .inr fun _ => .inl trivial

theorem readEnumItem_consumes : readEnumItem.Consumes := .inl trivial

theorem readMember_consumes : readMember.Consumes :=
  ⟨.inl (.inr fun _ => .inl trivial), .inl (.inr fun _ => .inl trivial), trivial⟩

theorem readApplication_consumes : readApplication.Consumes := .inr fun _ => .inl trivial

/-- An item of a list comes with the comma in front of it. -/
theorem listItem_consumes (item : Script (String × Attribute)) :
    (expect (.punctuation .comma) >>= fun _ => item).Consumes := .inl trivial

end Script

/-- The items that the grammar repeats go past a token each. -/
structure Grammar.ItemsConsume : Prop where
  /-- Fields. -/
  field : readField.Consumes
  /-- Items of enumerations. -/
  enumItem : readEnumItem.Consumes
  /-- Members of applications. -/
  member : readMember.Consumes
  /-- Applications. -/
  application : readApplication.Consumes
  /-- Attributes behind the first one of a list. -/
  attributes : (Parser.expect (.punctuation .comma) >>= fun _ => readAttribute).Consumes
  /-- Flags behind the first one of a list. -/
  fieldAttrs : (Parser.expect (.punctuation .comma) >>= fun _ => readFieldAttr).Consumes

/-- So none of the repetitions of the grammar ends at an item that it has read. -/
theorem Grammar.items_consume : ItemsConsume where
  field := Script.readField_consumes.parser
  enumItem := Script.parser_readEnumItem ▸ Script.readEnumItem_consumes.parser
  member := Script.parser_readMember ▸ Script.readMember_consumes.parser
  application := Script.parser_readApplication ▸ Script.readApplication_consumes.parser
  attributes := (Script.listItem_consumes Script.readAttribute).parser
  fieldAttrs := (Script.listItem_consumes Script.readFieldAttr).parser

end SyslModel
