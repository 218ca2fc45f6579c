import SyslModel.Grammar.Rules
import SyslModel.Proofs.Grammar.Reads
/-!
# The grammar

The productions, what their derivations mean, and which tokens are the beginning of a sentence.
-/

namespace SyslModel

/-!
## The productions and what their derivations mean

`Production.ofRule` is the grammar: the right side of every rule, over kinds of tokens.  An integer
has to be one of the signed integers of 64 bits.

`Meaning.ofRule` is what a derivation stands for.  It goes by the form of the derivation alone:
repetitions are given to a map from left to right, so the last value of a name wins and its first
place stays; quoted texts are read, dotted references are split, and a construct has the span from
its first token to its last.
-/

namespace Production

/-! ### Right sides -/

/-- One token of a kind. -/
def kind (kind : TokenKind) : Phrase := .token fun t => t.kind = kind

/-- One token that is a punctuation mark. -/
def mark (p : Punctuation) : Phrase := kind (.punctuation p)

/-- `'[' (item (',' item)*)? ']'` -/
def bracketed (item : Phrase) : Phrase :=
  .seq (mark .openBracket) <|
    .seq (.option (.seq item (.many (.seq (mark .comma) item)))) (mark .closeBracket)

/-- `SmallIdentifier '=' (Quoted | QualifiedName)` -/
def attr : Phrase :=
  .seq (kind .smallIdentifier) <| .seq (mark .equals) (.either (kind .quoted) (kind .qualifiedName))

/-- `'[' (attribute (',' attribute)*)? ']'` -/
def attrs : Phrase := bracketed attr

/-- `'~'? SmallIdentifier` -/
def fieldAttr : Phrase := .seq (.option (mark .tilde)) (kind .smallIdentifier)

/-- `'[' (field_attr (',' field_attr)*)? ']'` -/
def fieldAttrs : Phrase := bracketed fieldAttr

/-- The primitive that a token is. -/
def primitive? (t : Token) : Option Primitive :=
  match t.kind with
  | .primitive p => some p
  | _ => none

/-- `'int' | 'decimal' | 'string' | 'date'` -/
def primitive : Phrase := .token fun t => (primitive? t).isSome

/-- `Primitive | ForeignKey | Identifier` -/
def typeRef : Phrase := .either primitive <| .either (kind .foreignKey) (kind .identifier)

/-- `(SmallIdentifier | Primitive) '<:' type_ref '?'? field_attrs?` -/
def field : Phrase :=
  .seq (.either (kind .smallIdentifier) primitive) <| .seq (mark .subset) <| .seq typeRef <|
    .seq (.option (mark .question)) (.option fieldAttrs)

/-- An integer token whose value is one of the signed integers of 64 bits. -/
def integer : Phrase :=
  .token fun t => t.kind = .integer ∧ (Decimal.signed64? t.text.toList).isSome

/-- `(Identifier | SmallIdentifier) ':' Integer` -/
def enumItem : Phrase :=
  .seq (.either (kind .identifier) (kind .smallIdentifier)) <| .seq (mark .colon) integer

/-- `Identifier attributes? ':' body` -/
def headed (body : Phrase) : Phrase :=
  .seq (kind .identifier) <| .seq (.option attrs) <| .seq (mark .colon) body

/-- What stands below the header of a declaration: `field*` or `enum_item*`. -/
def body : Marker → Phrase
  | .table => .many field
  | .type => .many field
  | .enumeration => .many enumItem

/-- `Marker Identifier attributes? ':' body`, for one marker -/
def declarationOf (m : Marker) : Phrase := .seq (kind (.marker m)) (headed (body m))

/-- `'!table' ... field* | '!type' ... field* | '!enum' ... enum_item*` -/
def declaration : Phrase :=
  .either (declarationOf .table) <| .either (declarationOf .type) (declarationOf .enumeration)

/-- `'GET' | 'POST' | 'PUT' | 'DELETE'` -/
def method : Phrase := .token fun t => (Grammar.method? t).isSome

/-- `Path Method attributes? ':'` -/
def endpoint : Phrase :=
  .seq (kind .path) <| .seq method <| .seq (.option attrs) (mark .colon)

/-- `declaration | endpoint` -/
def member : Phrase := .either declaration endpoint

/-- `Identifier attributes? ':' member*` -/
def application : Phrase := headed (.many member)

/-- `application*` -/
def model : Phrase := .many application

/-- The right side of a rule. -/
def ofRule : Rule → Phrase
  | .model => model
  | .application => application
  | .attributes => attrs
  | .attribute => attr
  | .declaration => declaration
  | .enumItem => enumItem
  | .field => field
  | .typeRef => typeRef
  | .fieldAttrs => fieldAttrs
  | .fieldAttr => fieldAttr
  | .endpoint => endpoint

end Production

namespace Meaning

/-! ### Attributes -/

/-- The items between brackets. -/
def items {item : Phrase} (d : Derivation (Production.bracketed item)) : List (Derivation item) :=
  match d.2.1 with
  | none => []
  | some (first, others) => first :: others.map Prod.snd

/-- A quoted text is read, a qualified name stands for itself. -/
def attributeText :
    Derivation (.either (Production.kind .quoted) (Production.kind .qualifiedName)) → String
  | .inl t => Quoted.read t.1.text
  | .inr t => t.1.text

/-- A text under its key. -/
def attr (d : Derivation Production.attr) : String × Attribute :=
  (d.1.1.text, .text (attributeText d.2.2))

/-- The texts under their keys. -/
def attrs (d : Derivation Production.attrs) : Attributes :=
  .ofList ((items d).map attr)

/-- The attributes, none where they are left out. -/
def optionalAttributes (d : Derivation (.option Production.attrs)) : Attributes :=
  Option.elim d .empty attrs

/-- A flag under its name, negated by a tilde. -/
def fieldAttr (d : Derivation Production.fieldAttr) : String × Attribute :=
  (d.2.1.text, .flag d.1.isSome)

/-- The flags under their names. -/
def fieldAttrs (d : Derivation Production.fieldAttrs) : Attributes :=
  .ofList ((items d).map fieldAttr)

/-! ### Types -/

/-- The primitive of a token that is one. -/
def primitive (t : Derivation Production.primitive) : Primitive :=
  (Production.primitive? t.1).get t.2

/-- What a type is named by. -/
def shape : Derivation Production.typeRef → Shape DataType
  | .inl t => .primitive (primitive t)
  | .inr (.inl t) => .foreignKey (.ofDotted t.1.text t.1.span)
  | .inr (.inr t) => .typeRef (.ofDotted t.1.text t.1.span)

/-- The token that names a type. -/
def typeToken : Derivation Production.typeRef → Token
  | .inl t => t.1
  | .inr (.inl t) => t.1
  | .inr (.inr t) => t.1

/-- A type by its name. -/
def typeRef (d : Derivation Production.typeRef) : DataType := .plain (shape d) (typeToken d).span

/-- The text of a token of one sort or another. -/
def eitherText {p q : Token → Prop} : Derivation (.either (.token p) (.token q)) → String
  | .inl t => t.1.text
  | .inr t => t.1.text

/-- A type under the name of its field. -/
def field (d : Derivation Production.field) : String × DataType :=
  (eitherText d.1,
    ⟨shape d.2.2.1, Option.isSome d.2.2.2.1, Option.elim d.2.2.2.2 .empty fieldAttrs,
      spanOf .origin d.tokens⟩)

/-- The types under their names. -/
def fields (ds : Derivation (.many Production.field)) : Fields := .ofList (List.map field ds)

/-- An integer under its name. -/
def enumItem (d : Derivation Production.enumItem) : String × Int :=
  (eitherText d.1, (Decimal.signed64? d.2.2.1.text.toList).get d.2.2.2.2)

/-- The integers under their names. -/
def enumItems (ds : Derivation (.many Production.enumItem)) : NameMap Int :=
  .ofList (List.map enumItem ds)

/-! ### Declarations, endpoints and applications -/

/-- The shape that a body gives. -/
def body : (m : Marker) → Derivation (Production.body m) → Shape DataType
  | .table, ds => .relation (.ofFields (fields ds))
  | .type, ds => .tuple (fields ds)
  | .enumeration, ds => .enumeration (enumItems ds)

/-- A declared type under its name, for one marker. -/
def declarationOf (m : Marker) (d : Derivation (Production.declarationOf m)) : String × DataType :=
  (d.2.1.1.text, ⟨body m d.2.2.2.2, false, optionalAttributes d.2.2.1, spanOf .origin d.tokens⟩)

/-- A declared type under its name. -/
def declaration : Derivation Production.declaration → String × DataType
  | .inl d => declarationOf .table d
  | .inr (.inl d) => declarationOf .type d
  | .inr (.inr d) => declarationOf .enumeration d

/-- The method of a token that is one. -/
def method (t : Derivation Production.method) : Method := (Grammar.method? t.1).get t.2

/-- An endpoint. -/
def endpoint (d : Derivation Production.endpoint) : Endpoint :=
  ⟨Grammar.pathName d.1.1.text, method d.2.1, optionalAttributes d.2.2.1, spanOf .origin d.tokens⟩

/-- A declared type or an endpoint under its name. -/
def member : Derivation Production.member → String × Member
  | .inl d => ((declaration d).1, .type (declaration d).2)
  | .inr d => ((endpoint d).name, .endpoint (endpoint d))

/-- An application. -/
def application (d : Derivation Production.application) : Application :=
  ⟨d.1.1.text, optionalAttributes d.2.1, .ofList (List.map member d.2.2.2), spanOf .origin d.tokens⟩

/-- The applications under their names. -/
def applications (ds : Derivation Production.model) : NameMap Application :=
  .ofList ((List.map application ds).map fun app => (app.name, app))

/-- A whole model; without applications it stands where the source ends. -/
def model (final : Token) (ds : Derivation Production.model) : Model :=
  ⟨applications ds, spanOf final.span ds.tokens⟩

/-- What a derivation of a rule stands for, in a source that ends with the token given. -/
def ofRule (final : Token) : (rule : Rule) → Derivation (Production.ofRule rule) → Fragment
  | .model, d => .model (model final d)
  | .application, d => .application (application d)
  | .attributes, d => .attributes (attrs d)
  | .attribute, d => .attribute (attr d).1 (attr d).2
  | .declaration, d => .declaration (declaration d).1 (declaration d).2
  | .enumItem, d => .enumItem (enumItem d).1 (enumItem d).2
  | .field, d => .field (field d).1 (field d).2
  | .typeRef, d => .typeRef (typeRef d)
  | .fieldAttrs, d => .fieldAttrs (fieldAttrs d)
  | .fieldAttr, d => .fieldAttr (fieldAttr d).1 (fieldAttr d).2
  | .endpoint, d => .endpoint (endpoint d)

end Meaning

/-!
## Beginnings of sentences

Tokens are viable for a phrase if they can be completed to what the phrase derives.  The completion
has to consist of tokens that stand in sources, so that it could be typed behind them.

A phrase for which no tokens at all are viable would derive nothing; all right sides of the grammar
derive something, and one short source has every token that this takes (`sample`).
-/

/-- The token stands in some source, in front of the end. -/
def Token.Occurs (t : Token) : Prop :=
  t.kind ≠ .endOfFile ∧ ∃ source, t ∈ (tokenize source).tokens

/-- The tokens begin what the phrase derives, and tokens of sources can complete them. -/
def Phrase.Viable (e : Phrase) (tokens : List Token) : Prop :=
  ∃ more, (∀ t ∈ more, t.Occurs) ∧ ∃ d : Derivation e, d.tokens = tokens ++ more

namespace Phrase.Viable

variable {a b e : Phrase} {tokens : List Token}

/-- What is derived needs no completion. -/
theorem whole (d : Derivation e) : e.Viable d.tokens :=
  ⟨[], List.forall_mem_nil _, d, (List.append_nil _).symm⟩

/-- The first phrase is begun, the second one is part of the completion. -/
theorem first (ha : a.Viable tokens) (hb : b.Viable []) : (Phrase.seq a b).Viable tokens := by
  obtain ⟨more, hmore, d, hd⟩ := ha
  obtain ⟨more', hmore', d', hd'⟩ := hb
  refine ⟨more ++ more', List.forall_mem_append.2 ⟨hmore, hmore'⟩, (d, d'), ?_⟩
  show d.tokens ++ d'.tokens = _
  rw [hd, hd', List.nil_append, List.append_assoc]

/-- The first phrase is derived, the second one is begun. -/
theorem second (d : Derivation a) (hb : b.Viable tokens) :
    (Phrase.seq a b).Viable (d.tokens ++ tokens) := by
  obtain ⟨more, hmore, d', hd'⟩ := hb
  refine ⟨more, hmore, (d, d'), ?_⟩
  show d.tokens ++ d'.tokens = _
  rw [hd', List.append_assoc]

theorem inl (h : a.Viable tokens) : (Phrase.either a b).Viable tokens := by
  obtain ⟨more, hmore, d, hd⟩ := h
  exact ⟨more, hmore, .inl d, hd⟩

theorem inr (h : b.Viable tokens) : (Phrase.either a b).Viable tokens := by
  obtain ⟨more, hmore, d, hd⟩ := h
  exact ⟨more, hmore, .inr d, hd⟩

theorem present (h : e.Viable tokens) : (Phrase.option e).Viable tokens := by
  obtain ⟨more, hmore, d, hd⟩ := h
  exact ⟨more, hmore, some d, hd⟩

theorem absent : (Phrase.option e).Viable [] := whole (e := .option e) none

/-- The first item is begun, and it is the last one. -/
theorem item (h : e.Viable tokens) : (Phrase.many e).Viable tokens := by
  obtain ⟨more, hmore, d, hd⟩ := h
  refine ⟨more, hmore, [d], ?_⟩
  rw [Derivation.tokens_cons, Derivation.tokens_nil, List.append_nil, hd]

/-- Behind a complete item others are begun. -/
theorem cons (d : Derivation e) (h : (Phrase.many e).Viable tokens) :
    (Phrase.many e).Viable (d.tokens ++ tokens) := by
  obtain ⟨more, hmore, ds, hds⟩ := h
  refine ⟨more, hmore, List.cons d ds, ?_⟩
  show d.tokens ++ ds.tokens = _
  rw [hds, List.append_assoc]

theorem none : (Phrase.many e).Viable [] := whole (e := .many e) []

/-- A single token that stands in a source. -/
theorem token {fits : Token → Prop} {t : Token} (ht : t.Occurs) (hfits : fits t) :
    (Phrase.token fits).Viable [] :=
  ⟨[t], List.forall_mem_singleton.2 ht, ⟨t, hfits⟩, rfl⟩

end Phrase.Viable

/-! ### The right sides of the grammar derive something -/

namespace Production

/-- A source with tokens of most kinds. -/
def sample : String := "A a / \"\" 0 GET int !table !type !enum <: : , = [ ] ? ~"

/-- The kinds of the tokens in it. -/
def sampleKinds : List TokenKind :=
  [.identifier, .smallIdentifier, .path, .quoted, .integer, .method .get, .primitive .int,
    .marker .table, .marker .type, .marker .enumeration] ++ Punctuation.all.map .punctuation

theorem kinds_of_sample :
    (tokenize sample).tokens.map Token.kind = sampleKinds ++ [.endOfFile] := by
  decide +kernel

/-- A token of each of these kinds stands in a source. -/
theorem exists_occurs {k : TokenKind} (h : k ∈ sampleKinds) :
    ∃ t : Token, t.Occurs ∧ t.kind = k := by
  have hmem : k ∈ (tokenize sample).tokens.map Token.kind := by
    rw [kinds_of_sample]
    exact List.mem_append_left _ h
  have hne : k ≠ .endOfFile := by
    rintro rfl
    exact absurd h (by decide)
  obtain ⟨t, ht, rfl⟩ := List.mem_map.1 hmem
  exact ⟨t, ⟨hne, sample, ht⟩, rfl⟩

theorem kind_viable {k : TokenKind} (h : k ∈ sampleKinds) : (kind k).Viable [] := by
  obtain ⟨t, ht, hk⟩ := exists_occurs h
  exact .token ht hk

theorem primitive_viable : primitive.Viable [] := by
  obtain ⟨t, ht, hk⟩ := exists_occurs (show .primitive .int ∈ sampleKinds by decide)
  exact .token ht (by rw [primitive?, hk]; rfl)

theorem method_viable : method.Viable [] := by
  obtain ⟨t, ht, hk⟩ := exists_occurs (show .method .get ∈ sampleKinds by decide)
  exact .token ht (by rw [Grammar.method?, hk]; rfl)

theorem integer_viable : integer.Viable [] := by
  obtain ⟨t, ht, hne, hn⟩ : ∃ t ∈ (tokenize sample).tokens,
      t.kind ≠ .endOfFile ∧ t.kind = .integer ∧ (Decimal.signed64? t.text.toList).isSome := by
    decide +kernel
  exact .token ⟨hne, sample, ht⟩ hn

theorem mark_viable (p : Punctuation) : (mark p).Viable [] :=
  kind_viable (by cases p <;> decide)

end Production

end SyslModel
