import SyslModel.Grammar.Fragment
import SyslModel.Token.Lexed
/-!
# Parsers

What the readers of the grammar are made of: the errors that they fail with, the stream of tokens
that they read from, and the ways of putting them together.
-/

namespace SyslModel

/-!
## Syntax errors

A syntax error says which token stands in the way and why: the rule expected something else there,
an integer is too large, or the rule was complete and input was left.
-/

/-- What a rule waits for at a token. -/
inductive Expectation where
  /-- A token of one kind. -/
  | token (kind : TokenKind)
  /-- The name of an item of an enumeration. -/
  | itemName
  /-- The name of a field. -/
  | fieldName
  /-- The text of an attribute. -/
  | attributeText
  /-- The marker of a declaration. -/
  | marker
  /-- The name of a type. -/
  | typeName
  /-- The method of an endpoint. -/
  | method
  /-- A member of an application. -/
  | member
  deriving DecidableEq, Inhabited

namespace Expectation

/-- What the expectation is called in messages. -/
def describe : Expectation → String
  | .token kind => kind.describe
  | .itemName => "enum item name"
  | .fieldName => "field name"
  | .attributeText => "a quoted value or namespace"
  | .marker => "'!table', '!type' or '!enum'"
  | .typeName => "a type (int, decimal, string, date, Type or Type.field)"
  | .method => "an HTTP method (GET, POST, PUT, DELETE)"
  | .member => "a type or endpoint declaration"

/-- Does the rule branch here, each alternative yielding something else? -/
def isChoice : Expectation → Bool
  | .token _ | .itemName | .fieldName => false
  | .attributeText | .marker | .typeName | .method | .member => true

end Expectation

namespace Token

/-- What a token is called in messages: its text is told where the kind does not tell it. -/
def describe (t : Token) : String :=
  if t.kind = .endOfFile ∨ t.kind.fixedText?.isSome then t.kind.describe
  else t.kind.describe ++ " '" ++ t.text ++ "'"

end Token

/-- Why a list of tokens does not follow the grammar. -/
inductive SyntaxError where
  /-- Something else was expected in place of a token. -/
  | mismatch (expected : Expectation) (found : Token)
  /-- The integer does not fit into 64 bits. -/
  | integerOutOfRange (literal : Token)
  /-- The rule was complete in front of a token. -/
  | trailingInput (rule : Rule) (found : Token)
  deriving DecidableEq, Inhabited

namespace SyntaxError

/-- The token that stands in the way. -/
def token : SyntaxError → Token
  | .mismatch _ found => found
  | .integerOutOfRange literal => literal
  | .trailingInput _ found => found

/-- The words that report the error. -/
def message : SyntaxError → String
  | .mismatch expected found => "expected " ++ expected.describe ++ ", found " ++ found.describe
  | .integerOutOfRange literal => "integer '" ++ literal.text ++ "' is out of range"
  | .trailingInput rule found => "unexpected " ++ found.describe ++ " after complete " ++ rule.name

end SyntaxError

/-- A syntax error together with the innermost rule that was being read. -/
structure Failure where
  /-- What is wrong. -/
  error : SyntaxError
  /-- The innermost rule that had been entered and not been left. -/
  rule : Rule
  deriving DecidableEq, Inhabited

/-!
## Streams of tokens

A stream is a list of tokens with a place in it.  The tokens before the place have been consumed,
those ahead are still to be read, and behind them all stands a token for the end of the file, which
is never consumed.  So the place only moves forward, and never past the end.
-/

/-- Tokens with a place among them. -/
structure Stream where
  /-- The tokens before the place, the nearest one first. -/
  consumed : List Token
  /-- The tokens behind the place. -/
  ahead : List Token
  /-- The end of the file, behind all other tokens. -/
  final : Token
  deriving DecidableEq, Inhabited

namespace Stream

/-- The end of the file for tokens that come without one: it stands behind the last of them. -/
def missingEnd (tokens : List Token) : Token :=
  match tokens.getLast? with
  | some last => ⟨.endOfFile, "", Span.emptyAt last.span.stop, last.position⟩
  | none => Token.endOfFile Location.first

/-- The stream at the start of a list of tokens.  What stands behind the first end of the file is
never reached. -/
def ofTokens (tokens : List Token) : Stream where
  consumed := []
  ahead := tokens.takeWhile fun t => t.kind ≠ .endOfFile
  final := (tokens.find? fun t => t.kind = .endOfFile).getD (missingEnd tokens)

/-- Has everything been consumed? -/
def atEnd (s : Stream) : Bool := s.ahead.isEmpty

/-- The token at the place. -/
def current (s : Stream) : Token := s.ahead.headD s.final

/-- The kind of the token that stands so many tokens behind the place. -/
def kindAt (s : Stream) (distance : Nat) : TokenKind :=
  match s.ahead[distance]? with
  | some t => t.kind
  | none => .endOfFile

/-- Is the token at the place of this kind? -/
def isAt (s : Stream) (kind : TokenKind) : Bool := s.kindAt 0 == kind

/-- The span from the start of another one to the end of the last consumed token. -/
def spanFrom (s : Stream) (start : Span) : Span :=
  match s.consumed with
  | [] => start
  | last :: _ => ⟨start.start, max last.span.stop start.start⟩

end Stream

/-!
## Reading tokens

A parser reads a fragment from a stream.  It either yields a value or fails, and in both cases says
how far it came: what a failed parser has consumed stays consumed.  A parser knows the innermost
rule that it works for and puts it into its failures.

Tokens are consumed in one way only, by `Parser.take`.  A repetition goes on as long as a look at
the next tokens tells it to, and `collect` keeps the items that were complete before a failure.
-/

/-- How reading ends. -/
inductive Outcome (α : Type) where
  /-- A value was read. -/
  | ok (value : α) (rest : Stream)
  /-- A token stood in the way. -/
  | fail (failure : Failure) (rest : Stream)

/-- Reads a value from a stream, within a rule. -/
def Parser (α : Type) : Type := Rule → Stream → Outcome α

namespace Parser

variable {α β : Type}

/-- Yields a value without reading. -/
protected def pure (value : α) : Parser α := fun _ s => .ok value s

/-- Reads one value and goes on with another parser. -/
protected def bind (p : Parser α) (next : α → Parser β) : Parser β := fun rule s =>
  match p rule s with
  | .ok value rest => next value rule rest
  | .fail failure rest => .fail failure rest

instance : Monad Parser where
  pure := Parser.pure
  bind := Parser.bind

@[simp] theorem pure_apply (value : α) (rule : Rule) (s : Stream) :
    (pure value : Parser α) rule s = .ok value s := rfl

theorem bind_apply (p : Parser α) (next : α → Parser β) (rule : Rule) (s : Stream) :
    (p >>= next) rule s =
      match p rule s with
      | .ok value rest => next value rule rest
      | .fail failure rest => .fail failure rest := rfl

/-- Works for an inner rule. -/
def within (rule : Rule) (p : Parser α) : Parser α := fun _ s => p rule s

/-- Fails without consuming anything. -/
def fail (error : SyntaxError) : Parser α := fun rule s => .fail ⟨error, rule⟩ s

/-- Consumes the next token if `choose` makes something of it. -/
def take (expected : Expectation) (choose : Token → Option α) : Parser α := fun rule s =>
  match s.ahead with
  | [] => .fail ⟨.mismatch expected s.final, rule⟩ s
  | t :: others =>
    match choose t with
    | some value => .ok value { s with consumed := t :: s.consumed, ahead := others }
    | none => .fail ⟨.mismatch expected t, rule⟩ s

/-- Consumes a token of one kind. -/
def expect (kind : TokenKind) : Parser Token :=
  take (.token kind) fun t => if t.kind = kind then some t else none

/-- Looks at the stream without reading. -/
def look (f : Stream → α) : Parser α := fun _ s => .ok (f s) s

/-- Reads with one parser or another, by a look at the next tokens. -/
def branch (test : Stream → Bool) (yes no : Parser α) : Parser α := fun rule s =>
  if test s then yes rule s else no rule s

/-- Consumes the next token if it is of one kind, and tells whether it was. -/
def accept (kind : TokenKind) : Parser Bool :=
  branch (·.isAt kind) (do let _ ← expect kind; pure true) (pure false)

/-- The span at the place in the stream. -/
def start : Parser Span := look fun s => s.current.span

/-- The span from the start of a first token to the end of the last consumed one. -/
def spanFrom (first : Span) : Parser Span := look fun s => s.spanFrom first

/-! ### Repetition -/

/-- What a repetition has read. -/
structure Collected (α : Type) where
  /-- The items that are complete. -/
  items : List α
  /-- Why the last item is not complete, if it is not. -/
  failure : Option Failure
  /-- The stream after all of it. -/
  rest : Stream

/-- Reads items as long as `more` holds of the stream.  An item that consumes nothing is the last
one. -/
def collect (more : Stream → Bool) (item : Parser α) (rule : Rule) (s : Stream) : Collected α :=
  if more s then
    match item rule s with
    | .fail failure rest => ⟨[], some failure, rest⟩
    | .ok value rest =>
      if rest.ahead.length < s.ahead.length then
        let others := collect more item rule rest
        ⟨value :: others.items, others.failure, others.rest⟩
      else ⟨[value], none, rest⟩
  else ⟨[], none, s⟩
  termination_by s.ahead.length

/-- Reads items as long as `more` holds of the stream; fails if one of them does. -/
def repeatWhile (more : Stream → Bool) (item : Parser α) : Parser (List α) := fun rule s =>
  let collected := collect more item rule s
  match collected.failure with
  | none => .ok collected.items collected.rest
  | some failure => .fail failure collected.rest

end Parser

end SyslModel
