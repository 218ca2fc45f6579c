import SyslModel.Grammar.Parser
import SyslModel.Grammar.Rules
/-!
# Parsing with diagnostics

A session calls the readers of the grammar and turns their errors into diagnostics.  Parsing a
source is one call in a new session over the tokens of the source (`parseRule`).
-/

namespace SyslModel

/-!
## Diagnostics

A diagnostic is the record of one defect of a source.  Reading fails exactly when there is one,
whether or not a tree came out of it.
-/

/-- What part of reading found a defect. -/
inductive Stage where
  /-- Cutting the source into tokens. -/
  | lexical
  /-- Following the rules of the grammar. -/
  | syntactic
  deriving DecidableEq, Inhabited

namespace Stage

/-- What a stage is called. -/
def name : Stage → String
  | .lexical => "LexicalError"
  | .syntactic => "SyntaxError"

end Stage

/-- The record of one defect. -/
structure Diagnostic where
  /-- What part of reading found the defect. -/
  stage : Stage
  /-- The innermost rule that failed; lexical defects have none. -/
  rule : Option Rule
  /-- The words that report the defect. -/
  message : String
  /-- The bytes that the defect takes up. -/
  span : Span
  /-- Where the defect starts. -/
  position : Position
  deriving DecidableEq, Inhabited

namespace Diagnostic

/-- The record of a lexical error. -/
def ofLexicalError (e : LexicalError) : Diagnostic :=
  ⟨.lexical, none, e.message, e.span, e.position⟩

/-- The record of a syntax error that belongs to a rule. -/
def ofSyntaxError (e : SyntaxError) (rule : Option Rule) : Diagnostic :=
  ⟨.syntactic, rule, e.message, e.token.span, e.token.position⟩

/-- One line: place, stage and message. -/
def display (d : Diagnostic) : String :=
  "[" ++ d.position.display ++ "] " ++ d.stage.name ++ ": " ++ d.message

/-- One line for each diagnostic. -/
def displayAll (diagnostics : List Diagnostic) : String :=
  "\n".intercalate (diagnostics.map display)

/-- Was one of the defects found at this stage? -/
def anyOf (stage : Stage) (diagnostics : List Diagnostic) : Bool :=
  diagnostics.any fun d => d.stage == stage

end Diagnostic

/-!
## Sessions

A session reads one list of tokens by any number of rules in turn, each from where the one before
came to, and records diagnostics.

A rule may be called on its own: its error then goes to the caller and nothing is recorded, but the
session remembers the rule that failed.  The next diagnostic names the earliest rule that failed
since the diagnostic before, unless it reports input behind a complete rule, which names that rule.
-/

/-- The state of reading a list of tokens. -/
structure Session where
  /-- The tokens and the place among them. -/
  stream : Stream
  /-- The diagnostics so far. -/
  diagnostics : List Diagnostic
  /-- The earliest rule that failed since the last diagnostic. -/
  failed : Option Rule
  deriving DecidableEq, Inhabited

namespace Session

/-- The session at the start of a list of tokens. -/
def ofTokens (tokens : List Token) : Session := ⟨Stream.ofTokens tokens, [], none⟩

/-- Goes on at a place in the stream. -/
def moveTo (session : Session) (stream : Stream) : Session := { session with stream }

/-- Remembers a rule that failed, unless an earlier one is remembered. -/
def remember (session : Session) (rule : Rule) : Session :=
  { session with failed := session.failed <|> some rule }

/-- Records an error under the remembered rule, and forgets the rule. -/
def record (session : Session) (error : SyntaxError) : Session :=
  { session with
    diagnostics := session.diagnostics ++ [Diagnostic.ofSyntaxError error session.failed]
    failed := none }

/-- Reads by one rule; the error goes to the caller. -/
def call (session : Session) (rule : Rule) (p : Parser Fragment) :
    Except SyntaxError Fragment × Session :=
  match p rule session.stream with
  | .ok value rest => (.ok value, session.moveTo rest)
  | .fail failure rest => (.error failure.error, (session.moveTo rest).remember failure.rule)

/-- Reads applications up to the end of the file.  The first error ends it and is recorded; the
applications before it are kept. -/
def readModel (session : Session) : Model × Session :=
  let first := session.stream.current.span
  let apps := Parser.collect (fun s => !s.atEnd) Grammar.readApplication .model session.stream
  let model : Model :=
    ⟨NameMap.ofList (apps.items.map fun app => (app.name, app)), apps.rest.spanFrom first⟩
  let session := session.moveTo apps.rest
  match apps.failure with
  | none => (model, session)
  | some failure => (model, (session.remember failure.rule).record failure.error)

/-- Reads by one rule up to the end of the file.  An error is recorded, as is input that is left. -/
def readWhole (session : Session) (rule : Rule) (p : Parser Fragment) :
    Option Fragment × Session :=
  match session.call rule p with
  | (.error error, session) => (none, session.record error)
  | (.ok value, session) =>
    if session.stream.atEnd then (some value, session)
    else
      let error := SyntaxError.trailingInput rule session.stream.current
      (none, { session with failed := some rule }.record error)

/-- Reads by a rule, wherever it ends; the error goes to the caller, but for the rule of whole
files. -/
def callRule (session : Session) (rule : Rule) : Except SyntaxError Fragment × Session :=
  match Grammar.reader? rule with
  | some p => session.call rule p
  | none =>
    let (model, session) := session.readModel
    (.ok (.model model), session)

/-- Reads the whole input by a rule. -/
def readRule (session : Session) (rule : Rule) : Option Fragment × Session :=
  match Grammar.reader? rule with
  | some p => session.readWhole rule p
  | none =>
    let (model, session) := session.readModel
    (some (.model model), session)

end Session

/-!
## Parsing a source

A source is parsed by a rule in two steps: it is cut into tokens, and the tokens are read by the
rule. The diagnostics of the first step stand before those of the second, and the value is kept
beside them.
-/

/-- What parsing a source gives. -/
structure Parsed (α : Type) where
  /-- The value, which may be incomplete; there is none if the rule failed. -/
  value : Option α
  /-- The defects of the source. -/
  diagnostics : List Diagnostic
  deriving DecidableEq, Inhabited

namespace Parsed

variable {α : Type}

/-- Was the source free of defects? -/
def isOk (parsed : Parsed α) : Bool := parsed.diagnostics.isEmpty

/-- The value of a source without defects, else the defects. -/
def result (parsed : Parsed α) : Except (List Diagnostic) α :=
  match parsed.value with
  | some value => if parsed.isOk then .ok value else .error parsed.diagnostics
  | none => .error parsed.diagnostics

end Parsed

/-- Parses a source by a rule. -/
def parseRule (source : String) (rule : Rule) : Parsed Fragment :=
  let lexed := tokenize source
  let (value, session) := (Session.ofTokens lexed.tokens).readRule rule
  ⟨value, lexed.errors.map Diagnostic.ofLexicalError ++ session.diagnostics⟩

/-- Parses a source that is a whole file. -/
def parseModel (source : String) : Parsed Model :=
  let parsed := parseRule source .model
  ⟨parsed.value.bind Fragment.model?, parsed.diagnostics⟩

end SyslModel
