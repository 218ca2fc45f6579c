import SyslModel.Grammar.Fragment
/-!
# Command lines

A command line is a command, its options and its files.  Options may stand before, between and
behind the files; two dashes end them.  A rule is given by `-r NAME`, `-rNAME`, `-r=NAME`,
`--rule NAME` or `--rule=NAME`; short options may be written behind one dash.  Nothing may be given
twice but files, and of files no more than the command takes.

Words are read in turn, and the first one that cannot be understood spoils the line.  Help ends the
reading, so words behind it are not looked at.
-/

namespace SyslModel

/-- What is asked for. -/
inductive Command where
  /-- Tell of each file whether it follows a rule. -/
  | check (files : List String) (rule : Rule)
  /-- Show the tree of a file as JSON. -/
  | parse (file : String) (rule : Rule) (pretty : Bool)
  /-- Show a file in its canonical form. -/
  | format (file : String)
  /-- Show how to use the program. -/
  | help
  deriving DecidableEq, Inhabited

namespace Command

/-- What can be given to a command. -/
structure Known where
  /-- How many files can be given; any number, if there is no limit. -/
  fileLimit : Option Nat
  /-- Can a rule be given? -/
  rule : Bool
  /-- Can the pretty layout be asked for? -/
  pretty : Bool

namespace Known

/-- What can be given to `check`. -/
def check : Known := ⟨none, true, false⟩

/-- What can be given to `parse`. -/
def parse : Known := ⟨some 1, true, true⟩

/-- What can be given to `fmt`. -/
def format : Known := ⟨some 1, false, false⟩

/-- What can be given without a command: nothing but the wish for help. -/
def noCommand : Known := ⟨some 0, false, false⟩

end Known

/-- What the words behind a command have given so far. -/
structure Given where
  /-- The files. -/
  files : List String
  /-- The rule. -/
  rule : Option Rule
  /-- Is the pretty layout asked for? -/
  pretty : Bool
  /-- Is help asked for? -/
  help : Bool

namespace Given

/-- The start: nothing is given. -/
def nothing : Given := ⟨[], none, false, false⟩

/-- Can one more file be given? -/
def takesFile (known : Known) (given : Given) : Bool :=
  match known.fileLimit with
  | some limit => given.files.length < limit
  | none => true

/-- Adds a file, which has to have a name, where the command takes one more. -/
def addFile (known : Known) (given : Given) (name : String) : Option Given :=
  if given.takesFile known ∧ !name.isEmpty then
    some { given with files := given.files ++ [name] }
  else none

/-- Adds files. -/
def addFiles (known : Known) (given : Given) (names : List String) : Option Given :=
  names.foldlM (addFile known) given

/-- Gives the rule by its name, where the command knows rules and none is given yet. -/
def giveRule (known : Known) (given : Given) (name : String) : Option Given :=
  if known.rule ∧ given.rule.isNone then
    (Rule.ofName? name).map fun rule => { given with rule := some rule }
  else none

/-- Asks for the pretty layout, where the command knows it and it is not asked for yet. -/
def givePretty (known : Known) (given : Given) : Option Given :=
  if known.pretty ∧ !given.pretty then some { given with pretty := true } else none

end Given

/-- What the short options behind one dash give, and whether the last one waits for its value. -/
def readShort (known : Known) (given : Given) : List Char → Option (Given × Bool)
  | [] => some (given, false)
  | 'h' :: _ => some ({ given with help := true }, false)
  | 'p' :: others => (given.givePretty known).bind fun given => readShort known given others
  | 'r' :: [] => some (given, true)
  | 'r' :: '=' :: name => (given.giveRule known (String.ofList name)).map (·, false)
  | 'r' :: name => (given.giveRule known (String.ofList name)).map (·, false)
  | _ => none

/-- What a long option gives, and whether it waits for its value. -/
def readLong (known : Known) (given : Given) (option : List Char) : Option (Given × Bool) :=
  match option.takeWhile (· ≠ '='), option.dropWhile (· ≠ '=') with
  | ['h', 'e', 'l', 'p'], [] => some ({ given with help := true }, false)
  | ['p', 'r', 'e', 't', 't', 'y'], [] => (given.givePretty known).map (·, false)
  | ['r', 'u', 'l', 'e'], [] => some (given, true)
  | ['r', 'u', 'l', 'e'], _ :: name => (given.giveRule known (String.ofList name)).map (·, false)
  | _, _ => none

/-- What the words behind a command give; `waiting` tells that the next word names a rule. -/
def readWords (known : Known) (given : Given) (waiting : Bool) : List String → Option Given
  | [] => if waiting then none else some given
  | word :: words =>
    if waiting then (given.giveRule known word).bind fun given => readWords known given false words
    else
      match word.toList with
      | ['-', '-'] => given.addFiles known words
      | '-' :: '-' :: option =>
        (readLong known given option).bind fun r =>
          if r.1.help then some r.1 else readWords known r.1 r.2 words
      | '-' :: c :: options =>
        (readShort known given (c :: options)).bind fun r =>
          if r.1.help then some r.1 else readWords known r.1 r.2 words
      | _ => (given.addFile known word).bind fun given => readWords known given false words

/-- What the words behind a command give. -/
def Given.ofWords (known : Known) (words : List String) : Option Given :=
  readWords known .nothing false words

/-- The names of the commands. -/
def names : List String := ["check", "parse", "fmt", "help"]

/-- The command that a line of words gives; none if the line cannot be understood. -/
def ofWords? : List String → Option Command
  | "check" :: words => do
    let given ← Given.ofWords .check words
    if given.help then pure .help
    else pure (.check given.files (given.rule.getD .standard))
  | "parse" :: words => do
    let given ← Given.ofWords .parse words
    match given.help, given.files with
    | true, _ => pure .help
    | false, [file] => pure (.parse file (given.rule.getD .standard) given.pretty)
    | false, _ => none
  | "fmt" :: words => do
    let given ← Given.ofWords .format words
    match given.help, given.files with
    | true, _ => pure .help
    | false, [file] => pure (.format file)
    | false, _ => none
  | ["help"] => some .help
  | ["help", name] => if names.contains name then some .help else none
  | "help" :: _ => none
  | words => do
    let given ← Given.ofWords .noCommand words
    if given.help then pure .help else none

end Command
end SyslModel
