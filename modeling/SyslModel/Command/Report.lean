import SyslModel.Command.Arguments
import SyslModel.Json
import SyslModel.Parsed
import SyslModel.Tree.ToJson
/-!
# Commands over a folder

What the commands answer, given the files that they can read.
-/

namespace SyslModel

/-!
## Folders of files

A folder holds files under paths.  A path is walked step by step: a step may only be taken from a
folder, and a path that ends at a file gives its text, which has to be UTF-8.  A path that begins
with a slash is walked from the root of the system; of the system only little is known.
-/

/-- Why a file cannot be read. -/
inductive ReadError where
  /-- There is nothing under the name. -/
  | notFound
  /-- A step of the path leads on from a file. -/
  | notDirectory
  /-- The name is that of a folder. -/
  | isDirectory
  /-- The path or one of its steps is too long. -/
  | nameTooLong
  /-- The bytes of the file are not UTF-8. -/
  | notText
  /-- Anything else. -/
  | other (reason : String)
  deriving DecidableEq, Inhabited

namespace ReadError

/-- The words that report the error. -/
def message : ReadError → String
  | .notFound => "No such file or directory (os error 2)"
  | .notDirectory => "Not a directory (os error 20)"
  | .isDirectory => "Is a directory (os error 21)"
  | .nameTooLong => "File name too long (os error 36)"
  | .notText => "stream did not contain valid UTF-8"
  | .other reason => reason

end ReadError

/-- The text that the bytes of a file encode. -/
def decodeBytes (bytes : ByteArray) : Except ReadError String :=
  match String.fromUTF8? bytes with
  | some text => .ok text
  | none => .error .notText

/-- Files under paths of one or more names. -/
structure Folder where
  /-- The paths with the bytes of their files. -/
  files : List (List String × ByteArray)
  /-- The paths of folders, which need not hold a file. -/
  folders : List (List String)
  /-- Is there no folder around this one? -/
  isRoot : Bool

namespace Folder

/-- The number of bytes that a step of a path can have. -/
def stepLimit : Nat := 255

/-- The number of bytes that a path can have. -/
def pathLimit : Nat := 4095

/-- The steps of a path. -/
def steps (path : String) : List String := (path.toList.splitOn '/').map String.ofList

/-- Does the step stay where it is? -/
def isStill (step : String) : Bool := step == "" || step == "."

/-- The folder of files under written paths; of two files under one path the later one stays. -/
def ofFiles (files : List (String × ByteArray)) : Folder where
  files := (files.map fun file => ((steps file.1).filter fun step => !isStill step, file.2)).reverse
  folders := []
  isRoot := false

/-- The root of the system, as far as it is the same everywhere: the null device, which is empty,
and a folder for temporary files. -/
def system : Folder := ⟨[(["dev", "null"], .empty)], [["tmp"]], true⟩

/-- The file under a path. -/
def file? (folder : Folder) (path : List String) : Option ByteArray := folder.files.lookup path

/-- Is the path that of the folder itself or of one inside it? -/
def hasFolder (folder : Folder) (path : List String) : Bool :=
  path.isEmpty || folder.folders.contains path ||
    folder.files.any fun file => path.isPrefixOf file.1 && path != file.1

/-- Why a step finds nothing. -/
def missing (step : String) : ReadError :=
  if stepLimit < step.utf8ByteSize then .nameTooLong else .notFound

/-- What is around the folder: only the folders that hold it are known. -/
def outside : List String → Except ReadError ByteArray
  | [] => .error .isDirectory
  | step :: others => if isStill step || step == ".." then outside others else .error (missing step)

/-- The bytes at the end of a walk from some place. -/
def walk (folder : Folder) (here : List String) : List String → Except ReadError ByteArray
  | [] =>
    match folder.file? here with
    | some bytes => .ok bytes
    | none => .error .isDirectory
  | step :: others =>
    if (folder.file? here).isSome then .error .notDirectory
    else if isStill step then folder.walk here others
    else if step = ".." then
      if here.isEmpty ∧ !folder.isRoot then outside others else folder.walk here.dropLast others
    else
      let next := here ++ [step]
      if (folder.file? next).isSome || folder.hasFolder next then folder.walk next others
      else .error (missing step)

/-- The text of the file under a written path. -/
def read (folder : Folder) (path : String) : Except ReadError String :=
  if path.isEmpty then .error .notFound
  else if pathLimit < path.utf8ByteSize then .error .nameTooLong
  else
    match steps path with
    | "" :: others => system.walk [] others >>= decodeBytes
    | others => folder.walk [] others >>= decodeBytes

end Folder

/-!
## What the commands answer

A command reads files by name and answers with notes, some of them results and some complaints, and
with success or failure.  `check` goes through all its files, whatever it finds; the other commands
have one.
-/

/-- A part of an answer. -/
inductive Note where
  /-- A text that was asked for. -/
  | result (text : String)
  /-- A line about something that is wrong. -/
  | complaint (line : String)
  /-- A defect of a file, to be shown with its place in the source. -/
  | defect (diagnostic : Diagnostic)
  deriving DecidableEq, Inhabited

/-- The answer to a command. -/
structure Report where
  /-- Was all as it should be? -/
  ok : Bool
  /-- The parts of the answer, in order. -/
  notes : List Note
  deriving DecidableEq, Inhabited

namespace Diagnostic

/-- The title under which a defect is shown. -/
def title (d : Diagnostic) : String :=
  match d.rule with
  | some rule => d.stage.name ++ " in " ++ rule.name
  | none => d.stage.name

end Diagnostic

namespace Report

/-- One report after another: all is well if both are. -/
def append (first second : Report) : Report := ⟨first.ok && second.ok, first.notes ++ second.notes⟩

/-- The texts that were asked for. -/
def output (report : Report) : String :=
  String.join (report.notes.filterMap fun
    | .result text => some text
    | _ => none)

/-- The lines about what is wrong. -/
def complaints (report : Report) : List String :=
  report.notes.filterMap fun
    | .complaint line => some line
    | _ => none

/-- The titles of the defects. -/
def titles (report : Report) : List String :=
  report.notes.filterMap fun
    | .defect d => some d.title
    | _ => none

/-- The status to exit with. -/
def status (report : Report) : Nat := if report.ok then 0 else 1

end Report

/-- The status to exit with when a command line cannot be understood. -/
def usageStatus : Nat := 2

namespace Command

/-- How files are read. -/
abbrev Reader := String → Except ReadError String

/-- The report that a file cannot be read. -/
def unreadable (file : String) (e : ReadError) : Report :=
  ⟨false, [.complaint ("ERROR: cannot read " ++ file ++ ": " ++ e.message)]⟩

/-- The report on one file that is to follow a rule. -/
def checkFile (read : Reader) (rule : Rule) (file : String) : Report :=
  match read file with
  | .error e => unreadable file e
  | .ok source =>
    let parsed := parseRule source rule
    if parsed.isOk then ⟨true, [.result (file ++ " is a valid Sysl model!\n")]⟩
    else
      ⟨false, .complaint (file ++ " is not a valid Sysl model:")
        :: parsed.diagnostics.map (fun d => .complaint (" - " ++ d.display))
        ++ parsed.diagnostics.map .defect⟩

/-- The report on files that are to follow a rule. -/
def checkFiles (read : Reader) (files : List String) (rule : Rule) : Report :=
  if files.isEmpty then ⟨false, [.complaint "ERROR: Must provide file"]⟩
  else files.foldr (fun file report => (checkFile read rule file).append report) ⟨true, []⟩

/-- The report that shows what a rule makes of a file, or the defects of the file.  What there is no
way to write is a failure without a word. -/
def display (read : Reader) (rule : Rule) (file : String) (write : Fragment → Option String) :
    Report :=
  match read file with
  | .error e => unreadable file e
  | .ok source =>
    match (parseRule source rule).result with
    | .ok fragment =>
      match write fragment with
      | some text => ⟨true, [.result text]⟩
      | none => ⟨false, []⟩
    | .error diagnostics => ⟨false, diagnostics.map .defect⟩

/-- The JSON of a fragment, as a line of its own or as many. -/
def jsonLines (pretty : Bool) (fragment : Fragment) : String :=
  (if pretty then fragment.toJson.pretty else fragment.toJson.compact) ++ "\n"

/-- The canonical form of a fragment that is a model. -/
def modelText (fragment : Fragment) : Option String := fragment.model?.map (Model.canonical 0)

/-- How to use the program. -/
def usage : String :=
  "Usage:\n  check [FILES]... [-r RULE]\n  parse FILE [-r RULE] [-p]\n  fmt FILE\n"

/-- The report that answers a command. -/
def run (read : Reader) : Command → Report
  | .check files rule => checkFiles read files rule
  | .parse file rule pretty => display read rule file (some ∘ jsonLines pretty)
  | .format file => display read .standard file modelText
  | .help => ⟨true, [.result usage]⟩

end Command

end SyslModel
