import SyslModel.Command.Report
/-!
# The program

Reads the files that a command names, and puts its answer on the standard output and its complaints
on the standard error.
-/

namespace SyslModel

/-- What became of reading a file of the system. -/
def readFile (name : String) : IO (Except ReadError String) := do
  try
    let bytes ← IO.FS.readBinFile name
    pure (decodeBytes bytes)
  catch
    | .noFileOrDirectory .. => pure (.error .notFound)
    | .inappropriateType _ 21 _ => pure (.error .isDirectory)
    | .inappropriateType .. => pure (.error .notDirectory)
    | .invalidArgument _ code details =>
      pure (.error (if code = 36 ∨ code = -36 then .nameTooLong else .other details))
    | e => pure (.error (.other (toString e)))

/-- The files that a command reads. -/
def Command.files : Command → List String
  | .check files _ => files
  | .parse file _ _ => [file]
  | .format file => [file]
  | .help => []

/-- Puts a part of an answer where it belongs. -/
def Note.put : Note → IO Unit
  | .result text => IO.print text
  | .complaint line => IO.eprintln line
  | .defect d => IO.eprintln ("Error: " ++ d.title ++ "\n  " ++ d.display)

end SyslModel

/-- Answers a command line. -/
def main (words : List String) : IO UInt32 := do
  match SyslModel.Command.ofWords? words with
  | none =>
    IO.eprint SyslModel.Command.usage
    pure (UInt32.ofNat SyslModel.usageStatus)
  | some command =>
    let contents ← command.files.mapM fun name => do pure (name, ← SyslModel.readFile name)
    let report := command.run fun name => (contents.lookup name).getD (.error .notFound)
    report.notes.forM SyslModel.Note.put
    pure (UInt32.ofNat report.status)
