import StackTape.CommandLine.Execute

/-!
# The command line
-/

namespace StackTape

/-- The cause of a failed access to a file. -/
def FileError.ofError (e : IO.Error) : FileError :=
  match e with
  | .noFileOrDirectory .. => .notFound
  | .inappropriateType _ 20 _ => .notDirectory
  | .inappropriateType .. => .isDirectory
  | .invalidArgument _ 36 _ => .nameTooLong
  | e => .other (toString e)

/-- Report a failed access to a file as a value. -/
def catchFileError {α : Type} (action : IO α) : IO (Except FileError α) := do
  try
    return .ok (← action)
  catch e =>
    return .error (FileError.ofError e)

instance : FileStore IO where
  read path := catchFileError (IO.FS.readBinFile path)
  write path content := catchFileError (IO.FS.writeBinFile path content)

/-- A short description of the arguments. -/
def helpText : String :=
  "Compile stack-machine assembly into a Turing Machine\n\n" ++
  "Usage: tmc [OPTIONS] <INPUT>\n\n" ++
  "Options:\n" ++
  "  -v, --verbose...           Report more; repeat to report everything\n" ++
  "  -o, --output <OUTPUT>      Where to write the machine\n" ++
  "      --listing <LISTING>    Where to write a listing of the states\n" ++
  "      --max-index <N>        Largest index bound of indirect accesses\n" ++
  "  -h, --help                 Print this text\n" ++
  "  -V, --version              Print the version"

end StackTape

open StackTape

/-- Run the program on its arguments. -/
def main (args : List String) : IO UInt32 := do
  match Arguments.parse args with
  | .error e =>
    IO.eprintln s!"error: {e.message}"
    return 2
  | .ok .version =>
    IO.println versionText
    return 0
  | .ok .help =>
    IO.println helpText
    return 0
  | .ok (.run i) =>
    let report : Report ← i.execute
    IO.eprint (report.text i.verbosity)
    return report.exitCode
