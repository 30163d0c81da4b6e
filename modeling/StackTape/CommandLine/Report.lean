import StackTape.Assembly.Statement
import StackTape.CommandLine.Files
import StackTape.Event
import StackTape.Text.ControlSequence

/-!
# Reports

What an invocation has done, and the text and the exit code that the user gets to see of it.
-/

namespace StackTape

/-- Why an invocation has failed. -/
inductive Failure where
  | read (path : String) (e : FileError)
  | assembly (e : AssemblyError)
  | compile (e : CompileError)
  | create (path : String) (e : FileError)

/-- The text of a failure. -/
def Failure.message : Failure → String
  | read path e => s!"cannot read {path}: {e.message}"
  | assembly e => e.message
  | compile e => e.message
  | create path e => s!"cannot create {path}: {e.message}"

/-- What happened in order, and the failure that ended it. -/
structure Report where
  events : List Event
  failure : Option Failure

/-- Whether events of a level are shown. -/
def Level.isShown (verbosity : Nat) : Level → Bool
  | info => 1 ≤ verbosity
  | debug => 2 ≤ verbosity
  | trace => 3 ≤ verbosity

/-- The name of a level, with blanks up to the length of the longest one. -/
def Level.column (l : Level) : String :=
  l.name ++ String.ofList (List.replicate (5 - l.name.length) ' ')

/-- The record of an event: its level, where it comes from and its message, whose further lines
are indented. A record holds no control sequences, not even if the name of a file does. -/
def Event.record (e : Event) : List Char :=
  Text.plain (s!"[{e.level.column} {e.source}] ".toList ++ Text.hang 4 e.message.toList ++ ['\n'])

namespace Report

/-- The text that is shown to the user. -/
def text (r : Report) (verbosity : Nat) : String :=
  String.ofList ((r.events.filter fun e => e.level.isShown verbosity).flatMap Event.record) ++
    match r.failure with
    | none => ""
    | some failure => s!"error: {failure.message}\n"

/-- The lines that are shown to the user. -/
def lines (r : Report) (verbosity : Nat) : List String :=
  (Text.lines (r.text verbosity).toList).map String.ofList

/-- The exit code. -/
def exitCode (r : Report) : UInt32 :=
  if r.failure.isSome then 1 else 0

end Report

/-- The name and the version of the program. -/
def versionText : String := "tmc 0.1.0"

end StackTape
