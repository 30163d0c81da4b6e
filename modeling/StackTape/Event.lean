import StackTape.Compile.Basic

/-!
# Events

What the library reports while it works, as values: each event has a level, the part of the
library it comes from, and a text.
-/

namespace StackTape

/-- How much an event matters; the most important level comes first. -/
inductive Level where
  | info
  | debug
  | trace
  deriving DecidableEq

/-- The name of a level. -/
def Level.name : Level → String
  | info => "INFO"
  | debug => "DEBUG"
  | trace => "TRACE"

/-- A report on the work done. -/
inductive Event where
  /-- A text has been assembled. -/
  | assembled (instructions labels : Nat)
  /-- The instructions of an input file are known. -/
  | parsed (instructions : Nat) (path : String)
  /-- A program is about to be compiled. -/
  | compiling (instructions callSites : Nat)
  /-- An instruction is about to be compiled. -/
  | instruction (position : Nat) (i : Instruction)
  /-- A program has been compiled. -/
  | compiled (instructions states : Nat)
  /-- The statistics at the end of a compilation. -/
  | statistics (s : Stats)
  /-- A machine has been brought into its binary form. -/
  | encoded (states transitions : Nat)
  /-- The binary form has been written to a file. -/
  | wroteMachine (states transitions : Nat) (path : String)
  /-- A listing has been written to a file. -/
  | wroteListing (path : String)

namespace Event

/-- The level of an event. -/
def level : Event → Level
  | parsed .. | compiled .. | wroteMachine .. | wroteListing .. => .info
  | assembled .. | compiling .. | statistics .. | encoded .. => .debug
  | instruction .. => .trace

/-- The part of the program that reports an event. -/
def source : Event → String
  | assembled .. => "tmc::asm::parser"
  | compiling .. | instruction .. | compiled .. | statistics .. => "tmc::codegen"
  | encoded .. => "tmc::output::writer"
  | parsed .. | wroteMachine .. | wroteListing .. => "tmc"

/-- The text of an event. -/
def message : Event → String
  | assembled instructions labels => s!"Assembled {instructions} instructions, {labels} labels"
  | parsed instructions path => s!"Parsed {instructions} instructions from {path}"
  | compiling instructions callSites =>
    s!"Compiling {instructions} instructions ({callSites} call sites)"
  | instruction position i => s!"  [{position}] {i.text}"
  | compiled instructions states => s!"Compiled {instructions} instructions into {states} states"
  | statistics s => s.text
  | encoded states transitions => s!"Wrote {states} states with {transitions} transitions"
  | wroteMachine states transitions path =>
    s!"Wrote {states} states ({transitions} transitions) to {path}"
  | wroteListing path => s!"Wrote listing to {path}"

end Event

/-- The events of a compilation, given its result: the instructions before the first violation are
reported one by one. -/
def compileEvents (p : Program) (result : Except CompileError Compilation) : List Event :=
  match result with
  | .error (.callSites _) => []
  | .error (.instruction position _) => begun (p.take position)
  | .error (.fault _) => begun p
  | .ok c =>
    begun p ++ [.compiled p.length c.machine.states.size, .statistics c.stats]
where
  /-- The events up to the point where the given instructions have been looked at. -/
  begun (seen : Program) : List Event :=
    .compiling p.length p.callCount ::
      seen.zipIdx.map fun (i, position) => .instruction position i

end StackTape
