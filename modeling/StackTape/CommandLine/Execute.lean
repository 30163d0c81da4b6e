import StackTape.Assembly.Basic
import StackTape.CommandLine.Arguments
import StackTape.CommandLine.Report
import StackTape.Machine.Binary

/-!
# Carrying out an invocation

The source is read, assembled and compiled before any file is written. Then the binary form of the
machine is written, and after it the listing, if one is asked for.
-/

namespace StackTape

namespace Invocation

/-- Where the binary form of the machine goes. -/
def outputPath (i : Invocation) : String :=
  i.output.getD (pathWithExtension i.input "tm")

/-- The settings of the compiler. -/
def options (i : Invocation) : Options :=
  match i.maxIndex with
  | none => {}
  | some n => { maxIndex := n }

/-- The machine of a source text, with the events up to there. -/
def machineOf (i : Invocation) (source : String) : List Event × Except Failure Machine :=
  match Assembly.read source with
  | .error e => ([], .error (.assembly e))
  | .ok a =>
    match a.program with
    | .error e => ([], .error (.assembly e))
    | .ok p =>
      let result := compile i.options p
      let events := .assembled p.length a.labels.length :: .parsed p.length i.input ::
        compileEvents p result
      match result with
      | .error e => (events, .error (.compile e))
      | .ok c => (events, .ok c.machine)

variable {m : Type → Type} [Monad m] [FileStore m]

/-- The text of the source. -/
def readSource (i : Invocation) : m (Except Failure String) := do
  match ← FileStore.read i.input with
  | .error e => return .error (.read i.input e)
  | .ok bytes =>
    match String.fromUTF8? bytes with
    | none => return .error (.read i.input .notText)
    | some source => return .ok source

/-- Write the listing, if one is asked for. -/
def writeListing (i : Invocation) (machine : Machine) : m Report := do
  match i.listing with
  | none => return ⟨[], none⟩
  | some path =>
    match ← FileStore.write path machine.listing.toUTF8 with
    | .error e => return ⟨[], some (.create path e)⟩
    | .ok () => return ⟨[.wroteListing path], none⟩

/-- Write the binary form of a machine, and then its listing. -/
def writeOutputs (i : Invocation) (machine : Machine) : m Report := do
  match ← FileStore.write i.outputPath machine.encode with
  | .error e => return ⟨[], some (.create i.outputPath e)⟩
  | .ok () =>
    let states := machine.states.size
    let transitions := machine.transitionCount
    let rest ← i.writeListing machine
    return ⟨.encoded states transitions :: .wroteMachine states transitions i.outputPath ::
      rest.events, rest.failure⟩

/-- Carry out an invocation. -/
def execute (i : Invocation) : m Report := do
  match ← i.readSource with
  | .error failure => return ⟨[], some failure⟩
  | .ok source =>
    match i.machineOf source with
    | (events, .error failure) => return ⟨events, some failure⟩
    | (events, .ok machine) =>
      let rest ← i.writeOutputs machine
      return ⟨events ++ rest.events, rest.failure⟩

end Invocation

end StackTape
