import StackTape.Assembly.Statement

/-!
# Assembly text

`assemble` reads a program from its text. The lines are read in order and collected in an
`Assembly`, in which a label stands for the number of statements before its line. References are
resolved when all lines have been read, so a label may be used before its definition.
`disassemble` writes a program in which every position is a label.
-/

namespace StackTape

/-- A statement with the number of its line. -/
structure PlacedStatement where
  line : Nat
  statement : Statement

/-- What has been read: the statements in order, and the labels with their positions. -/
structure Assembly where
  code : Array PlacedStatement
  labels : List (String × Nat)

namespace Assembly

/-- Nothing has been read. -/
def empty : Assembly := ⟨#[], []⟩

/-- Define a label at the current position. -/
def define (a : Assembly) (label : String) : Except AssemblyFault Assembly :=
  if (a.labels.lookup label).isSome then .error (.duplicateLabel label)
  else .ok { a with labels := (label, a.code.size) :: a.labels }

/-- Define the label of a line, if it has one. -/
def defineLabel (a : Assembly) (line : List Char) : Except AssemblyFault Assembly :=
  match Line.label? line with
  | none => .ok a
  | some label => a.define label

/-- Append the statement of line `number`, if it has one. -/
def appendStatement (a : Assembly) (number : Nat) (line : List Char) :
    Except AssemblyFault Assembly := do
  match ← Line.statement? line with
  | none => return a
  | some s => return { a with code := a.code.push ⟨number, s⟩ }

/-- Read line `number`: its label comes before its statement. -/
def readLine (a : Assembly) (number : Nat) (line : List Char) : Except AssemblyError Assembly :=
  match a.defineLabel line >>= fun a => a.appendStatement number line with
  | .ok a => .ok a
  | .error fault => .error ⟨number, fault⟩

/-- Read lines of which the first has the given number. -/
def readLines (a : Assembly) (number : Nat) : List (List Char) → Except AssemblyError Assembly
  | [] => .ok a
  | line :: rest => do
    let a ← a.readLine number line
    a.readLines (number + 1) rest

/-- Read a whole text. -/
def read (source : String) : Except AssemblyError Assembly :=
  empty.readLines 1 (source.toList.splitOn '\n')

/-- The instruction of a statement, its reference resolved. -/
def link (a : Assembly) (placed : PlacedStatement) : Except AssemblyError Instruction :=
  let s := placed.statement
  match s.reference with
  | none => .ok { opcode := s.opcode, operand1 := s.operand1, operand2 := s.operand2 }
  | some label =>
    match a.labels.lookup label with
    | none => .error ⟨placed.line, .unknownLabel label⟩
    | some position =>
      .ok { opcode := s.opcode, operand1 := s.operand1, operand2 := s.operand2, target := position }

/-- The program, with all references resolved in order. -/
def program (a : Assembly) : Except AssemblyError Program :=
  a.code.toList.mapM a.link

end Assembly

/-- The program written by a text. -/
def assemble (source : String) : Except AssemblyError Program := do
  (← Assembly.read source).program

/-- A text of a program, in which the label of each line is its position. -/
def disassemble (p : Program) : String :=
  String.join (p.zipIdx.map fun (i, position) => s!"{position}: {i.text}\n") ++ s!"{p.length}:\n"

end StackTape
