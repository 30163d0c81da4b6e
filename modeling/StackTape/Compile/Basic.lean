import StackTape.Compile.Emit

/-!
# Compiling a program to a machine

The calls are counted and the operands of every instruction are checked before any state is
drafted, so the result is either the first error or a machine. At one position the first violation
of the contract of operands counts, and of several positions the least.
-/

namespace StackTape

/-! ## What keeps a program from being compiled -/

/-- How an instruction can violate the contract of its operands. -/
inductive Violation where
  | operand (opcode : Opcode) (value : Nat)
  | target (target length : Nat)
  | shift (amount : Nat)
  | indexBound (bound limit : Nat)
  deriving DecidableEq

/-- The text of a violation. -/
def Violation.message : Violation → String
  | operand op value =>
    s!"operand {value} does not fit {op.mnemonic} (max {op.kind.maxValue})"
  | target position length => s!"jump target {position} beyond program end {length}"
  | shift amount => s!"index shift {amount} exceeds 8 bits"
  | indexBound bound limit => s!"index bound {bound} outside 1..={limit}"

/-- Why a program has no machine. -/
inductive CompileError where
  | callSites (count : Nat)
  | instruction (position : Nat) (violation : Violation)
  /-- A gadget named a state or a call site that does not exist. -/
  | fault (fault : IndexFault)
  deriving DecidableEq

/-- The text of a compile error. -/
def CompileError.message : CompileError → String
  | callSites count =>
    s!"Too many call sites: {count} (at most {maxCallSites} can be encoded)"
  | instruction position violation => s!"Instruction {position}: {violation.message}"
  | fault f => f.message

/-! ## Checks -/

/-- Settings of the compiler. -/
structure Options where
  /-- The largest index bound of an indirect access. -/
  maxIndex : Nat := 65536

/-- The largest index bound that is ever accepted: an index has four bytes. -/
def Options.indexLimit (o : Options) : Nat := min o.maxIndex 0x100000000

/-- The first way in which an instruction of a program of the given length violates the contract
of its operands. -/
def Instruction.violation? (o : Options) (length : Nat) (i : Instruction) : Option Violation :=
  if takesConstant i.opcode.kind ∧ i.opcode.kind.maxValue < i.operand1 then
    some (.operand i.opcode i.operand1)
  else
    match i.opcode with
    | .jump | .jumpIfZero | .jumpIfNonzero | .call =>
      if length < i.target then some (.target i.target length) else none
    | .indexShift => if 8 < i.operand1 then some (.shift i.operand1) else none
    | .loadIndirect _ _ | .storeIndirect _ _ =>
      if i.operand2 = 0 ∨ o.indexLimit < i.operand2 then
        some (.indexBound i.operand2 o.indexLimit)
      else none
    | _ => none
where
  /-- Whether the first operand is a constant. -/
  takesConstant : OperandKind → Bool
    | .const8 | .const16 | .const32 | .const32Pair => true
    | .none | .label => false

/-- The first violation in a program, with its position. -/
def Program.violation? (o : Options) (p : Program) : Option (Nat × Violation) :=
  let length := p.length
  p.zipIdx.findSome? fun (i, position) => (i.violation? o length).map fun v => (position, v)

/-! ## Compilation -/

/-- A machine and how it came about. -/
structure Compilation where
  machine : Machine
  /-- The entry states of program positions. -/
  entries : Std.TreeMap Nat Nat
  stats : Stats

/-- The machine of a program whose call sites are known. -/
def compileWith (o : Options) (sites : CallSites) (p : Program) :
    Except CompileError Compilation :=
  match p.violation? o with
  | some (position, violation) => .error (.instruction position violation)
  | none =>
    match Draft.build sites p (Draft.forSites sites) with
    | .ok start d => .ok ⟨⟨start, Sink.accept, Sink.reject, d.states⟩, d.entries, d.stats⟩
    | .error fault _ => .error (.fault fault)

/-- The machine of a program. -/
def compile (o : Options) (p : Program) : Except CompileError Compilation :=
  match CallSites.ofProgram? p with
  | none => .error (.callSites p.callCount)
  | some sites => compileWith o sites p

end StackTape
