import StackTape.Gadget.Arithmetic
import StackTape.Gadget.Call
import StackTape.Gadget.Frame
import StackTape.Gadget.Transfer
import StackTape.Gadget.Variable

/-!
# From instructions to gadgets

Each instruction becomes a gadget between the entry state of its position and the entry states of
the positions where the program can go on.
-/

namespace StackTape.Draft

/-- Wire the entry state of `position` for an instruction. -/
def emit (sites : CallSites) (position : Nat) (i : Instruction) : DraftM Unit := do
  let entry ← entryAt position
  let next := entryAt (position + 1)
  match i.opcode with
  | .push w => Gadget.push w i.operand1 entry (← next)
  | .pop w => Gadget.pop w entry (← next)
  | .dup w => Gadget.dup w entry (← next)
  | .swap w => Gadget.swap w i.operand1 entry (← next)
  | .enter => Gadget.enter entry (← next)
  | .alloc => Gadget.alloc i.operand1 entry (← next)
  | .free => Gadget.free i.operand1 entry (← next)
  | .load f w => Gadget.load w f.marker i.operand1 entry (← next)
  | .loadIndirect f w => Gadget.loadIndirect w f.marker i.operand1 i.operand2 entry (← next)
  | .store f w => Gadget.store w f.marker i.operand1 entry (← next)
  | .storeIndirect f w => Gadget.storeIndirect w f.marker i.operand1 i.operand2 entry (← next)
  | .makeArgs => Gadget.makeArgs i.operand1 entry (← next)
  | .binary op w => Gadget.binary op w entry (← next)
  | .indexShift => Gadget.indexShift i.operand1 entry (← next)
  | .jump => Gadget.jump entry (← entryAt i.target)
  | .jumpIfZero => do
    let fallThrough ← next
    Gadget.branchOnZero entry (← entryAt i.target) fallThrough
  | .jumpIfNonzero => do
    let fallThrough ← next
    Gadget.branchOnZero entry fallThrough (← entryAt i.target)
  | .call => Gadget.call ((sites.idAt? position).getD 0) entry (← entryAt i.target)
  | .ret => Gadget.ret sites entry
  | .setReturn w => Gadget.setReturn w entry (← next)
  | .accept => Gadget.jump entry Sink.accept
  | .reject => Gadget.jump entry Sink.reject

/-- Wire the entry states of instructions of which the first is at `position`. -/
def emitFrom (sites : CallSites) : (position : Nat) → Program → DraftM Unit
  | _, [] => return
  | position, i :: rest => do
    emit sites position i
    record i.opcode
    emitFrom sites (position + 1) rest

/-- Draft the machine of a program; the result is its start state, which marks the first cell as
the start of the global variables. -/
def build (sites : CallSites) (p : Program) : DraftM Nat := do
  let start ← fresh
  let first ← entryAt 0
  setFallback start (.write Symbol.globalPointer .right first)
  emitFrom sites 0 p
  return start

/-- The draft before the first instruction of a program with the given call sites. -/
def forSites (sites : CallSites) : Draft :=
  { initial with stats := { Stats.empty with callSites := sites.count } }

end StackTape.Draft
