import StackTape.Opcode

/-!
# Call sites

The calls of a program are numbered in the order of their positions. The number of a call is its
id; it has to fit the two bytes that a call leaves on the stack. The return addresses ascend, so the
id of a call is found among them by halving.
-/

namespace StackTape

/-- The number of calls that two bytes can tell apart. -/
def maxCallSites : Nat := 65536

namespace Program

/-- The number of calls in a program. -/
def callCount (p : Program) : Nat :=
  p.countP fun i => i.opcode = .call

/-- The positions that follow the calls of a program, in order. -/
def returnAddresses (p : Program) : List Nat :=
  p.zipIdx.filterMap fun (i, position) => if i.opcode = .call then some (position + 1) else none

end Program

/-- The call sites of a program. -/
structure CallSites where
  /-- The return addresses, in the order of the ids of their calls. -/
  addresses : List Nat

namespace CallSites

/-- The call sites of a program that does not have too many of them. -/
def ofProgram? (p : Program) : Option CallSites :=
  let addresses := p.returnAddresses
  if addresses.length ≤ maxCallSites then some ⟨addresses⟩ else none

/-- The number of call sites. -/
def count (sites : CallSites) : Nat := sites.addresses.length

/-- Look for a value among the entries of an ascending table from index `low` to before `high`: the
entry in the middle tells in which half to go on. -/
def bisect? (table : Array Nat) (value low high : Nat) (h : high ≤ table.size) : Option Nat :=
  if hlt : low < high then
    let middle := low + (high - low) / 2
    have hmiddle : middle < high := by omega
    if table[middle] = value then some middle
    else if table[middle] < value then bisect? table value (middle + 1) high h
    else bisect? table value low middle (by omega)
  else none
termination_by high - low

/-- The index of a return address, if it is one. -/
def index? (sites : CallSites) (address : Nat) : Option Nat :=
  let table := sites.addresses.toArray
  bisect? table address 0 table.size (Nat.le_refl _)

/-- The id of the call at a position, if there is a call, as a number of two bytes. -/
def idAt? (sites : CallSites) (position : Nat) : Option Nat :=
  (sites.index? (position + 1)).map fun index => (UInt16.ofNat index).toNat

/-- The position at which a program goes on after the call with the given id. -/
def returnAddress (sites : CallSites) (id : Nat) : Except IndexFault Nat :=
  match sites.addresses[id]? with
  | some address => .ok address
  | none => .error ⟨sites.count, id⟩

theorem returnAddress_eq_ok_iff {sites : CallSites} {id address : Nat} :
    sites.returnAddress id = .ok address ↔ sites.addresses[id]? = some address := by
  unfold returnAddress
  cases sites.addresses[id]? <;> simp

end CallSites

end StackTape
