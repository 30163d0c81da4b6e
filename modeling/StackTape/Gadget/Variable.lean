import StackTape.Draft.Wiring
import StackTape.Opcode

/-!
# Gadgets that access variables

A variable is found from the marker of its frame, the nearest one below the head. While the head is
away, the bookmark holds its place. In the indirect forms the index lies on the stack; it is popped
by a tree with one level for each of its four bytes, and every index below the bound has its own
access at the leaves.
-/

namespace StackTape.Gadget

open Draft

/-- Copy the byte `distance` cells above the cell after `marker` to the cell under the head, and
move one cell up. -/
def fetchByte (marker : Nat) (distance : Nat) (entry exit : Nat) : DraftM Unit := do
  let seek ← fresh
  setFallback entry (.write Symbol.bookmark .left seek)
  let found ← fresh
  scan .left seek ⟨marker, marker, .right, found⟩
  let cell ← walk .right distance found
  branch cell fun v => do
    let carry ← fresh
    scan .right carry ⟨Symbol.bookmark, v, .right, exit⟩
    return ⟨v, v, .right, carry⟩

/-- Put the variable at `offset` on the stack. -/
def load (w : Width) (marker : Nat) (offset : Nat) (entry exit : Nat) : DraftM Unit :=
  chain w.bytes entry exit fun i s next => fetchByte marker (offset + i) s next

/-- Clear the free cell and pop the byte below it into the cell that is found from `marker` by a
move and `distance` further ones in the same direction. -/
def deliverByte (marker : Nat) (move : Direction) (distance : Nat) (entry exit : Nat) :
    DraftM Unit := do
  let top ← fresh
  setFallback entry (.write 0 .left top)
  let back ← fresh
  branch top fun v => do
    let seek ← fresh
    let found ← fresh
    scan .left seek ⟨marker, marker, move, found⟩
    let cell ← walk move distance found
    setFallback cell (.write v .right back)
    return ⟨v, Symbol.bookmark, .left, seek⟩
  scan .right back ⟨Symbol.bookmark, 0, .stay, exit⟩

/-- Pop the top value into the variable at `offset`, most significant byte first. -/
def store (w : Width) (marker : Nat) (offset : Nat) (entry exit : Nat) : DraftM Unit :=
  chain w.bytes entry exit fun i s next =>
    deliverByte marker .right (offset + w.bytes - i - 1) s next

/-- The number of groups of `size` that cover `count` things. -/
def groups (count size : Nat) : Nat :=
  (count + size - 1) / size

/-- The transitions that consume one byte of an index and lead to the children of node `node`. -/
def childRules {n : Nat} (move : Direction) (children : Block n) (node : Nat) :
    List Transition :=
  (List.range 256).filterMap fun v =>
    if h : 256 * node + v < n then some ⟨v, 0, move, children[256 * node + v]⟩ else none

/-- Join each node of a level to its children in the next level. -/
def joinLevels {m n : Nat} (move : Direction) (parents : Block m) (children : Block n) :
    DraftM Unit :=
  (List.finRange m).forM fun node => addRules parents[node] (childRules move children node)

/-- Pop a 32-bit index below `bound`; the block holds the state reached for each index. -/
def popIndex (bound : Nat) (entry : Nat) : DraftM (Block bound) := do
  let top ← fresh
  setFallback entry (.write 0 .left top)
  let level3 ← freshBlock (groups bound 0x1000000)
  let level2 ← freshBlock (groups bound 0x10000)
  let level1 ← freshBlock (groups bound 0x100)
  let leaves ← freshBlock bound
  addRules top (childRules .left level3 0)
  joinLevels .left level3 level2
  joinLevels .left level2 level1
  joinLevels .stay level1 leaves
  return leaves

/-- Pop an index below `bound` and go on with the access made for it. -/
def indirect (bound : Nat) (access : Nat → Nat → DraftM Unit) (entry : Nat) :
    DraftM Unit := do
  let leaves ← popIndex bound entry
  (List.finRange bound).forM fun index => access index leaves[index]

/-- Put the variable at `base` plus a popped index on the stack. -/
def loadIndirect (w : Width) (marker : Nat) (base bound : Nat) (entry exit : Nat) :
    DraftM Unit :=
  indirect bound (fun index s => load w marker (base + index) s exit) entry

/-- Pop an index, then pop a value into the variable at `base` plus the index. -/
def storeIndirect (w : Width) (marker : Nat) (base bound : Nat) (entry exit : Nat) :
    DraftM Unit :=
  indirect bound (fun index s => store w marker (base + index) s exit) entry

end StackTape.Gadget
