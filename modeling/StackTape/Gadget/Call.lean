import StackTape.CallSites
import StackTape.Gadget.Variable

/-!
# Gadgets for jumps, calls and returns

A call puts the two bytes of its id under the argument marker, low byte first, by moving the marker
and the arguments two cells up. A return clears the stack down to the marker, takes the id from
under it, and goes on after the call with that id. A result is delivered below the id, where it is
on top of the stack after the return.
-/

namespace StackTape.Gadget

open Draft

/-- Go to a state and change nothing. -/
def jump (entry target : Nat) : DraftM Unit :=
  setFallback entry (.skip .stay target)

/-- Pop a byte and go on by whether it is zero. -/
def branchOnZero (entry onZero onNonzero : Nat) : DraftM Unit := do
  let condition ← fresh
  setFallback entry (.skip .left condition)
  addRules condition
    (byteRules fun v => ⟨v, 0, .stay, if v.val = 0 then onZero else onNonzero⟩)

/-- Insert a byte under the argument marker: everything from the marker to the free cell moves one
cell up. -/
def insertByte (inserted : Nat) (entry exit : Nat) : DraftM Unit := do
  let seek ← fresh
  setFallback entry (.write Symbol.bookmark .left seek)
  let shift ← fresh
  scan .left seek ⟨Symbol.argPointer, inserted, .right, shift⟩
  let carried ← freshBlock 256
  addRules shift (moveUp carried Symbol.argPointer)
  allBytes.forM fun below => addRules carried[below] (moveUp carried below)
where
  /-- Put down the symbol from the cell below and take up the byte of this one, up to the
  bookmark. -/
  moveUp (carried : Block 256) (below : Nat) : List Transition :=
    (byteRules fun v => ⟨v, below, .right, carried[v]⟩) ++
      [⟨Symbol.bookmark, below, .right, exit⟩]

/-- Put the id of a call under the arguments and go to the callee. -/
def call (id : Nat) (entry target : Nat) : DraftM Unit :=
  chain 2 entry target fun i s next => insertByte (byteAt id i) s next

/-- The number of ids up to `last` whose high byte is `page`. All pages are full but the one of the
last id. -/
def pageSize (last page : Nat) : Nat :=
  if page = last / 256 then last % 256 + 1 else 256

/-- Go on after the call whose id has the high byte `page` and is completed by the byte under the
head. -/
def returnPage (high : Nat) (sites : CallSites) (page : Nat) : DraftM Unit := do
  let low ← fresh
  addRules high [⟨page, 0, .left, low⟩]
  let rules ← (List.range (pageSize (sites.count - 1) page)).mapM fun v => do
    let address ← answer (sites.returnAddress (256 * page + v))
    return ⟨v, 0, .stay, ← entryAt address⟩
  addRules low rules

/-- Clear the stack down to the argument marker and go to the return address with the id under it.
Without calls there is no id to go on with. -/
def ret (sites : CallSites) (entry : Nat) : DraftM Unit := do
  let high ← fresh
  setFallback entry (.write 0 .left entry)
  addRules entry [⟨Symbol.argPointer, 0, .left, high⟩]
  if 0 < sites.count then
    (List.range ((sites.count - 1) / 256 + 1)).forM (returnPage high sites)

/-- Pop the top value to where the caller expects a result, below the id under the argument
marker. -/
def setReturn (w : Width) (entry exit : Nat) : DraftM Unit :=
  chain w.bytes entry exit fun i s next =>
    deliverByte Symbol.argPointer .left (2 + i) s next

end StackTape.Gadget
