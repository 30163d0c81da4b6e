import StackTape.Draft.Wiring

/-!
# Gadgets that lay out frames

Markers for local variables and arguments, and room on the stack.
-/

namespace StackTape.Gadget

open Draft

/-- Begin the local variables of a call. -/
def enter (entry exit : Nat) : DraftM Unit :=
  setFallback entry (.write Symbol.basePointer .right exit)

/-- Put `cells` zeros on the stack. -/
def alloc (cells : Nat) (entry exit : Nat) : DraftM Unit :=
  if cells = 0 then setFallback entry (.skip .stay exit)
  else chain cells entry exit fun _ s next => setFallback s (.write 0 .right next)

/-- Clear the free cell and the `cells` cells below it. -/
def free (cells : Nat) (entry exit : Nat) : DraftM Unit := do
  let last ← trail (.write 0 .left) cells entry
  setFallback last (.write 0 .stay exit)

/-- Move `cells` bytes one cell up, from the state that carries the byte of the cell below. -/
def shiftUp (exit : Nat) : (cells : Nat) → (carried : Block 256) → DraftM Unit
  | 0, carried => allBytes.forM fun below =>
    setFallback carried[below] (.write below .right exit)
  | cells + 1, carried => do
    let next ← freshBlock 256
    allBytes.forM fun below =>
      addRules carried[below] (byteRules fun v => ⟨v, below, .right, next[v]⟩)
    shiftUp exit cells next

/-- Insert the argument marker below the `cells` bytes on top of the stack. -/
def makeArgs (cells : Nat) (entry exit : Nat) : DraftM Unit :=
  match cells with
  | 0 => setFallback entry (.write Symbol.argPointer .right exit)
  | cells + 1 => do
    let lowest ← walk .left (cells + 1) entry
    let carried ← freshBlock 256
    addRules lowest (byteRules fun v => ⟨v, Symbol.argPointer, .right, carried[v]⟩)
    shiftUp exit cells carried

end StackTape.Gadget
