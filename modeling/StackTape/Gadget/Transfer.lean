import StackTape.Draft.Wiring
import StackTape.Opcode

/-!
# Gadgets on the top of the stack

The head rests on the first free cell above the stack. Values lie below it with their least
significant byte deepest.
-/

namespace StackTape.Gadget

open Draft

/-- Put a constant on the stack. -/
def push (w : Width) (value : Nat) (entry exit : Nat) : DraftM Unit :=
  chain w.bytes entry exit fun i s next => setFallback s (.write (byteAt value i) .right next)

/-- Clear the top value, from the free cell down. -/
def pop (w : Width) (entry exit : Nat) : DraftM Unit :=
  chain w.bytes entry exit fun _ s next => setFallback s (.write 0 .left next)

/-- Copy the byte `distance` cells below the head to the cell under it, and move one cell up. -/
def copyByte (distance : Nat) (entry exit : Nat) : DraftM Unit := do
  let source ← walk .left distance entry
  branch source fun v => do
    let carry ← fresh
    let dest ← walk .right (distance - 1) carry
    setFallback dest (.write v .right exit)
    return ⟨v, v, .right, carry⟩

/-- Put a copy of the top value on the stack. -/
def dup (w : Width) (entry exit : Nat) : DraftM Unit :=
  chain w.bytes entry exit fun _ s next => copyByte w.bytes s next

/-- Exchange the byte under the head with the one `span` cells below it, and move one cell up. -/
def exchangeByte (span : Nat) (entry exit : Nat) : DraftM Unit := do
  let back ← freshBlock 256
  branch entry fun upper => do
    let carry ← fresh
    let partner ← walk .left (span - 1) carry
    addRules partner (byteRules fun lower => ⟨lower, upper, .right, back[lower]⟩)
    return ⟨upper, upper, .left, carry⟩
  allBytes.forM fun lower => do
    let cell ← walk .right (span - 1) back[lower]
    setFallback cell (.write lower .right exit)

/-- Exchange the top value with the one that `offset` cells separate from it. -/
def swap (w : Width) (offset : Nat) (entry exit : Nat) : DraftM Unit := do
  let lowest ← walk .left w.bytes entry
  chain w.bytes lowest exit fun _ s next => exchangeByte (w.bytes + offset) s next

end StackTape.Gadget
