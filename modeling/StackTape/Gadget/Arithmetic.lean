import StackTape.Draft.Wiring
import StackTape.Opcode

/-!
# Gadgets that compute

The operand below the top takes the result, and the top operand is cleared. Sums and differences
go from the least significant column up and keep the carry in the control state; the bitwise
operations go from the top down.
-/

namespace StackTape.Gadget

open Draft

/-! ## Sums and differences -/

/-- The result byte of one column, and whether it carries into the next one. -/
structure Column where
  result : Nat
  carries : Bool

/-- One column of a sum. -/
def addColumn (top lower carry : Nat) : Column :=
  ⟨(top + lower + carry) % 256, 256 ≤ top + lower + carry⟩

/-- One column of the difference `lower - top`. -/
def subColumn (top lower borrow : Nat) : Column :=
  ⟨(lower + 512 - (top + borrow)) % 256, lower < top + borrow⟩

/-- Combine the byte under the head with the one `distance` cells below it, for each of the states
in `sources`, which come with the carry that they stand for. -/
def combineColumn (distance : Nat) (column : Nat → Nat → Nat → Column)
    (sources : List (Nat × Nat)) (plain carry : Nat) : DraftM Unit :=
  allBytes.forM fun top =>
    sources.forM fun (source, carryIn) => do
      let split ← fresh
      addRules source [⟨top, 0, .left, split⟩]
      let cell ← walk .left (distance - 1) split
      addRules cell (byteRules fun lower =>
        let c := column top lower carryIn
        ⟨lower, c.result, .right, if c.carries then carry else plain⟩)

/-- Combine the remaining columns of two values of `distance` bytes. -/
def columns (distance : Nat) (column : Nat → Nat → Nat → Column) (exit : Nat) :
    (remaining : Nat) → (sources : List (Nat × Nat)) → DraftM Unit
  | 0, _ => return
  | 1, sources => combineColumn distance column sources exit exit
  | remaining + 2, sources => do
    let plain ← fresh
    let carry ← fresh
    combineColumn distance column sources plain carry
    let plain ← walk .right distance plain
    let carry ← walk .right distance carry
    columns distance column exit (remaining + 1) [(plain, 0), (carry, 1)]

/-- Replace two values by their sum or difference. -/
def carryChain (w : Width) (column : Nat → Nat → Nat → Column) (entry exit : Nat) :
    DraftM Unit := do
  let lowest ← walk .left w.bytes entry
  columns w.bytes column exit w.bytes [(lowest, 0)]

/-! ## Bitwise operations -/

/-- Combine the remaining bytes from the top down. A single byte ends in `exit`; of a wider value
the result is the state on the topmost cleared cell that is not yet left. -/
def bitColumns (w : Width) (op : Nat → Nat → Nat) (exit : Nat) :
    (remaining : Nat) → (s : Nat) → DraftM Nat
  | 0, s => return s
  | remaining + 1, s => do
    let merge ← if w = .w8 then pure exit else fresh
    branch s fun top => do
      let split ← fresh
      let cell ← walk .left (w.bytes - 1) split
      addRules cell (byteRules fun lower => ⟨lower, op top lower, .right, merge⟩)
      return ⟨top, 0, .left, split⟩
    let next ← walk .right (w.bytes - 2) merge
    bitColumns w op exit remaining next

/-- Replace two values by their bitwise combination. -/
def bitwise (w : Width) (op : Nat → Nat → Nat) (entry exit : Nat) : DraftM Unit := do
  let top ← fresh
  setFallback entry (.skip .left top)
  let last ← bitColumns w op exit w.bytes top
  if w ≠ .w8 then
    setFallback last (.skip .right exit)

/-- Replace the two values on top of the stack by the result of an operation. -/
def binary (op : BinOp) (w : Width) (entry exit : Nat) : DraftM Unit :=
  match op with
  | .add => carryChain w addColumn entry exit
  | .sub => carryChain w subColumn entry exit
  | .and => bitwise w (· &&& ·) entry exit
  | .or => bitwise w (· ||| ·) entry exit
  | .xor => bitwise w (· ^^^ ·) entry exit

/-! ## Shifts -/

/-- The byte that a shifted byte leaves behind, once the bits from the byte below have come in. -/
def shiftByte (amount below v : Nat) : Nat :=
  below <<< amount / 256 % 256 ||| v <<< amount % 256

/-- Shift the remaining bytes; a state of `carried` stands for the byte below the head. -/
def shiftColumns (amount : Nat) (exit : Nat) :
    (remaining : Nat) → (carried : Block 256) → DraftM Unit
  | 0, carried => allBytes.forM fun below =>
    addRules carried[below] (byteRules fun v => ⟨v, shiftByte amount below v, .right, exit⟩)
  | remaining + 1, carried => do
    let next ← freshBlock 256
    allBytes.forM fun below =>
      addRules carried[below] (byteRules fun v => ⟨v, shiftByte amount below v, .right, next[v]⟩)
    shiftColumns amount exit remaining next

/-- Shift the 32-bit value on top of the stack left by `amount` bits. -/
def indexShift (amount : Nat) (entry exit : Nat) : DraftM Unit := do
  let lowest ← walk .left 4 entry
  let carried ← freshBlock 256
  addRules lowest (byteRules fun v => ⟨v, v.val <<< amount % 256, .right, carried[v]⟩)
  shiftColumns amount exit 2 carried

end StackTape.Gadget
