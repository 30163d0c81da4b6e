import StackTape.Draft.Basic

/-!
# Patterns of wiring

The few shapes that every gadget is made of: a trail of states that take the same step, a scan for
a symbol, a chain of links between two given states, and a table with an entry for every byte.
-/

namespace StackTape.Draft

/-- Let `count` states in a row, of which the first is `s`, take the step `t`. The result is the
state after the last step. -/
def trail (t : Nat → Transition) : (count : Nat) → (s : Nat) → DraftM Nat
  | 0, s => return s
  | count + 1, s => do
    let next ← fresh
    setFallback s (t next)
    trail t count next

/-- Move the head `distance` cells, whatever they hold. -/
def walk (move : Direction) (distance : Nat) (s : Nat) : DraftM Nat :=
  trail (.skip move) distance s

/-- Move until the input of `found` is under the head, then take `found`. -/
def scan (move : Direction) (s : Nat) (found : Transition) : DraftM Unit := do
  setFallback s (.skip move s)
  addRules s [found]

/-- Join `entry` to `exit` by `count` links. A link is built from its index and the states at its
two ends; the state between two links is handed out before the first of them is built. -/
def chain (count : Nat) (entry exit : Nat) (link : Nat → Nat → Nat → DraftM Unit) :
    DraftM Unit :=
  go count 0 entry
where
  /-- Build the remaining links, the first of which has the given index and starts at `s`. -/
  go : (remaining index : Nat) → (s : Nat) → DraftM Unit
    | 0, _, _ => return
    | 1, index, s => link index s exit
    | remaining + 2, index, s => do
      let next ← fresh
      link index s next
      go (remaining + 1) (index + 1) next

/-- All bytes in ascending order. -/
def allBytes : List (Fin 256) := List.finRange 256

/-- An explicit transition for every byte. -/
def byteRules (rule : Fin 256 → Transition) : List Transition :=
  allBytes.map rule

/-- Build an arm for every byte and let `s` branch to them by the transitions that they give. -/
def branch (s : Nat) (arm : Fin 256 → DraftM Transition) : DraftM Unit := do
  let rules ← allBytes.mapM arm
  addRules s rules

/-- The byte of weight `256 ^ index` in `value`. -/
def byteAt (value index : Nat) : Nat :=
  value >>> (8 * index) % 256

end StackTape.Draft
