import StackTape.Machine.Basic

/-!
# The binary form of a machine

Numbers are 64-bit words, least significant byte first. A machine is written as its start,
accepting and rejecting state and the number of its states. Each state follows as a record: its
index, the number of its explicit transitions, the output, direction and target of its fallback,
and then the explicit transitions as input, output, direction and target. The input of a fallback
is not stored. `Machine.encode` writes this form and `Machine.decode` reads it from the front of a
byte sequence, leaving whatever follows.
-/

namespace StackTape

/-- Why a machine cannot be read. -/
inductive FormatError where
  /-- The bytes end inside the machine. -/
  | truncated
  /-- A byte that stands for no direction. -/
  | invalidDirection (byte : UInt8)
  /-- A state record in a place that is not its own. -/
  | stateIndex (expected found : Nat)
  deriving DecidableEq

/-- The text of a format error. -/
def FormatError.message : FormatError → String
  | truncated => "I/O error: failed to fill whole buffer"
  | invalidDirection byte => s!"Invalid direction byte {byte.toNat}"
  | stateIndex expected found => s!"State record {found} where state {expected} was expected"

/-! ## Writing -/

/-- Append the `width` low bytes of `n`, least significant first. -/
def putBytes (out : ByteArray) : (width : Nat) → (n : Nat) → ByteArray
  | 0, _ => out
  | width + 1, n => putBytes (out.push n.toUInt8) width (n / 256)

/-- Append a 64-bit word. -/
def putWord (out : ByteArray) (n : Nat) : ByteArray :=
  putBytes out 8 n

/-- Append the part of a transition that explicit transitions and fallbacks share. -/
def Transition.putAction (out : ByteArray) (t : Transition) : ByteArray :=
  putWord ((putWord out t.output).push t.move.code) t.next

/-- Append an explicit transition. -/
def Transition.put (out : ByteArray) (t : Transition) : ByteArray :=
  Transition.putAction (putWord out t.input) t

/-- Append the record of the state with index `id`. -/
def State.put (out : ByteArray) (id : Nat) (s : State) : ByteArray :=
  s.rules.foldl Transition.put
    (Transition.putAction (putWord (putWord out id) s.rules.length) s.fallback)

/-- The binary form of a machine. -/
def Machine.encode (m : Machine) : ByteArray :=
  m.states.toList.zipIdx.foldl (fun out (s, id) => s.put out id)
    (putWord (putWord (putWord (putWord .empty m.start) m.accept) m.reject) m.states.size)

/-! ## Reading -/

/-- An action that takes bytes of a sequence from a position on and moves the position behind
them. When it fails, the position where it failed is known too. -/
abbrev Reader := ReaderT ByteArray (EStateM FormatError Nat)

namespace Reader

/-- Take one byte. -/
def byte : Reader UInt8 := fun bytes position =>
  if h : position < bytes.size then .ok bytes[position] (position + 1)
  else .error .truncated position

/-- Take a number of `width` bytes, least significant first. -/
def number : (width : Nat) → Reader Nat
  | 0 => pure 0
  | width + 1 => do
    let low ← byte
    let high ← number width
    return low.toNat + 256 * high

/-- Take a 64-bit word. -/
def word : Reader Nat := number 8

/-- Take a direction. -/
def direction : Reader Direction := do
  let b ← byte
  match Direction.ofCode? b.toNat with
  | some d => return d
  | none => throw (.invalidDirection b)

/-- Take output, direction and target of a transition whose input is known. -/
def action (input : Nat) : Reader Transition := do
  let output ← word
  let move ← direction
  let next ← word
  return ⟨input, output, move, next⟩

/-- Take an explicit transition. -/
def transition : Reader Transition := do
  action (← word)

/-- Take the record of the state with index `expected`. -/
def state (expected : Nat) : Reader State := do
  let found ← word
  if found ≠ expected then
    throw (.stateIndex expected found)
  let count ← word
  let fallback ← action Symbol.wildcard
  let rules ← rulesFrom #[] count
  return ⟨rules.toList, fallback⟩
where
  /-- Take `count` explicit transitions after those in `taken`. -/
  rulesFrom (taken : Array Transition) : (count : Nat) → Reader (Array Transition)
    | 0 => return taken
    | count + 1 => do rulesFrom (taken.push (← transition)) count

/-- Take `count` state records after those in `taken`. -/
def statesFrom (taken : Array State) : (count : Nat) → Reader (Array State)
  | 0 => return taken
  | count + 1 => do statesFrom (taken.push (← state taken.size)) count

/-- Take a machine. -/
def machine : Reader Machine := do
  let start ← word
  let accept ← word
  let reject ← word
  let count ← word
  return ⟨start, accept, reject, ← statesFrom #[] count⟩

end Reader

/-- Read a machine from the front of a byte sequence, with the number of bytes taken. -/
def Machine.decode (bytes : ByteArray) : Except FormatError (Machine × Nat) :=
  match Reader.machine bytes 0 with
  | .ok m position => .ok (m, position)
  | .error e _ => .error e

end StackTape
