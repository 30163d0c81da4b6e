/-!
# Single-tape machines

A machine is an array of states. A state holds explicit transitions, tried in order against the
symbol under the head, and one fallback that is taken when none of them matches. Main definitions:
`Direction`, `Transition`, `State`, `Machine`, the lookup `State.lookup` and the text form
`listing`.
-/

namespace StackTape

/-! ## Directions -/

/-- How the head moves after a transition has written its output. -/
inductive Direction where
  | stay
  | left
  | right
  deriving DecidableEq

namespace Direction

/-- The byte that stands for a direction in the binary form of a machine. -/
def code : Direction → UInt8
  | stay => 0
  | left => 1
  | right => 2

/-- The direction with the given code, if there is one. -/
def ofCode? (code : Nat) : Option Direction :=
  match code with
  | 0 => some stay
  | 1 => some left
  | 2 => some right
  | _ => none

/-- The sign that stands for a direction in a listing. -/
def text : Direction → String
  | stay => "!"
  | left => "<"
  | right => ">"

/-- The distance the head travels. -/
def offset : Direction → Int
  | stay => 0
  | left => -1
  | right => 1

@[simp]
theorem ofCode?_code (d : Direction) : ofCode? d.code.toNat = some d := by
  cases d <;> rfl

end Direction

/-! ## Symbols -/

/-! Tape symbols are natural numbers. Those below 256 are data bytes; the four frame markers follow
them. -/

namespace Symbol

/-- The largest 64-bit word. As an output it leaves the cell as it is; as an input it is an
ordinary value, by convention written where the input is not looked at. -/
def wildcard : Nat := 18446744073709551615

/-- Marks the start of the local variables of a call. -/
def basePointer : Nat := 256

/-- Marks the start of the arguments of a call. -/
def argPointer : Nat := 257

/-- Marks, for the length of one instruction, the cell that the head has to come back to. -/
def bookmark : Nat := 258

/-- Marks the start of the global variables, in the cell where every run begins. -/
def globalPointer : Nat := 259

/-- The text of a symbol in a listing. -/
def text (s : Nat) : String :=
  if s = wildcard then "*" else toString s

end Symbol

/-! ## Transitions, states and machines -/

/-! States are named by their index in the machine. The first two are its sinks. -/

namespace Sink

/-- The sink in which a compiled machine accepts. -/
def accept : Nat := 0

/-- The sink in which a compiled machine rejects. -/
def reject : Nat := 1

end Sink

/-- One entry of a state: on `input` write `output`, move the head and go to `next`. -/
structure Transition where
  input : Nat
  output : Nat
  move : Direction
  next : Nat
  deriving DecidableEq

namespace Transition

/-- Move without looking at the cell or changing it. -/
def skip (move : Direction) (next : Nat) : Transition :=
  ⟨Symbol.wildcard, Symbol.wildcard, move, next⟩

/-- Write `output` over whatever the cell holds. -/
def write (output : Nat) (move : Direction) (next : Nat) : Transition :=
  ⟨Symbol.wildcard, output, move, next⟩

/-- The text of a transition in a listing. -/
def text (t : Transition) : String :=
  Symbol.text t.input ++ " " ++ Symbol.text t.output ++ " " ++ t.move.text ++ " -> " ++
    toString t.next

end Transition

/-- A control state: explicit transitions in the order in which they are tried, and the fallback
for the symbols that none of them names. -/
structure State where
  rules : List Transition
  fallback : Transition
  deriving DecidableEq

namespace State

/-- The state as it is handed out: nothing explicit, and a step into the rejecting sink. -/
def unwired : State := ⟨[], .skip .stay Sink.reject⟩

/-- A state that stays where it is for ever. -/
def sink (self : Nat) : State := ⟨[], .skip .stay self⟩

/-- The transition taken on `symbol`: the first explicit one with that very input, else the
fallback. -/
def lookup (s : State) (symbol : Nat) : Transition :=
  (s.rules.find? fun t => t.input == symbol).getD s.fallback

end State

/-- A machine with its start state and its two halting states. -/
structure Machine where
  start : Nat
  accept : Nat
  reject : Nat
  states : Array State
  deriving DecidableEq

namespace Machine

/-- The number of explicit transitions in all states. -/
def transitionCount (m : Machine) : Nat :=
  m.states.foldl (fun total s => total + s.rules.length) 0

end Machine

/-- A reference to an entry that a table of `size` entries does not have. -/
structure IndexFault where
  size : Nat
  index : Nat
  deriving DecidableEq

/-- The text of an index fault. -/
def IndexFault.message (f : IndexFault) : String :=
  s!"index out of bounds: the len is {f.size} but the index is {f.index}"

/-! ## Listings

The text form of the states of a machine: a line `state i:` for each state, then its explicit
transitions in order and its fallback, each on an indented line. -/

/-- The lines that describe the state with id `id`. -/
def State.lines (id : Nat) (s : State) : List String :=
  s!"state {id}:" :: (s.rules ++ [s.fallback]).map fun t => "  " ++ t.text

/-- The lines of all states, in id order. -/
def listingLines (states : Array State) : List String :=
  states.toList.zipIdx.flatMap fun (s, id) => s.lines id

/-- The listing of the states of a machine or of a draft: a line feed follows each line. -/
def listing (states : Array State) : String :=
  String.join ((listingLines states).map fun line => line ++ "\n")

/-- The listing of a machine. -/
def Machine.listing (m : Machine) : String :=
  StackTape.listing m.states

end StackTape
