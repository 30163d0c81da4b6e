import StackTape.Machine.Basic
import Std.Data.TreeMap

/-!
# Runs of a machine

One step of a machine is defined once, for every representation of the tape (`TapeLike`): the
functions `Int → Nat`, on which tapes are described, and `Tape`, which keeps the cells that are
not blank and can be printed. `Machine.run` follows a machine from its start state on a blank tape
for a bounded number of steps.
-/

namespace StackTape

/-! ## Tapes -/

/-- Types whose values assign a symbol to each cell of a tape that is infinite both ways. -/
class TapeLike (τ : Type) where
  read : τ → Int → Nat
  write : τ → Int → Nat → τ

instance : TapeLike (Int → Nat) where
  read tape cell := tape cell
  write tape cell symbol := fun other => if other = cell then symbol else tape other

/-- A tape with finitely many cells other than 0. -/
structure Tape where
  cells : Std.TreeMap Int Nat

namespace Tape

/-- The tape that holds 0 in every cell. -/
def blank : Tape := ⟨∅⟩

/-- The symbol in a cell. -/
def read (tape : Tape) (cell : Int) : Nat :=
  tape.cells.getD cell 0

/-- Put a symbol into a cell; a 0 is not kept. -/
def write (tape : Tape) (cell : Int) (symbol : Nat) : Tape :=
  ⟨if symbol = 0 then tape.cells.erase cell else tape.cells.insert cell symbol⟩

/-- The cells that are not 0, by ascending position. -/
def toList (tape : Tape) : List (Int × Nat) :=
  tape.cells.toList

@[simp]
theorem read_blank (cell : Int) : blank.read cell = 0 := by
  simp [read, blank]

theorem read_write (tape : Tape) (cell other : Int) (symbol : Nat) :
    (tape.write cell symbol).read other = if other = cell then symbol else tape.read other := by
  have hc : compare cell other = .eq ↔ other = cell := by
    rw [Std.compare_eq_iff_eq, eq_comm]
  by_cases hs : symbol = 0
  · simp [read, write, hs, Std.TreeMap.getD_erase, hc]
  · simp [read, write, hs, Std.TreeMap.getD_insert, hc]

end Tape

instance : TapeLike Tape where
  read := Tape.read
  write := Tape.write

/-! ## Steps -/

/-- What a machine is at between two steps. -/
structure Config (τ : Type) where
  state : Nat
  head : Int
  tape : τ

variable {τ : Type} [TapeLike τ]

namespace Config

/-- The symbol under the head. -/
def scanned (c : Config τ) : Nat :=
  TapeLike.read c.tape c.head

end Config

/-- The configuration after a transition: the output is written unless it is the wildcard, the
head moves, and control goes to the next state. -/
def Transition.apply (t : Transition) (c : Config τ) : Config τ where
  state := t.next
  head := c.head + t.move.offset
  tape := if t.output = Symbol.wildcard then c.tape else TapeLike.write c.tape c.head t.output

/-! The two representations of a tape take the same steps. -/

/-- The configuration with the tape as a function. -/
def Config.toFun (c : Config Tape) : Config (Int → Nat) :=
  ⟨c.state, c.head, c.tape.read⟩

@[simp]
theorem Config.state_toFun (c : Config Tape) : c.toFun.state = c.state := rfl

@[simp]
theorem Config.scanned_toFun (c : Config Tape) : c.toFun.scanned = c.scanned := rfl

theorem Transition.apply_toFun (t : Transition) (c : Config Tape) :
    t.apply c.toFun = (t.apply c).toFun := by
  by_cases h : t.output = Symbol.wildcard
  · simp [apply, Config.toFun, h]
  · simp only [apply, Config.toFun, h, if_false, Config.mk.injEq, true_and]
    funext cell
    exact (Tape.read_write c.tape c.head cell t.output).symm

namespace Machine

/-- One step of a machine, which fails if the current state does not exist. -/
def step (m : Machine) (c : Config τ) : Except IndexFault (Config τ) :=
  match m.states[c.state]? with
  | none => .error ⟨m.states.size, c.state⟩
  | some s => .ok ((s.lookup c.scanned).apply c)

/-- A step on a tape of finitely many cells is the step on the function that it stands for. -/
theorem step_toFun (m : Machine) (c : Config Tape) :
    m.step c.toFun = (m.step c).map Config.toFun := by
  unfold step
  rw [Config.state_toFun, Config.scanned_toFun]
  cases m.states[c.state]? with
  | none => rfl
  | some s => exact congrArg Except.ok (Transition.apply_toFun _ c)

/-! ## Bounded runs -/

/-- Why a bounded run has ended. -/
inductive Verdict where
  | accept
  | reject
  | limit
  deriving DecidableEq

/-- How a bounded run has ended: the verdict, the last configuration and the number of steps. -/
structure Outcome (τ : Type) where
  verdict : Verdict
  final : Config τ
  steps : Nat

/-- The verdict in a halting state. A state that is both accepting and rejecting accepts. -/
def verdict? (m : Machine) (id : Nat) : Option Verdict :=
  if id = m.accept then some .accept
  else if id = m.reject then some .reject
  else none

/-- Take at most `limit` steps from `c`, of which `steps` precede it, and stop before a step from
a halting state. -/
def runFrom (m : Machine) (limit : Nat) (c : Config τ) (steps : Nat) :
    Except IndexFault (Outcome τ) :=
  match m.verdict? c.state with
  | some verdict => .ok ⟨verdict, c, steps⟩
  | none =>
    match limit with
    | 0 => .ok ⟨.limit, c, steps⟩
    | limit + 1 =>
      match m.step c with
      | .error fault => .error fault
      | .ok c => m.runFrom limit c (steps + 1)

/-- The configuration in which runs begin: the start state, head on cell 0, blank tape. -/
def initial (m : Machine) : Config Tape := ⟨m.start, 0, .blank⟩

/-- Run on a blank tape for at most `limit` steps. -/
def run (m : Machine) (limit : Nat) : Except IndexFault (Outcome Tape) :=
  m.runFrom limit m.initial 0

end Machine

end StackTape
