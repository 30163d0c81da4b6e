import StackTape.Draft.Stats
import StackTape.Machine.Basic
import Std.Data.TreeMap

/-!
# Drafts of machines

A draft is a machine under construction. States are handed out in the order of their ids and wired
afterwards, so that a transition can lead to a state whose own transitions are not known yet. Each
program position has one entry state, handed out when it is first asked for. `DraftM` is the monad
of constructions; naming a state or a table entry that does not exist is a fault and changes
nothing.
-/

namespace StackTape

/-- A machine under construction. -/
structure Draft where
  states : Array State
  /-- The entry states of program positions. -/
  entries : Std.TreeMap Nat Nat
  stats : Stats

/-- Constructions on a draft. -/
abbrev DraftM := EStateM IndexFault Draft

namespace DraftM

@[simp]
theorem pure_apply {α : Type} (a : α) (d : Draft) : (pure a : DraftM α) d = .ok a d := rfl

/-- A construction of two parts: the second goes on from the draft that the first leaves, unless
the first is at fault. -/
theorem bind_apply {α β : Type} (x : DraftM α) (f : α → DraftM β) (d : Draft) :
    (x >>= f) d =
      match x d with
      | .ok a d' => f a d'
      | .error fault d' => .error fault d' := by
  change EStateM.bind x f d = _
  unfold EStateM.bind
  cases x d <;> rfl

end DraftM

/-- A row of `n` states with consecutive ids. -/
structure Block (n : Nat) where
  first : Nat

instance (n : Nat) : GetElem (Block n) Nat Nat (fun _ i => i < n) where
  getElem block i _ := block.first + i

@[simp]
theorem Block.getElem_eq {n : Nat} (block : Block n) (i : Nat) (h : i < n) :
    block[i] = block.first + i := rfl

instance (n : Nat) : GetElem (Block n) (Fin n) Nat (fun _ _ => True) where
  getElem block i _ := block.first + i

@[simp]
theorem Block.getElem_fin {n : Nat} (block : Block n) (i : Fin n) :
    block[i] = block.first + i := rfl

namespace Draft

/-- The draft in which only the two sinks exist. -/
def initial : Draft where
  states := #[.sink Sink.accept, .sink Sink.reject]
  entries := ∅
  stats := .empty

/-- Take the answer of a table; a question that it cannot answer is a fault and changes nothing. -/
def answer {α : Type} (x : Except IndexFault α) : DraftM α := fun d =>
  match x with
  | .ok a => .ok a d
  | .error fault => .error fault d

/-- Hand out a state. -/
def fresh : DraftM Nat := fun ⟨states, entries, stats⟩ =>
  .ok states.size
    ⟨states.push .unwired, entries, { stats with allocated := stats.allocated + 1 }⟩

/-- Hand out `n` states in a row. -/
def freshBlock (n : Nat) : DraftM (Block n) := fun ⟨states, entries, stats⟩ =>
  .ok ⟨states.size⟩
    ⟨states ++ Array.replicate n .unwired, entries, { stats with allocated := stats.allocated + n }⟩

/-- Remember the entry state of a position. -/
def setEntry (position : Nat) (id : Nat) : DraftM Unit := fun ⟨states, entries, stats⟩ =>
  .ok () ⟨states, entries.insert position id, stats⟩

/-- The entry state of a position, which is handed out at the first request. -/
def entryAt (position : Nat) : DraftM Nat := fun d =>
  match d.entries[position]? with
  | some id => .ok id d
  | none => (do
      let id ← fresh
      setEntry position id
      return id : DraftM Nat) d

/-- Change the wiring of a state. -/
def rewire (id : Nat) (f : State → State) : DraftM Unit := fun ⟨states, entries, stats⟩ =>
  if h : id < states.size then .ok () ⟨states.set id (f states[id]), entries, stats⟩
  else .error ⟨states.size, id⟩ ⟨states, entries, stats⟩

/-- Set the fallback of a state. -/
def setFallback (id : Nat) (t : Transition) : DraftM Unit :=
  rewire id fun s => { s with fallback := t }

/-- Append explicit transitions to those of a state. -/
def addRules (id : Nat) (rules : List Transition) : DraftM Unit :=
  rewire id fun s => { s with rules := s.rules ++ rules }

/-- Count an instruction whose opcode has the given name. -/
def recordName (name : String) : DraftM Unit := fun ⟨states, entries, stats⟩ =>
  .ok () ⟨states, entries, stats.record name⟩

/-- Count a compiled instruction. -/
def record (op : Opcode) : DraftM Unit := recordName op.mnemonic

/-- Note the number of call sites. -/
def noteCallSites (count : Nat) : DraftM Unit := fun ⟨states, entries, stats⟩ =>
  .ok () ⟨states, entries, { stats with callSites := count }⟩

/-- The wiring of a state as it is now. -/
def state (id : Nat) : DraftM State := fun d =>
  if h : id < d.states.size then .ok d.states[id] d
  else .error ⟨d.states.size, id⟩ d

/-! ## What the constructions do to a draft -/

@[simp]
theorem answer_ok {α : Type} (a : α) : answer (.ok a) = pure a := rfl

theorem fresh_apply (d : Draft) :
    fresh d = .ok d.states.size
      { d with
        states := d.states.push .unwired
        stats := { d.stats with allocated := d.stats.allocated + 1 } } := rfl

theorem freshBlock_apply (n : Nat) (d : Draft) :
    freshBlock n d = .ok ⟨d.states.size⟩
      { d with
        states := d.states ++ Array.replicate n .unwired
        stats := { d.stats with allocated := d.stats.allocated + n } } := rfl

/-- A position keeps its entry state. -/
theorem entryAt_apply_of_some {position id : Nat} {d : Draft} (h : d.entries[position]? = some id) :
    entryAt position d = .ok id d := by
  simp only [entryAt, h]

/-- A position without an entry state gets a state of its own. -/
theorem entryAt_apply_of_none {position : Nat} {d : Draft} (h : d.entries[position]? = none) :
    entryAt position d = .ok d.states.size
      { states := d.states.push .unwired
        entries := d.entries.insert position d.states.size
        stats := { d.stats with allocated := d.stats.allocated + 1 } } := by
  simp only [entryAt, h]
  rfl

theorem rewire_apply {id : Nat} {f : State → State} {d : Draft} (h : id < d.states.size) :
    rewire id f d = .ok () { d with states := d.states.set id (f d.states[id]) } := by
  simp only [rewire, h, dite_true]

/-- Naming a state that does not exist changes nothing. -/
theorem rewire_apply_of_le {id : Nat} {f : State → State} {d : Draft} (h : d.states.size ≤ id) :
    rewire id f d = .error ⟨d.states.size, id⟩ d := by
  simp only [rewire, Nat.not_lt.mpr h, dite_false]

end Draft

end StackTape
