import StackTape.Draft.Basic

/-!
# Sessions

A session puts operations to a draft, one after the other, and keeps a log of them with what each
was answered. An operation that names a state that does not exist is answered by a fault and
changes nothing; the session goes on after it.
-/

namespace StackTape

/-- What can be asked of a draft. -/
inductive Operation where
  /-- Hand out a state. -/
  | fresh
  /-- Hand out states in a row. -/
  | freshBlock (count : Nat)
  /-- The entry state of a position. -/
  | entryAt (position : Nat)
  | setFallback (id : Nat) (t : Transition)
  | addRule (id : Nat) (t : Transition)
  /-- Count an instruction by the name of its opcode. -/
  | record (name : String)
  | noteCallSites (count : Nat)

/-- Do an operation; the result are the ids of the states that it hands over. -/
def Operation.perform : Operation → DraftM (List Nat)
  | fresh => return [← Draft.fresh]
  | freshBlock count => return List.range' (← Draft.freshBlock count).first count
  | entryAt position => return [← Draft.entryAt position]
  | setFallback id t => do
    Draft.setFallback id t
    return []
  | addRule id t => do
    Draft.addRules id [t]
    return []
  | record name => do
    Draft.recordName name
    return []
  | noteCallSites count => do
    Draft.noteCallSites count
    return []

/-- Operations in order, each with its answer. -/
abbrev Log := List (Operation × Except IndexFault (List Nat))

/-- A draft and what led to it. -/
structure Session where
  draft : Draft
  log : Log

namespace Session

/-- Nothing has been asked yet. -/
def initial : Session := ⟨.initial, []⟩

/-- Put one operation to the draft. -/
def step (s : Session) (op : Operation) : Session :=
  match op.perform s.draft with
  | .ok ids d => ⟨d, s.log ++ [(op, .ok ids)]⟩
  | .error fault d => ⟨d, s.log ++ [(op, .error fault)]⟩

/-- Put operations to the first draft. -/
def run (ops : List Operation) : Session := ops.foldl step initial

end Session

end StackTape
