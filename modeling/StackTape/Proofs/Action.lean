import Mathlib.Tactic
import StackTape.Draft.Wiring

/-!
# Actions on the tape

An action says what a piece of a machine does to the head and the tape, without its states: from
a head position and a tape it leaves by one of its exits, rejects, or goes on for ever. Actions
compose like the pieces that perform them, so every gadget can be described by a short sequence of
them, exactly and on every tape. Main definitions: `Ending`, `Action`, `Action.write`,
`Action.byte`, `Action.loop`.
-/

namespace StackTape

/-- How a piece of a machine ends: by an exit, with the head and the tape as they are then, in the
rejecting sink, or never. -/
inductive Ending (ε : Type) where
  | leave (exit : ε) (head : Int) (tape : Int → Nat)
  | reject
  | hang

/-- What a piece of a machine does, from every head position and on every tape. -/
def Action (ε : Type) : Type := Int → (Int → Nat) → Ending ε

namespace Action

variable {α β ε : Type}

instance : Monad Action where
  pure e := fun h t => .leave e h t
  bind a f := fun h t =>
    match a h t with
    | .leave e h' t' => f e h' t'
    | .reject => .reject
    | .hang => .hang

@[ext]
theorem ext {a b : Action ε} (h : ∀ head tape, a head tape = b head tape) : a = b :=
  funext fun head => funext fun tape => h head tape

@[simp]
theorem pure_apply (e : ε) (h : Int) (t : Int → Nat) : (pure e : Action ε) h t = .leave e h t := rfl

theorem bind_apply (a : Action α) (f : α → Action β) (h : Int) (t : Int → Nat) :
    (a >>= f) h t =
      match a h t with
      | .leave e h' t' => f e h' t'
      | .reject => .reject
      | .hang => .hang := rfl

theorem bind_apply_of_leave {a : Action α} {f : α → Action β} {h h' : Int} {t t' : Int → Nat}
    {e : α} (ha : a h t = .leave e h' t') : (a >>= f) h t = f e h' t' := by
  rw [bind_apply, ha]

theorem bind_apply_of_reject {a : Action α} {f : α → Action β} {h : Int} {t : Int → Nat}
    (ha : a h t = .reject) : (a >>= f) h t = .reject := by
  rw [bind_apply, ha]

theorem bind_apply_of_hang {a : Action α} {f : α → Action β} {h : Int} {t : Int → Nat}
    (ha : a h t = .hang) : (a >>= f) h t = .hang := by
  rw [bind_apply, ha]

theorem bind_apply_congr {a b : Action α} {h : Int} {t : Int → Nat} (hab : a h t = b h t)
    (f : α → Action β) : (a >>= f) h t = (b >>= f) h t := by
  rw [bind_apply, bind_apply, hab]

theorem bind_pure_self (a : Action α) : (a >>= fun e => pure e) = a := by
  ext h t
  rw [bind_apply]
  cases a h t <;> rfl

theorem bind_bind (a : Action α) (f : α → Action β) (g : β → Action ε) :
    ((a >>= f) >>= g) = a >>= fun e => f e >>= g := by
  ext h t
  simp only [bind_apply]
  cases a h t <;> rfl

instance : LawfulMonad Action :=
  LawfulMonad.mk' Action bind_pure_self (fun _ _ => rfl) bind_bind

/-! ## Single steps -/

/-- Write a symbol and move. -/
def write (symbol : Nat) (move : Direction) : Action Unit := fun h t =>
  .leave () (h + move.offset) (Function.update t h symbol)

/-- Move a number of cells without looking at them. -/
def walk (move : Direction) (distance : Nat) : Action Unit := fun h t =>
  .leave () (h + distance * move.offset) t

/-- Take up the byte under the head, write a symbol that depends on it and move; reject what is
not a byte. -/
def byte (output : Fin 256 → Nat) (move : Direction) : Action (Fin 256) := fun h t =>
  if hb : t h < 256 then
    .leave ⟨t h, hb⟩ (h + move.offset) (Function.update t h (output ⟨t h, hb⟩))
  else .reject

/-- The effect of a transition that is taken on every symbol. -/
def take (t : Transition) : Action Unit := fun h tape =>
  .leave () (h + t.move.offset)
    (if t.output = Symbol.wildcard then tape else Function.update tape h t.output)

@[simp]
theorem write_apply (s : Nat) (m : Direction) (h : Int) (t : Int → Nat) :
    write s m h t = .leave () (h + m.offset) (Function.update t h s) := rfl

@[simp]
theorem walk_apply (m : Direction) (n : Nat) (h : Int) (t : Int → Nat) :
    walk m n h t = .leave () (h + n * m.offset) t := rfl

theorem byte_apply {out : Fin 256 → Nat} {m : Direction} {h : Int} {t : Int → Nat}
    (hb : t h < 256) :
    byte out m h t = .leave ⟨t h, hb⟩ (h + m.offset) (Function.update t h (out ⟨t h, hb⟩)) := by
  rw [byte, dif_pos hb]

theorem byte_apply_of_le {out : Fin 256 → Nat} {m : Direction} {h : Int} {t : Int → Nat}
    (hb : 256 ≤ t h) : byte out m h t = .reject := by
  rw [byte, dif_neg (by omega)]

theorem take_skip (m : Direction) (next : Nat) : take (.skip m next) = walk m 1 := by
  ext h t
  simp [take, Transition.skip]

theorem take_write {s : Nat} (hs : s ≠ Symbol.wildcard) (m : Direction) (next : Nat) :
    take (.write s m next) = write s m := by
  ext h t
  simp [take, Transition.write, hs]

theorem walk_zero (m : Direction) : walk m 0 = pure () := by
  ext h t
  simp

theorem walk_stay : walk .stay 1 = pure () := by
  ext h t
  simp [Direction.offset]

theorem walk_succ (m : Direction) (n : Nat) : walk m (n + 1) = (do walk m 1; walk m n) := by
  ext h t
  simp only [walk_apply, bind_apply]
  congr 1
  push_cast
  ring

/-! ## Loops -/

/-- How a loop ends: the first turn that does not go round again decides. -/
inductive LoopEnds (body : α → Action (α ⊕ β)) : α → Int → (Int → Nat) → Ending β → Prop
  | leave {a : α} {b : β} {h h' : Int} {t t' : Int → Nat}
      (hb : body a h t = .leave (.inr b) h' t') : LoopEnds body a h t (.leave b h' t')
  | reject {a : α} {h : Int} {t : Int → Nat} (hb : body a h t = .reject) :
      LoopEnds body a h t .reject
  | hang {a : α} {h : Int} {t : Int → Nat} (hb : body a h t = .hang) : LoopEnds body a h t .hang
  | again {a a' : α} {h h' : Int} {t t' : Int → Nat} {r : Ending β}
      (hb : body a h t = .leave (.inl a') h' t') (rest : LoopEnds body a' h' t' r) :
      LoopEnds body a h t r

open Classical in
/-- Repeat an action that leaves by the left to go round again, and by the right to leave the
loop. -/
noncomputable def loop (body : α → Action (α ⊕ β)) (a : α) : Action β := fun h t =>
  if hx : ∃ r, LoopEnds body a h t r then hx.choose else .hang

section Loop

variable {body : α → Action (α ⊕ β)} {a : α} {h : Int} {t : Int → Nat} {r r' : Ending β}

theorem LoopEnds.unique (h₁ : LoopEnds body a h t r) (h₂ : LoopEnds body a h t r') : r = r' := by
  induction h₁ with
  | leave hb | reject hb | hang hb =>
    cases h₂ with
    | leave hb' | reject hb' | hang hb' | again hb' => cases hb.symm.trans hb' <;> rfl
  | again hb _ ih =>
    cases h₂ with
    | leave hb' | reject hb' | hang hb' => cases hb.symm.trans hb'
    | again hb' rest =>
      cases hb.symm.trans hb'
      exact ih rest

theorem loop_apply (hr : LoopEnds body a h t r) : loop body a h t = r := by
  have hx : ∃ r, LoopEnds body a h t r := ⟨r, hr⟩
  rw [loop, dif_pos hx]
  exact hx.choose_spec.unique hr

theorem loop_apply_of_not (hx : ¬∃ r, LoopEnds body a h t r) : loop body a h t = .hang := by
  rw [loop, dif_neg hx]

theorem loop_leave {b : β} {h' : Int} {t' : Int → Nat}
    (hb : body a h t = .leave (.inr b) h' t') : loop body a h t = .leave b h' t' :=
  loop_apply (.leave hb)

theorem loop_again {a' : α} {h' : Int} {t' : Int → Nat}
    (hb : body a h t = .leave (.inl a') h' t') : loop body a h t = loop body a' h' t' := by
  by_cases hx : ∃ r, LoopEnds body a' h' t' r
  · obtain ⟨r, hr⟩ := hx
    rw [loop_apply (.again hb hr), loop_apply hr]
  · rw [loop_apply_of_not hx, loop_apply_of_not]
    rintro ⟨r, hr⟩
    cases hr with
    | leave hb' | reject hb' | hang hb' => cases hb.symm.trans hb'
    | again hb' rest =>
      cases hb.symm.trans hb'
      exact hx ⟨r, rest⟩

/-- A loop whose every turn leads back to it never ends. -/
theorem loop_apply_of_invariant (inv : α → Int → (Int → Nat) → Prop)
    (hstep : ∀ a h t, inv a h t → ∃ a' h' t', body a h t = .leave (.inl a') h' t' ∧ inv a' h' t')
    (hi : inv a h t) : loop body a h t = .hang := by
  refine loop_apply_of_not ?_
  rintro ⟨r, hr⟩
  induction hr with
  | leave hb | reject hb | hang hb =>
    obtain ⟨a', h', t', hb', -⟩ := hstep _ _ _ hi
    cases hb.symm.trans hb'
  | again hb _ ih =>
    obtain ⟨a', h', t', hb', hi'⟩ := hstep _ _ _ hi
    cases hb.symm.trans hb'
    exact ih hi'

end Loop

/-- Act on every symbol but the given one and look again; act on that one and leave. -/
noncomputable def search (symbol : Nat) (miss hit : Action Unit) : Action Unit :=
  loop (fun _ h t =>
    if t h = symbol then (do hit; return Sum.inr () : Action (Unit ⊕ Unit)) h t
    else (do miss; return Sum.inl () : Action (Unit ⊕ Unit)) h t) ()

/-- Move until a symbol is under the head, overwrite it and move. -/
noncomputable def find (move : Direction) (symbol output : Nat) (then_ : Direction) :
    Action Unit :=
  search symbol (walk move 1) (write output then_)

/-! ## Repetition -/

/-- Actions that depend on their index, one after the other, from a given index on. -/
def sequence (link : Nat → Action Unit) : (count index : Nat) → Action Unit
  | 0, _ => pure ()
  | count + 1, index => do
    link index
    sequence link count (index + 1)

/-- The same action again and again. -/
def iterate (a : Action Unit) : (count : Nat) → Action Unit
  | 0 => pure ()
  | count + 1 => do
    a
    iterate a count

theorem iterate_walk (m : Direction) (n : Nat) : iterate (walk m 1) n = walk m n := by
  induction n with
  | zero => exact (walk_zero m).symm
  | succ n ih => rw [iterate, ih, ← walk_succ]

theorem sequence_const (a : Action Unit) (n i : Nat) : sequence (fun _ => a) n i = iterate a n := by
  induction n generalizing i with
  | zero => rfl
  | succ n ih => rw [sequence, iterate, ih]

end Action

end StackTape
