import StackTape.Proofs.CallReturn
import StackTape.Proofs.StaleCells

/-!
# Running one instruction

The machine of a program, started in the entry state of a position with any head and any tape,
either hands over to the entry state of another position (`Compilation.Passes`) or halts in
rejection (`Compilation.RejectsAt`). Most instructions go on at the next position; for these
`passes_of_next`, `rejectsAt_of_next` and `decides_of_next` turn what is known of their action into
what the machine does.
-/

namespace StackTape

namespace Compilation

/-- From the entry state of position `j`, with head `h` and tape `t`, the machine gets to the entry
state of position `q` with head `h'` and tape `t'`. -/
def Passes (c : Compilation) (j : Nat) (h : Int) (t : Int → Nat) (q : Nat) (h' : Int)
    (t' : Int → Nat) : Prop :=
  ∃ s s', c.entries[j]? = some s ∧ c.entries[q]? = some s' ∧
    c.machine.Reaches ⟨s, h, t⟩ ⟨s', h', t'⟩

/-- From the entry state of position `j`, with head `h` and tape `t`, the machine halts in
rejection. -/
def RejectsAt (c : Compilation) (j : Nat) (h : Int) (t : Int → Nat) : Prop :=
  ∃ s e, c.entries[j]? = some s ∧ c.machine.HaltsIn .reject ⟨s, h, t⟩ e

theorem Passes.trans {c : Compilation} {j q r : Nat} {h h' h'' : Int} {t t' t'' : Int → Nat}
    (h₁ : c.Passes j h t q h' t') (h₂ : c.Passes q h' t' r h'' t'') : c.Passes j h t r h'' t'' := by
  obtain ⟨s, s₁, hs, hs₁, hreach₁⟩ := h₁
  obtain ⟨s₂, s', hs₂, hs', hreach₂⟩ := h₂
  obtain rfl : s₁ = s₂ := Option.some.inj (hs₁.symm.trans hs₂)
  exact ⟨s, s', hs, hs', hreach₁.trans hreach₂⟩

namespace Finishes

variable {c : Compilation} {p : Program} {sites : CallSites} {σ : Stage} {j : Nat}
  {i : Instruction} {a : Action Unit} {h h' : Int} {t t' : Int → Nat}

theorem haltsIn_reject (hf : c.Finishes p sites σ) {d : Config (Int → Nat)}
    (hr : c.machine.Reaches d ⟨Sink.reject, h', t'⟩) :
    c.machine.HaltsIn .reject d ⟨Sink.reject, h', t'⟩ :=
  hf.wellFormed.haltsIn hr hf.verdict?_reject

theorem passes_of_next (hf : c.Finishes p sites σ) (hi : p[j]? = some i)
    (hnext : i.action sites j = Instruction.action.next j a) (ha : a h t = .leave () h' t') :
    c.Passes j h t (j + 1) h' t' := by
  refine hf.reaches_of_action hi ?_
  rw [hnext]
  exact Action.bind_apply_of_leave ha

theorem rejectsAt_of_next (hf : c.Finishes p sites σ) (hi : p[j]? = some i)
    (hnext : i.action sites j = Instruction.action.next j a) (ha : a h t = .reject) :
    c.RejectsAt j h t := by
  have hreject : i.action sites j h t = .reject := by
    rw [hnext]
    exact Action.bind_apply_of_reject ha
  obtain ⟨s, h', t', hs, hreach⟩ := hf.rejects_of_action hi hreject
  exact ⟨s, _, hs, hf.haltsIn_reject hreach⟩

/-- A condition on the head and the tape decides whether the next position is reached. -/
theorem decides_of_next {ok : Prop} [Decidable ok] (hf : c.Finishes p sites σ) (hi : p[j]? = some i)
    (hnext : i.action sites j = Instruction.action.next j a)
    (ha : a h t = if ok then .leave () h' t' else .reject) :
    (ok → c.Passes j h t (j + 1) h' t') ∧ (¬ok → c.RejectsAt j h t) := by
  constructor
  · intro hok
    rw [if_pos hok] at ha
    exact hf.passes_of_next hi hnext ha
  · intro hok
    rw [if_neg hok] at ha
    exact hf.rejectsAt_of_next hi hnext ha

/-- A load of a variable that lies between the nearest marker of its frame and the free cell copies
its cells, if they hold bytes. -/
theorem load_decides {f : Frame} {w : Width} {m : Int} (hf : c.Finishes p sites σ)
    (hi : p[j]? = some i) (hop : i.opcode = .load f w) (hno : Unmarked t)
    (hn : IsNearest t f.marker h m) (hle : m + 1 + i.operand1 + w.bytes ≤ h) :
    (Data t (m + 1 + i.operand1) (m + 1 + i.operand1 + w.bytes) →
      c.Passes j h t (j + 1) (h + w.bytes)
        (overlay t h (h + w.bytes) fun x => t (x - (h - (m + 1 + i.operand1))))) ∧
    (¬Data t (m + 1 + i.operand1) (m + 1 + i.operand1 + w.bytes) → c.RejectsAt j h t) := by
  have hnext : i.action sites j = Instruction.action.next j (.load w f.marker i.operand1) := by
    simp only [Instruction.action, hop]
  have hload := Action.load_apply hno f.le_marker (h := h) w i.operand1
  rw [Reference.load_of_le hn hle] at hload
  exact hf.decides_of_next hi hnext hload

end Finishes

end Compilation

end StackTape
