import StackTape.Proofs.Wiring

/-!
# What the gadgets on the top of the stack perform

Pushing, dropping, copying and exchanging values, laying out frames, and the gadgets that only
choose where to go on. Each gadget is wired for an action that is the same sequence of moves and
writes; what these sequences come to is a matter of tapes alone.
-/

namespace StackTape

open Stage

theorem Symbol.byte_le {v : Nat} (h : v < 256) : v ≤ Symbol.globalPointer := by
  simp only [Symbol.globalPointer]
  omega

theorem Draft.byteAt_lt (value i : Nat) : Draft.byteAt value i < 256 :=
  Nat.mod_lt _ (by decide)

theorem Width.bytes_pos (w : Width) : 0 < w.bytes := by
  cases w <;> decide

namespace Action

/-- Put a constant on the stack, least significant byte first. -/
def push (w : Width) (value : Nat) : Action Unit :=
  sequence (fun i => write (Draft.byteAt value i) .right) w.bytes 0

/-- Clear cells from the free cell down. -/
def pop (w : Width) : Action Unit := sequence (fun _ => write 0 .left) w.bytes 0

/-- Copy the byte `distance` cells below the head to the cell under it, and move one cell up. -/
def copyByte (distance : Nat) : Action Unit := do
  walk .left distance
  let v ← byte Fin.val .right
  walk .right (distance - 1)
  write v .right

/-- Put a copy of the top value on the stack. -/
def dup (w : Width) : Action Unit := sequence (fun _ => copyByte w.bytes) w.bytes 0

/-- Put the byte under the head in the place of the one `span` cells below it, and take that one
up. -/
def bringDown (span : Nat) : Action (Fin 256) := do
  let upper ← byte Fin.val .left
  walk .left (span - 1)
  byte (fun _ => upper) .right

/-- Exchange the byte under the head with the one `span` cells below it, and move one cell up. -/
def exchangeByte (span : Nat) : Action Unit := do
  let lower ← bringDown span
  walk .right (span - 1)
  write lower .right

/-- Exchange the top value with the one that `offset` cells separate from it. -/
def swap (w : Width) (offset : Nat) : Action Unit := do
  walk .left w.bytes
  sequence (fun _ => exchangeByte (w.bytes + offset)) w.bytes 0

/-- Put zeros on the stack. -/
def alloc (cells : Nat) : Action Unit := sequence (fun _ => write 0 .right) cells 0

/-- Clear the free cell and the cells below it. -/
def free (cells : Nat) : Action Unit := do
  iterate (write 0 .left) cells
  write 0 .stay

/-- Move a number of bytes one cell up, with the byte of the cell below in hand. -/
def shiftUp : (cells : Nat) → (below : Fin 256) → Action Unit
  | 0, below => write below .right
  | cells + 1, below => do
    let v ← byte (fun _ => below) .right
    shiftUp cells v

/-- Insert the argument marker below the bytes on top of the stack. -/
def makeArgs : (cells : Nat) → Action Unit
  | 0 => write Symbol.argPointer .right
  | cells + 1 => do
    walk .left (cells + 1)
    let v ← byte (fun _ => Symbol.argPointer) .right
    shiftUp cells v

/-- Pop a byte and tell whether it is zero. -/
def popFlag : Action Bool := do
  walk .left 1
  let v ← byte (fun _ => 0) .stay
  return v.val = 0

end Action

namespace Gadget

variable {k : Scope} {σ : Stage} {entry exit : Nat}

/-! ## Values -/

theorem push_wires (w : Width) (value : Nat) (he : σ.Target k exit) :
    Wires k σ entry (push w value entry exit) (fun _ => exit) (.push w value) :=
  chain_wires w.bytes_pos he fun i _ _ _ _ hn =>
    write_wires (Symbol.byte_le (Draft.byteAt_lt value i)) .right hn

theorem pop_wires (w : Width) (he : σ.Target k exit) :
    Wires k σ entry (pop w entry exit) (fun _ => exit) (.pop w) :=
  chain_wires w.bytes_pos he fun _ _ _ _ _ hn => write_wires (Nat.zero_le _) .left hn

theorem copyByte_wires (distance : Nat) (he : σ.Target k exit) :
    Wires k σ entry (copyByte distance entry exit) (fun _ => exit) (.copyByte distance) := by
  refine walk_wires .left distance fun source σ₁ he₁ =>
    branch_wires (fun b => Symbol.byte_le b.isLt) fun b σ₂ he₂ => ?_
  have harm := arm_builds (k := k) (σ := σ₂) b b .right fun carry σ₃ he₃ _ _ =>
    walk_wires .right (distance - 1) fun dest σ₄ he₄ => write_wires (Symbol.byte_le b.isLt) .right
      (he.mono (he₁.trans (he₂.trans (he₃.trans he₄))))
  simpa only [bind_assoc] using harm

theorem dup_wires (w : Width) (he : σ.Target k exit) :
    Wires k σ entry (dup w entry exit) (fun _ => exit) (.dup w) :=
  chain_wires w.bytes_pos he fun _ _ _ _ _ hn => copyByte_wires w.bytes hn

theorem exchangeByte_wires (span : Nat) (he : σ.Target k exit) :
    Wires k σ entry (exchangeByte span entry exit) (fun _ => exit) (.exchangeByte span) := by
  refine freshBlock_wires (fun back σ₁ _ hback => ?_) fun back σ₁ he₁ _ _ => ?_
  · refine branch_wires (fun b => Symbol.byte_le b.isLt) fun upper σ₂ he₂ => ?_
    have harm := arm_builds (k := k) (σ := σ₂) upper upper .left fun carry σ₃ he₃ _ _ =>
      walk_wires .left (span - 1) fun partner σ₄ he₄ =>
        byteRules_wires .right (fun _ => Symbol.byte_le upper.isLt)
          fun lower => (hback lower).mono (he₂.trans (he₃.trans he₄))
    simp only [bind_assoc] at harm
    exact harm
  · refine forM_wiresRow fun lower σ₂ he₂ => walk_wires .right (span - 1) fun cell σ₃ he₃ => ?_
    exact write_wires (Symbol.byte_le lower.isLt) .right (he.mono (he₁.trans (he₂.trans he₃)))

theorem swap_wires (w : Width) (offset : Nat) (he : σ.Target k exit) :
    Wires k σ entry (swap w offset entry exit) (fun _ => exit) (.swap w offset) :=
  walk_wires .left w.bytes fun _ _ he₁ => chain_wires w.bytes_pos (he.mono he₁) fun _ _ _ _ _ hn =>
    exchangeByte_wires (w.bytes + offset) hn

/-! ## Frames -/

theorem enter_wires (he : σ.Target k exit) :
    Wires k σ entry (enter entry exit) (fun _ => exit)
      (.write Symbol.basePointer .right) :=
  write_wires (by decide) .right he

theorem alloc_wires (cells : Nat) (he : σ.Target k exit) (hne : exit ≠ Sink.reject) :
    Wires k σ entry (alloc cells entry exit) (fun _ => exit) (.alloc cells) := by
  unfold alloc
  split
  · next h =>
    subst h
    exact stay_wires he (.inl hne)
  · exact chain_wires (by omega) he fun _ _ _ _ _ hn => write_wires (Nat.zero_le _) .right hn

theorem free_wires (cells : Nat) (he : σ.Target k exit) :
    Wires k σ entry (free cells entry exit) (fun _ => exit) (.free cells) := by
  intro hl hw
  have htrail : Builds k σ (Draft.trail (.write 0 .left) cells entry) _ :=
    trail_builds (fun _ _ _ hn _ => write_wires (Nat.zero_le _) .left hn) cells hl hw
  refine htrail.bind fun last σ₁ he₁ ⟨hc₁, hnew, hp₁⟩ => ?_
  obtain ⟨hl₁, hw₁⟩ := hc₁.opened (s := last) rfl
  have hlast : Wires k σ₁ last (Draft.setFallback last (.write 0 .stay exit)) (fun _ => exit) _ :=
    write_wires (Nat.zero_le _) .stay (he.mono he₁)
  refine (hlast hl₁ hw₁).imp fun _ σ₂ he₂ ⟨hc₂, hp₂⟩ => ⟨?_, fun c h => ?_⟩
  · exact hc₁.replace hc₂ he₁.size_le (by omega)
  · exact hp₁.mono he₂ c h _ _ _ (hp₂ c h)

theorem shiftUp_wires (cells : Nat) (carried : Block 256) (he : σ.Target k exit) :
    WiresRow k σ carried (shiftUp exit cells carried) (fun _ => exit) (Action.shiftUp cells) := by
  induction cells generalizing σ carried with
  | zero =>
    exact forM_wiresRow fun below _ he₁ =>
      write_wires (Symbol.byte_le below.isLt) .right (he.mono he₁)
  | succ cells ih =>
    refine freshBlock_wiresRow (fun next σ₁ _ hnext => ?_) fun next σ₁ he₁ => ih next (he.mono he₁)
    exact forM_wiresRow fun below σ₂ he₂ =>
      byteRules_wires .right (fun _ => Symbol.byte_le below.isLt) fun v => (hnext v).mono he₂

theorem makeArgs_wires (cells : Nat) (he : σ.Target k exit) :
    Wires k σ entry (makeArgs cells entry exit) (fun _ => exit) (.makeArgs cells) := by
  cases cells with
  | zero => exact write_wires (by decide) .right he
  | succ cells =>
    refine walk_wires .left (cells + 1) fun lowest σ₁ he₁ => ?_
    refine freshBlock_wires (fun carried σ₂ _ hcarried => ?_) fun carried σ₂ he₂ _ _ => ?_
    · exact byteRules_wires .right (fun _ => by decide) hcarried
    · exact shiftUp_wires cells carried (he.mono (he₁.trans he₂))

/-! ## Jumps -/

theorem jump_wires {target : Nat} (ht : σ.Target k target) (hne : target ≠ Sink.reject ∨ k.idle) :
    Wires k σ entry (jump entry target) (fun _ => target) (pure ()) :=
  stay_wires ht hne

theorem branchOnZero_wires {onZero onNonzero : Nat} (hz : σ.Target k onZero)
    (hn : σ.Target k onNonzero) :
    Wires k σ entry (branchOnZero entry onZero onNonzero)
      (fun zero : Bool => if zero then onZero else onNonzero) .popFlag := by
  refine fresh_wires (fun _ _ _ ht => skip_wires .left ht (.inl nofun))
    fun condition σ₁ he₁ _ _ => ?_
  have hnext : ∀ v : Fin 256, σ₁.Target k (if v.val = 0 then onZero else onNonzero) := by
    intro v
    split
    · exact hz.mono he₁
    · exact hn.mono he₁
  refine Wires.map (fun v => decide (v.val = 0))
    (byteRules_wires .stay (fun _ => Nat.zero_le _) hnext) fun v => ?_
  simp only [decide_eq_true_eq]

end Gadget

end StackTape
