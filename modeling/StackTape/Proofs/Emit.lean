import StackTape.Proofs.Gadget.Arithmetic
import StackTape.Proofs.Gadget.Call
import StackTape.Proofs.Reference

/-!
# Instructions in their place

The gadget of an instruction begins in the entry state of its position and hands over to entry
states of its successors. Between two instructions the draft is in order (`Stage.Ready`): the live
states are the entry states of the positions to come, and none of them is wired. `emit_builds` says
that an instruction keeps this order, wires nothing else, and performs `Instruction.action` from its
entry state in the finished machine.
-/

namespace StackTape

open Stage

/-! ## What an instruction performs -/

/-- The state that stands for an exit. -/
def Compilation.exitState (c : Compilation) : Exit → Nat
  | .goto q => c.entryOf q
  | .accept => Sink.accept

namespace Instruction

/-- The positions that an instruction can go on to. -/
def successors (sites : CallSites) (position : Nat) (i : Instruction) : List Nat :=
  match i.opcode with
  | .jump | .call => [i.target]
  | .jumpIfZero | .jumpIfNonzero => [position + 1, i.target]
  | .ret => sites.addresses
  | .accept | .reject => []
  | _ => [position + 1]

/-- What the gadget of an instruction does to the tape, and by which exit it leaves. -/
noncomputable def action (sites : CallSites) (position : Nat) (i : Instruction) : Action Exit :=
  match i.opcode with
  | .push w => next (.push w i.operand1)
  | .pop w => next (.pop w)
  | .dup w => next (.dup w)
  | .swap w => next (.swap w i.operand1)
  | .enter => next (.write Symbol.basePointer .right)
  | .alloc => next (.alloc i.operand1)
  | .free => next (.free i.operand1)
  | .load f w => next (.load w f.marker i.operand1)
  | .loadIndirect f w => next do
    let index ← Action.popIndex i.operand2
    Action.load w f.marker (i.operand1 + index)
  | .store f w => next (.store w f.marker i.operand1)
  | .storeIndirect f w => next do
    let index ← Action.popIndex i.operand2
    Action.store w f.marker (i.operand1 + index)
  | .makeArgs => next (.makeArgs i.operand1)
  | .binary op w => next (.binary op w)
  | .indexShift => next (.indexShift i.operand1)
  | .jump => pure (.goto i.target)
  | .jumpIfZero => do
    let zero ← Action.popFlag
    return .goto (if zero then i.target else position + 1)
  | .jumpIfNonzero => do
    let zero ← Action.popFlag
    return .goto (if zero then position + 1 else i.target)
  | .call => do
    Action.call ((sites.idAt? position).getD 0)
    return .goto i.target
  | .ret => do
    let id ← Action.ret sites.addresses.length
    return .goto (sites.addresses.get id)
  | .setReturn w => next (.setReturn w)
  | .accept => pure .accept
  | .reject => fun _ _ => .reject
where
  /-- Fall through to the next position. -/
  next (a : Action Unit) : Action Exit := do
    a
    return .goto (position + 1)

/-- A state of the gadget of an instruction may be as it was handed out: such states reject at once,
which is what a rejecting instruction does, a return if there are no calls, and an access if there
is no index. -/
def Idle (sites : CallSites) (i : Instruction) : Prop :=
  i.opcode = .reject ∨ (i.opcode = .ret ∧ sites.count = 0) ∨
    ((∃ f w, i.opcode = .loadIndirect f w ∨ i.opcode = .storeIndirect f w) ∧ i.operand2 = 0)

/-- Where the states of the gadget of an instruction may lead. A return leads back to its own entry
state as long as it has not found the marker. -/
def scope (sites : CallSites) (position : Nat) (i : Instruction) (base : Nat) : Scope where
  base := base
  goal q := q ∈ i.successors sites position ∨ (i.opcode = .ret ∧ q = position)
  accepting := i.opcode = .accept
  idle := i.Idle sites

end Instruction

/-- The states that the machine may pass while it deals with an instruction: inner ones, and for a
return, which looks for its marker there, the entry state of its position. -/
def Compilation.PassedBy (c : Compilation) (position : Nat) (op : Opcode) (id : Nat) : Prop :=
  c.Inner id ∨ (op = .ret ∧ id = c.entryOf position)

/-- From the entry state of a position on, the machine does what an action says and passes no states
but those of an instruction with the given opcode. -/
def Compilation.PerformsAt (c : Compilation) (position : Nat) (op : Opcode) (a : Action Exit) :
    Prop :=
  c.machine.Performs (c.PassedBy position op) (c.entryOf position) c.exitState a

/-! ## Drafts in order -/

/-- The instructions before `position` have been dealt with: their entry states are settled, and the
entry states of the others are live and not wired. -/
structure Stage.Ready (σ : Stage) (position : Nat) : Prop where
  entered : ∀ q, q < position → ∃ id, σ.entry q = some id
  live : ∀ id, σ.live id ↔ ∃ q, position ≤ q ∧ σ.entry q = some id
  unwired : ∀ q id, position ≤ q → σ.entry q = some id → σ.wiring id = some .unwired

namespace Stage.Ready

variable {k : Scope} {σ σ' : Stage} {position position' entry : Nat}

/-- The order is kept by a construction that closes the entry states of the next few positions. -/
theorem advance {C : Nat → Prop} (hr : σ.Ready position) (hx : σ.Extends C C σ')
    (he : σ.Evolves k σ') (hle : position ≤ position')
    (hC : ∀ q id, σ.entry q = some id → position ≤ q → (C id ↔ q < position'))
    (hq : ∀ q, q < position' → ∃ id, σ.entry q = some id) : σ'.Ready position' := by
  have hnew : ∀ q id, σ'.entry q = some id → position' ≤ q →
      (σ.entry q = some id ∧ ¬C id) ∨ σ.size ≤ id := by
    intro q id h hpos
    rcases he.entry_new q id h with hold | hnew
    · refine .inl ⟨hold, fun hc => ?_⟩
      have := (hC q id hold (Nat.le_trans hle hpos)).1 hc
      omega
    · exact .inr hnew
  refine ⟨fun q h => ?_, fun id => ?_, fun q id hpos h => ?_⟩
  · obtain ⟨id, hid⟩ := hq q h
    exact ⟨id, he.entry q id hid⟩
  · rw [hx.live]
    constructor
    · rintro (⟨hl, hc⟩ | ⟨hle', q, h⟩)
      · obtain ⟨q, hpos, h⟩ := (hr.live id).1 hl
        exact ⟨q, Nat.not_lt.1 fun hlt => hc ((hC q id h hpos).2 hlt), he.entry q id h⟩
      · refine ⟨q, Nat.not_lt.1 fun hlt => ?_, h⟩
        -- a position that has been dealt with keeps the entry state it has
        obtain ⟨id', hid'⟩ := hq q hlt
        obtain rfl : id = id' := Option.some.inj (h.symm.trans (he.entry q id' hid'))
        exact absurd (σ.entry_lt hid') (Nat.not_lt.2 hle')
    · rintro ⟨q, hpos, h⟩
      rcases hnew q id h hpos with ⟨hold, hc⟩ | hnew
      · exact .inl ⟨(hr.live id).2 ⟨q, Nat.le_trans hle hpos, hold⟩, hc⟩
      · exact .inr ⟨hnew, q, h⟩
  · rcases hnew q id h hpos with ⟨hold, hc⟩ | hnew
    · rw [hx.wiring id (σ.entry_lt hold) hc]
      exact hr.unwired q id (Nat.le_trans hle hpos) hold
    · exact hx.unwired q id h hnew

theorem enter {q id : Nat} (hr : σ.Ready position) (h : σ.Enters q id σ') (he : σ.Evolves k σ') :
    σ'.Ready position :=
  hr.advance h.extends he (Nat.le_refl _)
    (fun _ _ _ hle => iff_of_false (fun h => h) (Nat.not_lt.2 hle)) hr.entered

theorem close (hr : σ.Ready position) (hentry : σ.entry position = some entry)
    (hx : σ.Extends (only entry) (only entry) σ') (he : σ.Evolves k σ') :
    σ'.Ready (position + 1) := by
  refine hr.advance hx he (Nat.le_succ _) (fun q id h hle => ⟨?_, fun hlt => ?_⟩) fun q hlt => ?_
  · rintro rfl
    rw [σ.entry_inj h hentry]
    exact Nat.lt_succ_self _
  · obtain rfl : q = position := by omega
    exact Option.some.inj (h.symm.trans hentry)
  · rcases Nat.lt_succ_iff_lt_or_eq.1 hlt with hlt | rfl
    · exact hr.entered q hlt
    · exact ⟨entry, hentry⟩

theorem entry_live (hr : σ.Ready position) (hentry : σ.entry position = some entry) :
    σ.live entry ∧ σ.wiring entry = some .unwired :=
  ⟨(hr.live entry).2 ⟨position, Nat.le_refl _, hentry⟩,
    hr.unwired position entry (Nat.le_refl _) hentry⟩

end Stage.Ready

/-! ## Emission -/

section Emit

variable {k : Scope} {σ : Stage} {position entry : Nat} {op : Opcode} {ε : Type}

/-- A gadget that wires the entry state of the next position. -/
theorem Wires.emits {x : DraftM Unit} {exit : ε → Nat} {a : Action ε} {f : ε → Exit}
    (h : Wires k σ entry x exit a) (hr : σ.Ready position) (hentry : σ.entry position = some entry)
    (hf : σ.Ensures fun c => ∀ e, exit e = c.exitState (f e)) :
    Builds k σ x fun _ σ' => σ'.Ready (position + 1) ∧
      σ'.Ensures (·.PerformsAt position op (do return f (← a))) := by
  obtain ⟨hl, hw⟩ := hr.entry_live hentry
  refine (h hl hw).imp fun _ σ' he ⟨hc, hp⟩ => ⟨hr.close hentry hc.extends he, fun c h => ?_⟩
  have hmap := (hp c h).map (hf.mono he c h)
  change c.PerformsAt position _ _
  rw [Compilation.PerformsAt, (h.of_evolves he).entryOf hentry]
  exact hmap.mono fun _ => .inl

/-- A gadget that hands over to one position. -/
theorem goto_emits (op : Opcode) {x : Nat → DraftM Unit} {a : Action Unit} (q : Nat)
    (hq : k.goal q) (hr : σ.Ready position) (hentry : σ.entry position = some entry)
    (hx : ∀ next σ', σ'.Target k next → next ≠ Sink.reject →
      Wires k σ' entry (x next) (fun _ => next) a) :
    Builds k σ (do x (← Draft.entryAt q)) fun _ σ' => σ'.Ready (position + 1) ∧
      σ'.Ensures (·.PerformsAt position op (do a; return .goto q)) := by
  refine (entryAt_builds q).bind fun next σ₁ he₁ h₁ => ?_
  have hne : next ≠ Sink.reject := Nat.ne_of_gt (σ₁.two_le_entry h₁.entry_self)
  refine (hx next σ₁ (.goal q hq h₁.entry_self) hne).emits (hr.enter h₁ he₁)
    (he₁.entry _ _ hentry) fun c h _ => ?_
  exact (h.entryOf h₁.entry_self).symm

/-- A gadget that chooses between two positions. -/
theorem branch_emits {x : Nat → Nat → DraftM Unit} {out : Nat → Nat → ε → Nat} {dest : ε → Nat}
    {a : Action ε} (q r : Nat) (hq : k.goal q) (hr : k.goal r) (hready : σ.Ready position)
    (hentry : σ.entry position = some entry)
    (hout : ∀ (g : Nat → Nat) e, out (g q) (g r) e = g (dest e))
    (hx : ∀ s t σ', σ'.Target k s → σ'.Target k t → Wires k σ' entry (x s t) (out s t) a) :
    Builds k σ (do let s ← Draft.entryAt q; x s (← Draft.entryAt r)) fun _ σ' =>
      σ'.Ready (position + 1) ∧
        σ'.Ensures (·.PerformsAt position op (do return .goto (dest (← a)))) := by
  refine (entryAt_builds q).bind fun s σ₁ he₁ h₁ => (entryAt_builds r).bind fun t σ₂ he₂ h₂ => ?_
  have hs : σ₂.entry q = some s := he₂.entry _ _ h₁.entry_self
  refine (hx s t σ₂ (.goal q hq hs) (.goal r hr h₂.entry_self)).emits
    ((hready.enter h₁ he₁).enter h₂ he₂) ((he₁.trans he₂).entry _ _ hentry) fun c h e => ?_
  rw [← h.entryOf hs, ← h.entryOf h₂.entry_self]
  exact hout c.entryOf e

/-- An instruction keeps the draft in order and performs its action from the entry state of its
position. -/
theorem emit_builds {sites : CallSites} (hsites : sites.addresses.length ≤ maxCallSites)
    (i : Instruction) (hr : σ.Ready position) :
    Builds (i.scope sites position σ.size) σ (Draft.emit sites position i) fun _ σ' =>
      σ'.Ready (position + 1) ∧
        σ'.Ensures (·.PerformsAt position i.opcode (i.action sites position)) := by
  refine (entryAt_builds position).bind fun entry σ₁ he₁ h₁ => ?_
  have hr₁ := hr.enter h₁ he₁
  have hentry := h₁.entry_self
  generalize hk : i.scope sites position σ.size = k at he₁ ⊢
  have hgoal : ∀ q ∈ i.successors sites position, k.goal q := fun q hq => hk ▸ .inl hq
  have hnext := fun {x a} hm => goto_emits i.opcode (x := x) (a := a) (position + 1)
    (hgoal (position + 1) hm) hr₁ hentry
  obtain ⟨opcode, operand1, operand2, target⟩ := i
  cases opcode with
  | push w => exact hnext List.mem_cons_self fun _ _ ht _ => Gadget.push_wires w operand1 ht
  | pop w => exact hnext List.mem_cons_self fun _ _ ht _ => Gadget.pop_wires w ht
  | dup w => exact hnext List.mem_cons_self fun _ _ ht _ => Gadget.dup_wires w ht
  | swap w => exact hnext List.mem_cons_self fun _ _ ht _ => Gadget.swap_wires w operand1 ht
  | enter => exact hnext List.mem_cons_self fun _ _ ht _ => Gadget.enter_wires ht
  | alloc => exact hnext List.mem_cons_self fun _ _ ht hne => Gadget.alloc_wires operand1 ht hne
  | free => exact hnext List.mem_cons_self fun _ _ ht _ => Gadget.free_wires operand1 ht
  | load f w =>
    exact hnext List.mem_cons_self fun _ _ ht _ =>
      Gadget.load_wires w (Gadget.Frame.marker_le f) operand1 ht
  | loadIndirect f w =>
    have hbound : 0 < operand2 ∨ k.idle := (Nat.eq_zero_or_pos _).symm.imp_right fun hnone =>
      hk ▸ .inr (.inr ⟨⟨f, w, .inl rfl⟩, hnone⟩)
    exact hnext List.mem_cons_self fun _ _ ht _ => Gadget.indirect_wires hbound fun index _ _ he =>
      Gadget.load_wires w (Gadget.Frame.marker_le f) (operand1 + index) (ht.mono he)
  | store f w =>
    exact hnext List.mem_cons_self fun _ _ ht _ =>
      Gadget.store_wires w (Gadget.Frame.marker_le f) operand1 ht
  | storeIndirect f w =>
    have hbound : 0 < operand2 ∨ k.idle := (Nat.eq_zero_or_pos _).symm.imp_right fun hnone =>
      hk ▸ .inr (.inr ⟨⟨f, w, .inr rfl⟩, hnone⟩)
    exact hnext List.mem_cons_self fun _ _ ht _ => Gadget.indirect_wires hbound fun index _ _ he =>
      Gadget.store_wires w (Gadget.Frame.marker_le f) (operand1 + index) (ht.mono he)
  | makeArgs => exact hnext List.mem_cons_self fun _ _ ht _ => Gadget.makeArgs_wires operand1 ht
  | binary op w => exact hnext List.mem_cons_self fun _ _ ht _ => Gadget.binary_wires op w ht
  | indexShift => exact hnext List.mem_cons_self fun _ _ ht _ => Gadget.indexShift_wires operand1 ht
  | setReturn w => exact hnext List.mem_cons_self fun _ _ ht _ => Gadget.setReturn_wires w ht
  | jump =>
    exact goto_emits _ target (hgoal target List.mem_cons_self) hr₁ hentry
      fun _ _ ht hne => Gadget.jump_wires ht (.inl hne)
  | call =>
    exact goto_emits _ target (hgoal target List.mem_cons_self) hr₁ hentry
      fun _ _ ht _ => Gadget.call_wires _ ht
  | jumpIfZero =>
    exact branch_emits (position + 1) target (hgoal _ (by simp [Instruction.successors]))
      (hgoal _ (by simp [Instruction.successors])) hr₁ hentry
      (fun g zero => (apply_ite g (zero = true) target (position + 1)).symm)
      fun _ _ _ hs ht => Gadget.branchOnZero_wires ht hs
  | jumpIfNonzero =>
    exact branch_emits (position + 1) target (hgoal _ (by simp [Instruction.successors]))
      (hgoal _ (by simp [Instruction.successors])) hr₁ hentry
      (fun g zero => (apply_ite g (zero = true) (position + 1) target).symm)
      fun _ _ _ hs ht => Gadget.branchOnZero_wires hs ht
  | ret =>
    obtain ⟨hl, hw⟩ := hr₁.entry_live hentry
    have hcalls : 0 < sites.count ∨ k.idle :=
      (Nat.eq_zero_or_pos _).symm.imp_right fun hnone => hk ▸ .inr (.inl ⟨rfl, hnone⟩)
    have hself : σ₁.Target k entry := .goal position (hk ▸ .inr ⟨rfl, rfl⟩) hentry
    refine (Gadget.ret_builds hcalls hl hw hself hgoal hsites).imp fun _ σ₂ he₂ ⟨hx, hp⟩ =>
      ⟨hr₁.close hentry hx he₂, fun c h => ?_⟩
    have hmap : c.machine.Performs (fun id => c.Inner id ∨ id = entry) entry c.exitState
        (Instruction.action sites position ⟨.ret, operand1, operand2, target⟩) :=
      (hp c h).1.map fun _ => rfl
    change c.PerformsAt position _ _
    rw [Compilation.PerformsAt, (h.of_evolves he₂).entryOf hentry]
    refine hmap.mono fun id hid => hid.imp_right fun hid => ⟨rfl, ?_⟩
    rw [hid, (h.of_evolves he₂).entryOf hentry]
  | accept =>
    exact (Gadget.jump_wires (.accept rfl (hk ▸ rfl)) (.inl (by decide))).emits hr₁ hentry
      (f := fun _ => .accept) fun _ _ _ => rfl
  | reject =>
    obtain ⟨hl, hw⟩ := hr₁.entry_live hentry
    refine (Gadget.jump_wires (.reject rfl) (.inr (hk ▸ .inl rfl)) hl hw).imp
      fun _ σ₂ he₂ ⟨hc, hp⟩ => ⟨hr₁.close hentry hc.extends he₂, fun c h head t => ?_⟩
    rw [(h.of_evolves he₂).entryOf hentry]
    exact ⟨head, t, (hp c h head t).mono fun _ => .inl⟩

end Emit

end StackTape
