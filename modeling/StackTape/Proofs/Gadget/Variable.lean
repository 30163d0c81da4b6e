import StackTape.Proofs.Gadget.Stack

/-!
# What the accesses to variables perform

A direct access finds its way from the marker of a frame and back to the bookmark. An indirect one
takes the four bytes of an index from the stack, each by a choice among the children of a node,
and goes on as the direct access that was built for the index.
-/

namespace StackTape

open Stage

namespace Action

/-- Copy the byte `distance` cells above the cell after the marker to the cell under the head, and
move one cell up. -/
noncomputable def fetchByte (marker distance : Nat) : Action Unit := do
  write Symbol.bookmark .left
  find .left marker marker .right
  walk .right distance
  let v ← byte Fin.val .right
  find .right Symbol.bookmark v .right

noncomputable def load (w : Width) (marker offset : Nat) : Action Unit :=
  sequence (fun i => fetchByte marker (offset + i)) w.bytes 0

/-- Put the bookmark in the place of a byte and carry the byte to the cell that is found from the
marker. -/
noncomputable def carryOff (marker : Nat) (move : Direction) (distance : Nat) : Action Unit := do
  let v ← byte (fun _ => Symbol.bookmark) .left
  find .left marker marker move
  walk move distance
  write v .right

/-- Clear the free cell and pop the byte below it into the cell that is found from the marker. -/
noncomputable def deliverByte (marker : Nat) (move : Direction) (distance : Nat) : Action Unit := do
  write 0 .left
  carryOff marker move distance
  find .right Symbol.bookmark 0 .stay

noncomputable def store (w : Width) (marker offset : Nat) : Action Unit :=
  sequence (fun i => deliverByte marker .right (offset + w.bytes - i - 1)) w.bytes 0

/-- Clear a byte that names a child of a node; a level of `n` nodes gives every node of the level
above 256 children, the last one perhaps fewer. -/
def child (n node : Nat) (move : Direction) : Action (Fin n) := fun h t =>
  if hc : t h < 256 ∧ 256 * node + t h < n then
    .leave ⟨256 * node + t h, hc.2⟩ (h + move.offset) (Function.update t h 0)
  else .reject

/-- Pop an index below `bound`, most significant byte first. -/
def popIndex (bound : Nat) : Action (Fin bound) := do
  write 0 .left
  let i ← child (Gadget.groups bound 0x1000000) 0 .left
  let i ← child (Gadget.groups bound 0x10000) i .left
  let i ← child (Gadget.groups bound 0x100) i .left
  child bound i .stay

end Action

namespace Gadget

variable {k : Scope} {σ : Stage} {entry exit : Nat}

theorem Frame.marker_le (f : Frame) : f.marker ≤ Symbol.globalPointer := by
  cases f <;> decide

/-! ## Direct access -/

theorem fetchByte_wires {marker : Nat} (hm : marker ≤ Symbol.globalPointer) (distance : Nat)
    (he : σ.Target k exit) :
    Wires k σ entry (fetchByte marker distance entry exit) (fun _ => exit)
      (.fetchByte marker distance) := by
  refine fresh_wires (fun _ _ _ ht => write_wires (by decide) .left ht)
    fun seek σ₁ he₁ hseek hinner => fresh_wires (fun found σ₂ he₂ hfound => ?_)
      fun found σ₂ he₂ _ _ => walk_wires .right distance fun cell σ₃ he₃ => ?_
  · exact scan_wires .left .right (hseek.mono he₂) (hinner.mono he₂) hm hm hfound
  · refine branch_wires (fun b => Symbol.byte_le b.isLt) fun b σ₄ he₄ => ?_
    exact arm_builds b b .right fun carry σ₅ he₅ hcarry hin => scan_wires .right .right hcarry hin
      (by decide) (Symbol.byte_le b.isLt)
      (he.mono (he₁.trans (he₂.trans (he₃.trans (he₄.trans he₅)))))

theorem load_wires (w : Width) {marker : Nat} (hm : marker ≤ Symbol.globalPointer) (offset : Nat)
    (he : σ.Target k exit) :
    Wires k σ entry (load w marker offset entry exit) (fun _ => exit) (.load w marker offset) :=
  chain_wires w.bytes_pos he fun i _ _ _ _ hn => fetchByte_wires hm (offset + i) hn

theorem deliverByte_wires {marker : Nat} (hm : marker ≤ Symbol.globalPointer) (move : Direction)
    (distance : Nat) (he : σ.Target k exit) :
    Wires k σ entry (deliverByte marker move distance entry exit) (fun _ => exit)
      (.deliverByte marker move distance) := by
  refine fresh_wires (fun _ _ _ ht => write_wires (Nat.zero_le _) .left ht)
    fun top σ₁ he₁ _ _ =>
      fresh_wires (fun back σ₂ he₂ hback => ?_) fun back σ₂ he₂ hback hinner => ?_
  · refine branch_wires (fun _ => by decide) fun b σ₃ he₃ => ?_
    have harm := arm_builds (k := k) (σ := σ₃) b Symbol.bookmark .left
      fun seek σ₄ he₄ hseek hinner => fresh_wires
        (fun found σ₅ he₅ hfound =>
          scan_wires .left move (hseek.mono he₅) (hinner.mono he₅) hm hm hfound)
        fun found σ₅ he₅ _ _ => walk_wires move distance fun cell σ₆ he₆ =>
          write_wires (Symbol.byte_le b.isLt) .right
            (hback.mono (he₃.trans (he₄.trans (he₅.trans he₆))))
    simp only [bind_assoc] at harm
    exact harm
  · exact scan_wires .right .stay hback hinner (by decide) (Nat.zero_le _)
      (he.mono (he₁.trans he₂))

theorem store_wires (w : Width) {marker : Nat} (hm : marker ≤ Symbol.globalPointer) (offset : Nat)
    (he : σ.Target k exit) :
    Wires k σ entry (store w marker offset entry exit) (fun _ => exit) (.store w marker offset) :=
  chain_wires w.bytes_pos he fun i _ _ _ _ hn =>
    deliverByte_wires hm .right (offset + w.bytes - i - 1) hn

/-! ## Indirect access -/

theorem mem_childRules {n node : Nat} {move : Direction} {row : Block n} {r : Transition} :
    r ∈ childRules move row node ↔ ∃ v, ∃ _ : 256 * node + v < n, v < 256 ∧
      r = ⟨v, 0, move, row.first + (256 * node + v)⟩ := by
  simp only [childRules, List.mem_filterMap, List.mem_range]
  constructor
  · rintro ⟨v, hv, hr⟩
    split at hr
    · next hn =>
      cases hr
      exact ⟨v, hn, hv, rfl⟩
    · cases hr
  · rintro ⟨v, hn, hv, rfl⟩
    exact ⟨v, hv, by rw [dif_pos hn]; rfl⟩

theorem nodup_input_childRules {n node : Nat} {move : Direction} {row : Block n} :
    ((childRules move row node).map (·.input)).Nodup := by
  rw [childRules, List.map_filterMap]
  refine List.Nodup.filterMap ?_ List.nodup_range
  intro v v' x hx hx'
  simp only [Option.mem_def, Option.map_eq_some_iff] at hx hx'
  obtain ⟨r, hr, rfl⟩ := hx
  obtain ⟨r', hr', heq⟩ := hx'
  split at hr <;> split at hr' <;> cases hr <;> cases hr'
  exact heq.symm

/-- A state with a transition for every child of a node and none for the other symbols. -/
theorem performs_child {m : Machine} {via : Nat → Prop} {s n node : Nat} {move : Direction}
    {rules : List Transition} {next : Fin n → Nat}
    (hs : m.states[s]? = some ⟨rules, State.unwired.fallback⟩)
    (hnodup : (rules.map (·.input)).Nodup)
    (hmem : ∀ r, r ∈ rules ↔
      ∃ v, ∃ hn : 256 * node + v < n, v < 256 ∧ r = ⟨v, 0, move, next ⟨256 * node + v, hn⟩⟩) :
    m.Performs via s next (.child n node move) := by
  intro h t
  have hstep := Machine.step_of_state hs h t
  by_cases hv : t h < 256 ∧ 256 * node + t h < n
  · have hchild := (hmem _).2 ⟨t h, hv.2, hv.1, rfl⟩
    have hlookup := State.lookup_of_mem (s := ⟨rules, State.unwired.fallback⟩) hnodup hchild
    rw [hlookup] at hstep
    rw [Action.child, dif_pos hv]
    exact .step hstep
  · have hother : (State.mk rules State.unwired.fallback).lookup (t h) =
        State.unwired.fallback := by
      refine State.lookup_of_forall_ne fun r hr heq => ?_
      obtain ⟨v, hn, hlt, rfl⟩ := (hmem r).1 hr
      exact hv (heq ▸ ⟨hlt, hn⟩)
    rw [hother] at hstep
    rw [Action.child, dif_neg hv]
    exact ⟨_, _, .step hstep⟩

/-- A node without children would be left as it was handed out. -/
theorem childRules_wires {s n : Nat} (row : Block n) (node : Nat) (move : Direction)
    (hnode : 256 * node < n ∨ k.idle) (hrow : ∀ i : Fin n, σ.Target k (row.first + i)) :
    Wires k σ s (Draft.addRules s (childRules move row node)) (fun i : Fin n => row.first + i)
      (.child n node move) := by
  intro hl hw
  have hwf : (State.mk (childRules move row node) State.unwired.fallback).WellFormed
      (σ.Target k) := by
    refine .rules (.unwired (.reject rfl)) nodup_input_childRules fun r hr => ?_
    obtain ⟨v, hn, hv, rfl⟩ := mem_childRules.1 hr
    exact ⟨Symbol.byte_le hv, .inl (Nat.zero_le _), hrow ⟨_, hn⟩⟩
  have hrules : 256 * node < n → childRules move row node ≠ [] := fun hn =>
    List.ne_nil_of_mem (mem_childRules.2 ⟨0, hn, by decide, rfl⟩)
  refine (rewire_builds _ hl hw hwf (hnode.imp_left fun hn => State.mk_ne_unwired (hrules hn))).imp
    fun _ σ' _ ⟨hc, hs⟩ => ⟨hc, fun c h => ?_⟩
  exact performs_child (hs c h) nodup_input_childRules fun r => mem_childRules

theorem joinLevels_wires {m n : Nat} (parents : Block m) (row : Block n) (move : Direction)
    (hnode : ∀ node < m, 256 * node < n) (hrow : ∀ i : Fin n, σ.Target k (row.first + i)) :
    WiresRow k σ parents (joinLevels move parents row) (fun i : Fin n => row.first + i)
      fun node => .child n node move :=
  forM_wiresRow fun node _ he =>
    childRules_wires row node move (.inl (hnode node node.isLt)) fun i => (hrow i).mono he

/-- The index is popped on the way to the leaf that belongs to it. The leaves stay open. -/
theorem popIndex_builds {bound : Nat} (hbound : 0 < bound ∨ k.idle) (hl : σ.live entry)
    (hw : σ.wiring entry = some .unwired) :
    Builds k σ (popIndex bound entry) fun leaves σ' =>
      σ.Changes (only entry) leaves.Mem σ' ∧ σ.size ≤ leaves.first ∧
        (∀ i : Fin bound, σ'.Ensures (·.Inner (leaves.first + i))) ∧
        σ'.Ensures fun c =>
          c.Performs entry (fun i : Fin bound => leaves.first + i) (.popIndex bound) := by
  have hentry : entry < σ.size := σ.live_lt hl
  refine fresh_builds.bind fun top σ₁ he₁ h₁ => ?_
  have htop := h₁.eq_size
  obtain ⟨hl₁, hw₁⟩ := h₁.changes.keep hl hw id
  refine (write_wires (Nat.zero_le _) .left h₁.target hl₁ hw₁).bind fun _ σ₂ he₂ ⟨hc₂, hp₂⟩ => ?_
  refine (freshBlock_builds _).bind fun level3 σ₃ he₃ h₃ => ?_
  refine (freshBlock_builds _).bind fun level2 σ₄ he₄ h₄ => ?_
  refine (freshBlock_builds _).bind fun level1 σ₅ he₅ h₅ => ?_
  refine (freshBlock_builds _).bind fun leaves σ₆ he₆ h₆ => ?_
  have hf₃ := h₃.first_eq
  have hf₄ := h₄.first_eq
  have hf₅ := h₅.first_eq
  have hf₆ := h₆.first_eq
  have hs₃ := h₃.size_eq
  have hs₄ := h₄.size_eq
  have hs₅ := h₅.size_eq
  have hs₂ := (he₁.trans he₂).size_le
  have htop₂ : top < σ₂.size :=
    Nat.lt_of_lt_of_le (lt_of_wiring (h₁.changes.unwired top rfl)) he₂.size_le
  -- what is open before the tree is wired, the part that is wired first in front
  have hc₆ : σ.Changes (only entry)
      (fun id => id = top ∨ level3.Mem id ∨ level2.Mem id ∨ level1.Mem id ∨ leaves.Mem id) σ₆ := by
    have hc : σ.Changes (only entry) (only top) σ₂ :=
      h₁.changes.wire hc₂ he₁.size_le (by omega)
    have hc := (((hc.add h₃.changes hs₂).add h₄.changes (by omega)).add h₅.changes
      (by omega)).add h₆.changes (by omega)
    simpa only [or_assoc] using hc
  have ht₃ := fun i : Fin _ => (h₃.target i i.isLt).mono (he₄.trans (he₅.trans he₆))
  have ht₄ := fun i : Fin _ => (h₄.target i i.isLt).mono (he₅.trans he₆)
  have ht₅ := fun i : Fin _ => (h₅.target i i.isLt).mono he₆
  have ht₆ := fun i : Fin bound => h₆.target i i.isLt
  have hs₆ := he₆.size_le
  obtain ⟨hl₆, hw₆⟩ := hc₆.opened (s := top) (.inl rfl)
  have hroot : 256 * 0 < groups bound 0x1000000 ∨ k.idle :=
    hbound.imp_left fun hpos => by
      simp only [groups]
      omega
  have hnode₃ : ∀ node < groups bound 0x1000000, 256 * node < groups bound 0x10000 := by
    simp only [groups]
    omega
  have hnode₂ : ∀ node < groups bound 0x10000, 256 * node < groups bound 0x100 := by
    simp only [groups]
    omega
  have hnode₁ : ∀ node < groups bound 0x100, 256 * node < bound := by
    simp only [groups]
    omega
  refine (childRules_wires level3 0 .left hroot ht₃ hl₆ hw₆).bind fun _ σ₇ he₇ ⟨hc₇, hp₇⟩ => ?_
  have hc₇ := hc₆.close hc₇ (by omega) (by omega) (by simp only [Block.Mem]; omega)
  have hs₇ := he₇.size_le
  refine (joinLevels_wires level3 level2 .left hnode₃ (fun i => (ht₄ i).mono he₇)
    fun i => hc₇.opened (.inl ⟨by omega, by omega⟩)).bind fun _ σ₈ he₈ ⟨hc₈, hp₈⟩ => ?_
  have hc₈ := hc₇.close hc₈ (by omega) (by simp only [Block.Mem]; omega)
    (by simp only [Block.Mem]; omega)
  have hs₈ := he₈.size_le
  refine (joinLevels_wires level2 level1 .left hnode₂ (fun i => (ht₅ i).mono (he₇.trans he₈))
    fun i => hc₈.opened (.inl ⟨by omega, by omega⟩)).bind fun _ σ₉ he₉ ⟨hc₉, hp₉⟩ => ?_
  have hc₉ := hc₈.close hc₉ (by omega) (by simp only [Block.Mem]; omega)
    (by simp only [Block.Mem]; omega)
  have hs₉ := he₉.size_le
  have he₇₉ := he₇.trans (he₈.trans he₉)
  refine (joinLevels_wires level1 leaves .stay hnode₁ (fun i => (ht₆ i).mono he₇₉)
    fun i => hc₉.opened (.inl ⟨by omega, by omega⟩)).bind fun _ τ he ⟨hc, hp⟩ => .pure ?_
  refine ⟨?_, by omega, fun i => ?_, fun c h => ?_⟩
  · exact hc₉.close hc (by omega) (by simp only [Block.Mem]; omega)
      (by simp only [Block.Mem]; omega)
  · exact (h₆.inner i i.isLt).mono (he₇₉.trans he)
  · have hin₁ := h₁.inner.mono (he₂.trans (he₃.trans (he₄.trans (he₅.trans (he₆.trans
      (he₇₉.trans he)))))) c h
    have hin₃ := fun i : Fin _ => (h₃.inner i i.isLt).mono
      (he₄.trans (he₅.trans (he₆.trans (he₇₉.trans he)))) c h
    have hin₄ := fun i : Fin _ => (h₄.inner i i.isLt).mono
      (he₅.trans (he₆.trans (he₇₉.trans he))) c h
    have hin₅ := fun i : Fin _ => (h₅.inner i i.isLt).mono (he₆.trans (he₇₉.trans he)) c h
    have hp₂ := hp₂.mono (he₃.trans (he₄.trans (he₅.trans (he₆.trans (he₇₉.trans he))))) c h
    refine hp₂.bind (fun _ => hin₁) fun _ => ?_
    refine (hp₇.mono (he₈.trans (he₉.trans he)) c h).bind hin₃ fun i => ?_
    refine (hp₈.mono (he₉.trans he) c h i).bind hin₄ fun i => ?_
    exact (hp₉.mono he c h i).bind hin₅ fun i => hp c h i

/-- An index is popped on the way to a state that is not used for anything but the access that is
built for the index. -/
theorem indirect_builds {bound : Nat} {access : Nat → Nat → DraftM Unit}
    (fact : Nat → Nat → Compilation → Prop)
    (haccess : ∀ index s σ', σ.Evolves k σ' → σ'.Ensures (·.Inner s) → σ'.live s →
      σ'.wiring s = some .unwired → Builds k σ' (access index s) fun _ σ'' =>
        σ'.Changes (only s) nothing σ'' ∧ σ''.Ensures (fact index s))
    (hbound : 0 < bound ∨ k.idle) (hl : σ.live entry) (hw : σ.wiring entry = some .unwired) :
    Builds k σ (indirect bound access entry) fun _ σ' => σ.Changes (only entry) nothing σ' ∧
      σ'.Ensures fun c => ∃ leaf : Fin bound → Nat, c.Performs entry leaf (.popIndex bound) ∧
        ∀ i, c.Inner (leaf i) ∧ fact i (leaf i) c := by
  refine (popIndex_builds hbound hl hw).bind fun leaves σ₁ he₁ ⟨hc₁, hfirst, hin, hp₁⟩ => ?_
  have hrow : ∀ i : Fin bound, σ₁.live (leaves.first + i) ∧
      σ₁.wiring (leaves.first + i) = some .unwired := fun i => hc₁.opened ⟨by omega, by omega⟩
  refine (forM_row_builds (fun i => fact i (leaves.first + i)) hrow fun i σ' he =>
    haccess i _ σ' (he₁.trans he) ((hin i).mono he)).imp
      fun _ σ₂ he₂ ⟨hc₂, hf₂⟩ => ⟨?_, fun c h => ?_⟩
  · exact hc₁.replace hc₂ he₁.size_le (by omega)
  · exact ⟨fun i => leaves.first + i, hp₁.mono he₂ c h,
      fun i => ⟨(hin i).mono he₂ c h, hf₂ c h i⟩⟩

theorem indirect_wires {ε : Type} {exit : ε → Nat} {bound : Nat} {access : Nat → Nat → DraftM Unit}
    {a : Nat → Action ε}
    (hbound : 0 < bound ∨ k.idle)
    (haccess : ∀ index s σ', σ.Evolves k σ' → Wires k σ' s (access index s) exit (a index)) :
    Wires k σ entry (indirect bound access entry) exit
      (do let i ← Action.popIndex bound; a i) := by
  intro hl hw
  refine (indirect_builds (fun index s c => c.Performs s exit (a index))
    (fun index s σ' he _ => haccess index s σ' he) hbound hl hw).imp
      fun _ σ' _ ⟨hc, hp⟩ => ⟨hc, fun c h => ?_⟩
  obtain ⟨leaf, hpop, hleaf⟩ := hp c h
  exact hpop.bind (fun i => (hleaf i).1) fun i => (hleaf i).2

end Gadget

end StackTape
