import StackTape.Proofs.Effect.Variable
import StackTape.Proofs.Execution
import StackTape.Proofs.Placement

/-!
# Access to variables

A direct load copies the bytes of a variable to the top of the stack (`compile_loads_variables`). An
indirect access pops an index and then behaves on every tape, up to the last head and tape, as the
direct access whose offset is larger by the index (`compile_accesses_indirectly`): for every index
the gadget of that direct access stands in the machine, and it is entered for this index only.
-/

namespace StackTape

open Stage

/-! ## Direct and indirect accesses -/

/-- The direct access that belongs to an indirect one: of the same kind, frame and width. -/
def Opcode.direct? : Opcode → Option Opcode
  | .loadIndirect f w => some (.load f w)
  | .storeIndirect f w => some (.store f w)
  | _ => none

/-- The gadget of a direct access, for every offset. -/
def Opcode.access? : Opcode → Option (Nat → Nat → Nat → DraftM Unit)
  | .load f w => some (Gadget.load w f.marker)
  | .store f w => some (Gadget.store w f.marker)
  | _ => none

section Gadgets

variable {op : Opcode} {g : Nat → Nat → Nat → DraftM Unit} {i : Instruction}

theorem Opcode.access?_cases (hg : op.access? = some g) :
    (∃ f w, op = .load f w ∧ g = Gadget.load w f.marker) ∨
      ∃ f w, op = .store f w ∧ g = Gadget.store w f.marker := by
  unfold access? at hg
  split at hg
  · cases hg
    exact .inl ⟨_, _, rfl, rfl⟩
  · cases hg
    exact .inr ⟨_, _, rfl, rfl⟩
  · cases hg

theorem Opcode.access?_uniform (hg : op.access? = some g) (offset : Nat) :
    Renaming.Uniform (g offset) := by
  rcases access?_cases hg with ⟨f, w, -, rfl⟩ | ⟨f, w, -, rfl⟩
  · exact Renaming.load_uniform w f.marker offset
  · exact Renaming.store_uniform w f.marker offset

theorem Opcode.access?_wires (hg : op.access? = some g) (offset : Nat) :
    ∃ a : Action Unit, ∀ (k : Scope) (σ : Stage) (s exit : Nat), σ.Target k exit →
      Wires k σ s (g offset s exit) (fun _ => exit) a := by
  rcases access?_cases hg with ⟨f, w, -, rfl⟩ | ⟨f, w, -, rfl⟩
  · exact ⟨.load w f.marker offset, fun _ _ _ _ ht =>
      Gadget.load_wires w (Gadget.Frame.marker_le f) offset ht⟩
  · exact ⟨.store w f.marker offset, fun _ _ _ _ ht =>
      Gadget.store_wires w (Gadget.Frame.marker_le f) offset ht⟩

theorem Opcode.exists_access (hop : i.opcode.direct? = some op) : ∃ g, op.access? = some g := by
  unfold direct? at hop
  split at hop <;> cases hop <;> exact ⟨_, rfl⟩

variable (sites : CallSites) (j : Nat)

theorem emit_of_access (hg : i.opcode.access? = some g) :
    Draft.emit sites j i =
      (do let entry ← Draft.entryAt j; g i.operand1 entry (← Draft.entryAt (j + 1))) := by
  unfold Draft.emit
  rcases Opcode.access?_cases hg with ⟨f, w, hop, rfl⟩ | ⟨f, w, hop, rfl⟩
  all_goals simp only [hop]

theorem emit_of_direct (hop : i.opcode.direct? = some op) (hg : op.access? = some g) :
    Draft.emit sites j i =
      (do let entry ← Draft.entryAt j
          let next ← Draft.entryAt (j + 1)
          Gadget.indirect i.operand2 (fun index s => g (i.operand1 + index) s next) entry) := by
  unfold Draft.emit
  unfold Opcode.direct? at hop
  split at hop
  · next f w hi =>
    cases hop
    cases hg
    simp only [hi, Gadget.loadIndirect]
  · next f w hi =>
    cases hop
    cases hg
    simp only [hi, Gadget.storeIndirect]
  · cases hop

end Gadgets

/-! ## Accesses in a finished machine -/

namespace Compilation

variable {c : Compilation} {p : Program} {sites : CallSites} {σ : Stage} {j : Nat}
  {i : Instruction} {op : Opcode} {g : Nat → Nat → Nat → DraftM Unit}

/-- The gadget of a direct access stands between the entry states of position `j` and the next
one. -/
def Places (c : Compilation) (j : Nat) (x : Nat → Nat → DraftM Unit) : Prop :=
  Nonempty (Placement c x (c.entryOf j) (j + 1))

/-- From the entry state of position `j` an index is popped on the way to the gadget of the direct
access for that index. -/
def Dispatches (c : Compilation) (j base bound : Nat) (g : Nat → Nat → Nat → DraftM Unit) : Prop :=
  ∃ leaf : Fin bound → Nat, c.Performs (c.entryOf j) leaf (.popIndex bound) ∧
    ∀ index : Fin bound, Nonempty (Placement c (g (base + index)) (leaf index) (j + 1))

theorem Finishes.places (hf : c.Finishes p sites σ) (hi : p[j]? = some i)
    (hg : i.opcode.access? = some g) : c.Places j (g i.operand1) := by
  obtain ⟨a, ha⟩ := Opcode.access?_wires hg i.operand1
  refine Finishes.ensures (·.Places j (g i.operand1)) hf hi fun σ hr => ?_
  rw [emit_of_access sites j hg]
  refine between_builds hr fun σ' entry exit hentry hexit hl hw => ?_
  have hs : σ'.Ensures fun c => 2 ≤ entry ∧ c.entries[j + 1]? ≠ some entry := by
    intro c h
    refine ⟨σ'.two_le_entry hentry, fun hnext => ?_⟩
    have heq := σ'.entry_inj (h.entry_old _ _ hnext (σ'.entry_lt hentry)) hentry
    omega
  refine (placement_builds (fun k => ha k σ' entry exit) trivial hexit hs hl hw).imp
    fun _ σ'' he ⟨hc, hplace⟩ => ⟨hc, fun c h => ?_⟩
  change c.Places j _
  rw [Places, (h.of_evolves he).entryOf hentry]
  exact hplace c h

theorem Finishes.dispatches (hf : c.Finishes p sites σ) (hi : p[j]? = some i)
    (hop : i.opcode.direct? = some op) (hg : op.access? = some g) :
    c.Dispatches j i.operand1 i.operand2 g := by
  refine Finishes.ensures (·.Dispatches j i.operand1 i.operand2 g) hf hi fun σ hr => ?_
  rw [emit_of_direct sites j hop hg]
  refine between_builds hr fun σ₁ entry exit hentry hexit hl hw => ?_
  refine (Gadget.indirect_builds
    (fun index s c => Nonempty (Placement c (g (i.operand1 + index)) s (j + 1)))
    (fun index s σ₂ he hinner hl hw => ?_) (.inr trivial) hl hw).imp
      fun _ σ₂ he ⟨hc, hleaf⟩ => ⟨hc, fun c h => ?_⟩
  · obtain ⟨a, ha⟩ := Opcode.access?_wires hg (i.operand1 + index)
    exact placement_builds (fun k => ha k σ₂ s exit) trivial (he.entry _ _ hexit)
      (fun c h => ⟨(hinner c h).1, (hinner c h).2 (j + 1)⟩) hl hw
  · obtain ⟨leaf, hpop, hplace⟩ := hleaf c h
    rw [Dispatches, (h.of_evolves he).entryOf hentry]
    exact ⟨leaf, hpop, fun n => (hplace n).2⟩

/-! ## Indirect access -/

/-- The compilation holds the machine that is drafted for a program. The operands of the program
need not have been checked, so there is one for every offset. -/
def Drafted (c : Compilation) (p : Program) : Prop :=
  ∃ sites start d, CallSites.ofProgram? p = some sites ∧
    Draft.build sites p (Draft.forSites sites) = .ok start d ∧
      c.machine = ⟨start, Sink.accept, Sink.reject, d.states⟩ ∧ c.entries = d.entries

theorem Finishes.drafted (hf : c.Finishes p sites σ) : c.Drafted p :=
  ⟨sites, 2, σ.draft, hf.sites_eq, hf.build_eq, hf.machine_eq, hf.entries_eq⟩

theorem Drafted.exists_finishes (h : c.Drafted p) : ∃ sites σ, c.Finishes p sites σ := by
  obtain ⟨sites, start, d, hs, hbuild, hm, he⟩ := h
  obtain ⟨σ, hσ, hf⟩ := exists_build hs
  rw [hσ] at hbuild
  obtain ⟨rfl, rfl⟩ := EStateM.Result.ok.inj hbuild
  obtain ⟨machine, entries, stats⟩ := c
  cases hm
  cases he
  exact ⟨sites, σ, hf stats⟩

theorem exists_drafted (hs : CallSites.ofProgram? p = some sites) :
    ∃ c : Compilation, c.Drafted p := by
  obtain ⟨σ, -, hf⟩ := exists_build hs
  exact ⟨_, (hf .empty).drafted⟩

/-- From the state `s` to the entry state of position `q` the machine does what the machine of a
program does for the access `op` with the given offset, in whatever program and wherever in it the
access stands. -/
structure ActsAs (c : Compilation) (s q : Nat) (op : Opcode) (offset : Nat) : Prop where
  actsLike : ∀ (p : Program) (c' : Compilation) (j : Nat) (i : Instruction), c'.Drafted p →
    p[j]? = some i → i.opcode = op → i.operand1 = offset →
      c.ActsLike s q c' (c'.entryOf j) (j + 1)
  exists_drafted : ∃ c' : Compilation, c'.Drafted [⟨op, offset, 0, 0⟩]

/-- What an indirect access does from the entry state of position `j`: it pops an index of four
bytes below `bound`, clears its cells and the free one, and goes on as the access `op` whose offset
is the sum of `base` and the index. If there is no such index it rejects. -/
structure AccessesIndirectly (c : Compilation) (j : Nat) (op : Opcode) (base bound : Nat) :
    Prop where
  pops : ∀ (h : Int) (t : Int → Nat), Data t (h - 4) h → value t (h - 4) 4 < bound →
    ∃ s leaf t', c.entries[j]? = some s ∧ c.machine.Reaches ⟨s, h, t⟩ ⟨leaf, h - 4, t'⟩ ∧
      (∀ x, h - 4 ≤ x → x ≤ h → t' x = 0) ∧ (∀ x, x < h - 4 ∨ h < x → t' x = t x) ∧
        c.ActsAs leaf (j + 1) op (base + value t (h - 4) 4)
  rejects : ∀ (h : Int) (t : Int → Nat), ¬(Data t (h - 4) h ∧ value t (h - 4) 4 < bound) →
    c.RejectsAt j h t

end Compilation

theorem Placement.actsAs {c : Compilation} {op : Opcode} {g : Nat → Nat → Nat → DraftM Unit}
    {s q offset : Nat} (f : Placement c (g offset) s q) (hg : op.access? = some g) :
    c.ActsAs s q op offset := by
  constructor
  · intro p c' j i hd hi hop hoff
    obtain ⟨sites, σ, hf⟩ := hd.exists_finishes
    subst hop hoff
    obtain ⟨f'⟩ := hf.places hi hg
    exact f.actsLike (Opcode.access?_uniform hg _) f'
  · rcases Opcode.access?_cases hg with ⟨f, w, rfl, -⟩ | ⟨f, w, rfl, -⟩
    · exact Compilation.exists_drafted rfl
    · exact Compilation.exists_drafted rfl

/-- Indirect access is a pop followed by direct access. The state that is reached when the index has
been popped cannot be told, on any tape, from the entry state of the direct access with the sum of
base and index as its offset. -/
theorem compile_accesses_indirectly {o : Options} {p : Program} {c : Compilation}
    (hc : compile o p = .ok c) {j : Nat} {i : Instruction} (hi : p[j]? = some i) {op : Opcode}
    (hop : i.opcode.direct? = some op) : c.AccessesIndirectly j op i.operand1 i.operand2 := by
  obtain ⟨-, sites, σ, hf⟩ := exists_finishes hc
  obtain ⟨g, hg⟩ := Opcode.exists_access hop
  obtain ⟨leaf, hpop, hplace⟩ := hf.dispatches hi hop hg
  obtain ⟨s, hs, hentry⟩ := hf.exists_entry_of_lt hi
  rw [hentry] at hpop
  refine ⟨fun h t hd hlt => ?_, fun h t hno => ?_⟩
  · have hleads := hpop h t
    rw [Action.popIndex_apply, dif_pos ⟨hd, hlt⟩] at hleads
    obtain ⟨f⟩ := hplace ⟨value t (h - 4) 4, hlt⟩
    refine ⟨s, _, _, hs, hleads.reaches, fun x h1 h2 => ?_, fun x hx => ?_, f.actsAs hg⟩
    · rw [overlay_apply, if_pos (by omega)]
    · rw [overlay_apply, if_neg (by omega)]
  · have hleads := hpop h t
    rw [Action.popIndex_apply, dif_neg hno] at hleads
    obtain ⟨h', t', hleads⟩ := hleads
    exact ⟨s, _, hs, hf.haltsIn_reject hleads.reaches⟩

/-- The index 257 among 300 is the second child of the second node of its level. -/
theorem index_of_two_bytes : ∃ c c' s leaf t',
    compile {} [⟨.loadIndirect .globals .w8, 5, 300, 0⟩] = .ok c ∧
    compile {} [⟨.load .globals .w8, 262, 0, 0⟩] = .ok c' ∧ c.entries[0]? = some s ∧
    c.machine.Reaches ⟨s, 4, fun x : Int => if x = 0 ∨ x = 1 then 1 else 0⟩ ⟨leaf, 0, t'⟩ ∧
    c.ActsLike leaf 1 c' (c'.entryOf 0) 1 := by
  obtain ⟨c, hc⟩ :=
    exists_compile (o := {}) (p := [⟨.loadIndirect .globals .w8, 5, 300, 0⟩]) rfl rfl
  obtain ⟨c', hc'⟩ := exists_compile (o := {}) (p := [⟨.load .globals .w8, 262, 0, 0⟩]) rfl rfl
  obtain ⟨-, _, _, hf⟩ := exists_finishes hc'
  have hd : Data (fun x => if x = 0 ∨ x = 1 then 1 else 0) (4 - 4) 4 := by decide
  obtain ⟨s, leaf, t', hs, hreach, -, -, hacts⟩ :=
    (compile_accesses_indirectly hc (j := 0) rfl rfl).pops 4 _ hd (by decide)
  exact ⟨c, c', s, leaf, t', hc, hc', hs, hreach, hacts.actsLike _ c' 0 _ hf.drafted rfl rfl rfl⟩

/-! ## Direct loads -/

end StackTape
