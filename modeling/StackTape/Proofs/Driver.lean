import StackTape.Proofs.Emit

/-!
# The draft of a whole program

The compiler hands out the start state and the entry state of position 0 and then deals with the
instructions one by one, each in a draft that is in order. What one instruction settles lasts to
the end, so in the finished machine every instruction performs its action from its own entry state
(`Compilation.Finishes`).
-/

namespace StackTape

open Stage

variable {k : Scope} {σ : Stage} {sites : CallSites} {position : Nat}

/-! ## One scope for all instructions -/

/-- What the states of a program may lead to: entry states, sinks, and states that were handed out
after the start state. -/
def Scope.whole : Scope := ⟨3, fun _ => True, True, True⟩

theorem Scope.within_whole (hb : 3 ≤ k.base) : k.Within .whole :=
  ⟨hb, fun _ _ => trivial, fun _ => trivial, fun _ => trivial⟩

/-! ## Instructions one after the other -/

theorem record_builds (op : Opcode) :
    Builds k σ (Draft.record op) fun _ σ' => σ.Changes nothing nothing σ' := by
  intro _
  let stats := σ.draft.stats.record op.mnemonic
  refine ⟨(), { σ with draft := { σ.draft with stats } }, rfl, ⟨Nat.le_refl _,
    fun _ _ hl => ⟨hl, rfl⟩, fun id st hw hl => .inl ⟨lt_of_wiring (σ := σ) hw, hl⟩,
    fun id hw hl => .inl ⟨lt_of_wiring (σ := σ) hw, hl⟩,
    fun _ _ h => h, fun _ _ h => .inl h⟩, fun _ => rfl, fun _ _ _ => rfl, fun id => ?_,
    fun _ h => h.elim⟩
  change σ.live id ↔ _
  simp

theorem emitFrom_builds (hsites : sites.addresses.length ≤ maxCallSites) (p : Program)
    (hsize : 3 ≤ σ.size) (hr : σ.Ready position) :
    Builds .whole σ (Draft.emitFrom sites position p) fun _ σ' =>
      σ'.Ready (position + p.length) ∧ σ'.Ensures fun c => ∀ j i, p[j]? = some i →
        c.PerformsAt (position + j) i.opcode (i.action sites (position + j)) := by
  induction p generalizing σ position with
  | nil => exact .pure ⟨hr, fun _ _ j i h => by simp at h⟩
  | cons i rest ih =>
    refine ((emit_builds hsites i hr).within (Scope.within_whole hsize) (Nat.le_refl _)).bind
      fun _ σ₁ he₁ ⟨hr₁, hp₁⟩ => (record_builds i.opcode).bind fun _ σ₂ he₂ hc₂ => ?_
    have hr₂ : σ₂.Ready (position + 1) :=
      hr₁.advance hc₂.extends he₂ (Nat.le_refl _)
        (fun _ _ _ hle => iff_of_false (fun h => h) (Nat.not_lt.2 hle)) hr₁.entered
    have hsize₂ : 3 ≤ σ₂.size := Nat.le_trans hsize (he₁.trans he₂).size_le
    refine (ih hsize₂ hr₂).imp fun _ σ₃ he₃ ⟨hr₃, hp₃⟩ => ⟨?_, fun c h j i' hj => ?_⟩
    · rw [List.length_cons, ← Nat.add_assoc, Nat.add_right_comm]
      exact hr₃
    · cases j with
      | zero =>
        obtain rfl : i = i' := by simpa using hj
        exact hp₁.mono (he₂.trans he₃) c h
      | succ j =>
        have := hp₃ c h j i' (by simpa using hj)
        rwa [Nat.add_assoc, Nat.add_comm 1 j] at this

theorem emitFrom_append (p q : Program) :
    Draft.emitFrom sites position (p ++ q) =
      (do Draft.emitFrom sites position p; Draft.emitFrom sites (position + p.length) q) := by
  induction p generalizing position with
  | nil => rfl
  | cons i p ih =>
    simp only [List.cons_append, Draft.emitFrom, ih, bind_assoc, List.length_cons]
    rw [Nat.add_assoc, Nat.add_comm 1]

/-! ## The beginning -/

namespace Draft

/-- The draft before the first instruction: the sinks, the start state, and the entry state of the
first position. -/
def opened (sites : CallSites) : Draft where
  states := #[.sink Sink.accept, .sink Sink.reject,
    ⟨[], .write Symbol.globalPointer .right 3⟩, .unwired]
  entries := (∅ : Std.TreeMap Nat Nat).insert 0 3
  stats := { (forSites sites).stats with allocated := (forSites sites).stats.allocated + 1 + 1 }

theorem build_apply (sites : CallSites) (p : Program) :
    build sites p (forSites sites) =
      (do emitFrom sites 0 p; return 2 : DraftM Nat) (opened sites) := by
  unfold build
  rw [DraftM.bind_apply, fresh_apply]
  dsimp only
  rw [DraftM.bind_apply, entryAt_apply_of_none (by simp [forSites, initial])]
  rfl

theorem opened_entry {q id : Nat} : (opened sites).entries[q]? = some id ↔ q = 0 ∧ id = 3 := by
  simp only [opened, Std.TreeMap.getElem?_insert, compare_eq_iff_eq]
  split
  · next h =>
    subst h
    simp [eq_comm]
  · next h => simp [Ne.symm h]

end Draft

/-- The stage before the first instruction. -/
def Stage.opened (sites : CallSites) : Stage where
  draft := Draft.opened sites
  live := only 3
  live_lt := by
    rintro id rfl
    exact Nat.lt_succ_self 3
  two_le := Nat.le_add_left 2 2
  two_le_entry h := by
    rw [(Draft.opened_entry.1 h).2]
    decide
  entry_lt h := by
    rw [(Draft.opened_entry.1 h).2]
    exact Nat.lt_succ_self 3
  entry_inj h₁ h₂ := (Draft.opened_entry.1 h₁).1.trans (Draft.opened_entry.1 h₂).1.symm

theorem Stage.ready_opened (sites : CallSites) : (Stage.opened sites).Ready 0 where
  entered q h := absurd h (Nat.not_lt_zero q)
  live id := by
    constructor
    · rintro rfl
      exact ⟨0, Nat.le_refl _, Draft.opened_entry.2 ⟨rfl, rfl⟩⟩
    · rintro ⟨q, -, h⟩
      exact (Draft.opened_entry.1 h).2
  unwired q id _ h := by
    obtain ⟨-, rfl⟩ := Draft.opened_entry.1 h
    rfl

/-! ## The end -/

theorem CallSites.length_le {p : Program} (h : CallSites.ofProgram? p = some sites) :
    sites.addresses.length ≤ maxCallSites := by
  simp only [CallSites.ofProgram?] at h
  split at h
  · next hle =>
    cases h
    exact hle
  · cases h

theorem exists_emitFrom (hsites : sites.addresses.length ≤ maxCallSites) (p : Program) :
    ∃ σ : Stage, Draft.emitFrom sites 0 p (Draft.opened sites) = .ok () σ.draft ∧
      (Stage.opened sites).Evolves .whole σ ∧ σ.Ready p.length ∧
        σ.Ensures fun c => ∀ j i, p[j]? = some i →
          c.PerformsAt j i.opcode (i.action sites j) := by
  have hsize : 3 ≤ (Stage.opened sites).size := Nat.le_succ 3
  obtain ⟨_, σ, hx, he, hr, hp⟩ :=
    emitFrom_builds hsites p hsize (ready_opened sites) hsize
  exact ⟨σ, hx, he, by simpa using hr, by simpa using hp⟩

theorem build_of_emitFrom {p : Program} {d : Draft}
    (h : Draft.emitFrom sites 0 p (Draft.opened sites) = .ok () d) :
    Draft.build sites p (Draft.forSites sites) = .ok 2 d := by
  rw [Draft.build_apply, DraftM.bind_apply, h]
  rfl

/-- What a compilation is made of: the last stage of the draft of its program. -/
structure Compilation.Finishes (c : Compilation) (p : Program) (sites : CallSites) (σ : Stage) :
    Prop where
  sites_eq : CallSites.ofProgram? p = some sites
  build_eq : Draft.build sites p (Draft.forSites sites) = .ok 2 σ.draft
  machine_eq : c.machine = ⟨2, Sink.accept, Sink.reject, σ.draft.states⟩
  entries_eq : c.entries = σ.draft.entries
  evolves : (Stage.opened sites).Evolves .whole σ
  ready : σ.Ready p.length
  performs : ∀ j i, p[j]? = some i → c.PerformsAt j i.opcode (i.action sites j)

theorem Compilation.Finishes.completes {c : Compilation} {p : Program} (h : c.Finishes p sites σ) :
    c.Completes σ where
  wiring id _ _ := by rw [h.machine_eq]; rfl
  entry q id hq := by rw [h.entries_eq]; exact hq
  entry_old q id hq _ := by rw [h.entries_eq] at hq; exact hq

/-- The draft of a program can always be made. -/
theorem exists_build {p : Program} (hs : CallSites.ofProgram? p = some sites) :
    ∃ σ : Stage, Draft.build sites p (Draft.forSites sites) = .ok 2 σ.draft ∧
      ∀ stats, Compilation.Finishes
        ⟨⟨2, Sink.accept, Sink.reject, σ.draft.states⟩, σ.draft.entries, stats⟩ p sites σ := by
  obtain ⟨σ, hemit, he, hr, hp⟩ := exists_emitFrom (CallSites.length_le hs) p
  refine ⟨σ, build_of_emitFrom hemit, fun stats =>
    ⟨hs, build_of_emitFrom hemit, rfl, rfl, he, hr, hp _ ?_⟩⟩
  exact ⟨fun _ _ _ => rfl, fun _ _ h => h, fun _ _ h _ => h⟩

theorem exists_finishes {o : Options} {p : Program} {c : Compilation} (h : compile o p = .ok c) :
    p.violation? o = none ∧ ∃ sites σ, c.Finishes p sites σ := by
  unfold compile at h
  cases hs : CallSites.ofProgram? p with
  | none =>
    rw [hs] at h
    cases h
  | some sites =>
    simp only [hs, compileWith] at h
    cases hv : p.violation? o with
    | some v =>
      rw [hv] at h
      cases h
    | none =>
      obtain ⟨σ, hbuild, hf⟩ := exists_build hs
      rw [hv] at h
      simp only [hbuild, Except.ok.injEq] at h
      subst h
      exact ⟨rfl, sites, σ, hf _⟩

/-- A program is compiled if its calls can be numbered and no operand violates its contract. -/
theorem exists_compile {o : Options} {p : Program} (hs : CallSites.ofProgram? p = some sites)
    (hv : p.violation? o = none) : ∃ c, compile o p = .ok c := by
  obtain ⟨σ, hbuild, -⟩ := exists_build hs
  simp only [compile, compileWith, hs, hv, hbuild]
  exact ⟨_, rfl⟩

/-- A program that calls a procedure with one argument, which returns at once. -/
def Program.callOnce : Program :=
  [⟨.push .w8, 7, 0, 0⟩, ⟨.makeArgs, 1, 0, 0⟩, ⟨.call, 0, 0, 4⟩, ⟨.accept, 0, 0, 0⟩,
    ⟨.ret, 0, 0, 0⟩]

theorem callOnce_sites : CallSites.ofProgram? Program.callOnce = some ⟨[3]⟩ := rfl

theorem callOnce_compiles : ∃ c, compile {} Program.callOnce = .ok c :=
  exists_compile callOnce_sites (by decide)

end StackTape
