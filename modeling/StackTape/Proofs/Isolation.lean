import StackTape.Proofs.Script

/-!
# Instructions do not disturb each other

All gadgets are wired into one draft. `Draft.Isolated` says what dealing with one instruction
leaves alone, and `Draft.BelongsTo` what follows for the whole program: up to its own position a
state does not exist or is as it was handed out, and after that it is as in the finished machine. So
at most one instruction wires it (`Draft.WiredBy`). There need not be one. The entry state of the
position behind the last instruction belongs to no instruction, and an instruction that rejects, or
that returns where there are no calls, leaves a state of its own as it was handed out.
-/

namespace StackTape

open Stage

variable {sites : CallSites} {p : Program} {i : Instruction} {j k q id : Nat}

namespace Draft

/-- The draft when the compiler comes to a position. -/
def reached (sites : CallSites) (p : Program) (position : Nat) : Draft :=
  match build sites (p.take position) (forSites sites) with
  | .ok _ d => d
  | .error _ d => d

/-- Between the two drafts the instruction at `position` has been dealt with: its entry state was
not wired before, no other state that existed has changed, positions have kept their entry states,
and the entry states that other positions have got since are not wired. -/
structure Isolated (position : Nat) (d d' : Draft) : Prop where
  entry_unwired : ∀ id : Nat, d.entries[position]? = some id → d.states[id]? = some .unwired
  state_eq : ∀ id : Nat, id < d.states.size → d'.entries[position]? ≠ some id →
    d'.states[id]? = d.states[id]?
  entry_eq : ∀ q id : Nat, d.entries[q]? = some id → d'.entries[q]? = some id
  other_unwired : ∀ q id : Nat, q ≠ position → d.entries[q]? = none → d'.entries[q]? = some id →
    d'.states[id]? = some .unwired

/-- The instruction at `position` wires a state: the state has transitions that it did not have
before, and other ones than those with which states are handed out. -/
def WiredBy (sites : CallSites) (p : Program) (position id : Nat) : Prop :=
  ∃ st, st ≠ .unwired ∧ (reached sites p position).states[id]? ≠ some st ∧
    (reached sites p (position + 1)).states[id]? = some st

/-- A state belongs to a position: it is its entry state, or it is no entry state and was handed out
when the instruction there was dealt with. No other instruction changes it. -/
structure BelongsTo (sites : CallSites) (p : Program) (position id : Nat) : Prop where
  owner : (reached sites p p.length).entries[position]? = some id ∨
    ((∀ q : Nat, (reached sites p p.length).entries[q]? ≠ some id) ∧
      (reached sites p position).states.size ≤ id ∧
        id < (reached sites p (position + 1)).states.size)
  before : ∀ j, j ≤ position → (reached sites p j).states[id]? = none ∨
    (reached sites p j).states[id]? = some .unwired
  after : ∀ j, position < j → j ≤ p.length →
    (reached sites p j).states[id]? = (reached sites p p.length).states[id]?

end Draft

/-! ## Drafts along the way -/

theorem reached_of_length_le (h : p.length ≤ k) :
    Draft.reached sites p k = Draft.reached sites p p.length := by
  unfold Draft.reached
  rw [List.take_of_length_le h, List.take_length]

theorem reached_eq {d : Draft}
    (h : Draft.emitFrom sites 0 (p.take k) (Draft.opened sites) = .ok () d) :
    Draft.reached sites p k = d := by
  simp only [Draft.reached, build_of_emitFrom h]

theorem emitFrom_take (hsites : sites.addresses.length ≤ maxCallSites) (p : Program) (k : Nat) :
    Draft.emitFrom sites 0 (p.take k) (Draft.opened sites) = .ok () (Draft.reached sites p k) := by
  obtain ⟨σ, hemit, -⟩ := exists_emitFrom hsites (p.take k)
  rw [reached_eq hemit, hemit]

/-- The drafts at two positions are stages of one construction. -/
theorem exists_reached (hsites : sites.addresses.length ≤ maxCallSites) (hjk : j ≤ k)
    (hk : k ≤ p.length) :
    ∃ σ τ : Stage, σ.draft = Draft.reached sites p j ∧ τ.draft = Draft.reached sites p k ∧
      (Stage.opened sites).Evolves .whole σ ∧ σ.Evolves .whole τ ∧ σ.Ready j ∧ τ.Ready k := by
  obtain ⟨σ, hσ, he, hr, -⟩ := exists_emitFrom hsites (p.take j)
  have hlen : (p.take j).length = j := by
    rw [List.length_take]
    omega
  have hrest : ((p.take k).drop j).length = k - j := by
    rw [List.length_drop, List.length_take]
    omega
  have hsize : 3 ≤ σ.size := Nat.le_trans (Nat.le_succ 3) he.size_le
  rw [hlen] at hr
  obtain ⟨_, τ, hx, he', hr', -⟩ := emitFrom_builds hsites ((p.take k).drop j) hsize hr hsize
  have hsplit : p.take k = p.take j ++ (p.take k).drop j := by
    have := List.take_append_drop j (p.take k)
    rwa [List.take_take, Nat.min_eq_left hjk, eq_comm] at this
  have hτ : Draft.emitFrom sites 0 (p.take k) (Draft.opened sites) = .ok () τ.draft := by
    rw [hsplit, emitFrom_append, hlen, Nat.zero_add, DraftM.bind_apply, hσ]
    exact hx
  rw [hrest, Nat.add_sub_cancel' hjk] at hr'
  exact ⟨σ, τ, (reached_eq hσ).symm, (reached_eq hτ).symm, he, he', hr, hr'⟩

theorem size_reached_le (hsites : sites.addresses.length ≤ maxCallSites) (hjk : j ≤ k) :
    (Draft.reached sites p j).states.size ≤ (Draft.reached sites p k).states.size := by
  have hmin : ∀ n, Draft.reached sites p (min n p.length) = Draft.reached sites p n := by
    intro n
    rcases Nat.le_total n p.length with h | h
    · rw [Nat.min_eq_left h]
    · rw [Nat.min_eq_right h, reached_of_length_le h]
  obtain ⟨σ, τ, hσ, hτ, -, he, -⟩ := exists_reached (j := min j p.length) (k := min k p.length)
    hsites (by omega) (Nat.min_le_right _ _)
  rw [← hmin j, ← hmin k, ← hσ, ← hτ]
  exact he.size_le

/-! ## One instruction -/

/-- An instruction that is dealt with in a draft in order. -/
theorem emit_isolated (hsites : sites.addresses.length ≤ maxCallSites) {σ : Stage}
    (hr : σ.Ready k) (i : Instruction) :
    ∃ d', Draft.emit sites k i σ.draft = .ok () d' ∧ σ.draft.Isolated k d' := by
  obtain ⟨_, σ', hx, he, hr', -⟩ := emit_builds hsites i hr (Nat.le_refl _)
  refine ⟨σ'.draft, hx, fun id h => hr.unwired k id (Nat.le_refl _) h, fun id hlt hne => ?_,
    he.entry, fun q id hq hnone h => ?_⟩
  · by_cases hl : σ.live id
    · -- the entry state of a later position, not wired before nor after
      obtain ⟨q, hkq, hq⟩ := (hr.live id).1 hl
      have hq' := he.entry q id hq
      have hne' : q ≠ k := fun h => hne (h ▸ hq')
      exact (hr'.unwired q id (by omega) hq').trans (hr.unwired q id hkq hq).symm
    · exact (he.settled id hlt hl).2
  · refine hr'.unwired q id (Nat.not_lt.1 fun hlt => ?_) h
    obtain ⟨id', hid'⟩ := hr.entered q (by omega)
    cases hnone.symm.trans hid'

/-! ## The whole program -/

section Whole

variable (hsites : sites.addresses.length ≤ maxCallSites)

include hsites

/-- A state that is not the entry state of a position to come is as in the finished machine. -/
theorem states_reached (hj : j ≤ p.length) (hlt : id < (Draft.reached sites p j).states.size)
    (hid : ∀ q : Nat, j ≤ q → (Draft.reached sites p j).entries[q]? ≠ some id) :
    (Draft.reached sites p j).states[id]? = (Draft.reached sites p p.length).states[id]? := by
  obtain ⟨σ, τ, hσ, hτ, -, he, hr, -⟩ := exists_reached hsites hj (Nat.le_refl p.length)
  rw [← hσ] at hlt hid ⊢
  rw [← hτ]
  refine (he.settled id hlt fun hl => ?_).2.symm
  obtain ⟨q, hq, h⟩ := (hr.live id).1 hl
  exact hid q hq h

theorem entries_reached (hj : j ≤ p.length)
    (h : (Draft.reached sites p j).entries[q]? = some id) :
    (Draft.reached sites p p.length).entries[q]? = some id := by
  obtain ⟨σ, τ, hσ, hτ, -, he, -⟩ := exists_reached hsites hj (Nat.le_refl p.length)
  rw [← hσ] at h
  rw [← hτ]
  exact he.entry q id h

/-- A state that exists becomes an entry state no more. -/
theorem entries_reached_of_lt (hj : j ≤ p.length)
    (h : (Draft.reached sites p p.length).entries[q]? = some id)
    (hlt : id < (Draft.reached sites p j).states.size) :
    (Draft.reached sites p j).entries[q]? = some id := by
  obtain ⟨σ, τ, hσ, hτ, -, he, -⟩ := exists_reached hsites hj (Nat.le_refl p.length)
  rw [← hτ] at h
  rw [← hσ] at hlt ⊢
  rcases he.entry_new q id h with hold | hnew
  · exact hold
  · exact absurd hlt (Nat.not_lt.2 hnew)

theorem entries_reached_inj {r : Nat}
    (hq : (Draft.reached sites p p.length).entries[q]? = some id)
    (hr : (Draft.reached sites p p.length).entries[r]? = some id) : q = r := by
  obtain ⟨σ, -, hσ, -⟩ := exists_reached hsites (Nat.le_refl p.length) (Nat.le_refl p.length)
  rw [← hσ] at hq hr
  exact σ.entry_inj hq hr

/-- An entry state belongs to its position. -/
theorem belongsTo_of_entry (hq : (Draft.reached sites p p.length).entries[q]? = some id) :
    Draft.BelongsTo sites p q id := by
  refine ⟨.inl hq, fun j hj => ?_, fun j hj hle => ?_⟩
  · -- positions behind the end see the finished draft
    obtain ⟨n, hn, hnj, hle⟩ : ∃ n, Draft.reached sites p n = Draft.reached sites p j ∧
        n ≤ q ∧ n ≤ p.length := by
      rcases Nat.le_total j p.length with h | h
      · exact ⟨j, rfl, hj, h⟩
      · exact ⟨p.length, (reached_of_length_le h).symm, by omega, Nat.le_refl _⟩
    rw [← hn]
    obtain ⟨σ, τ, hσ, hτ, -, he, hr, -⟩ := exists_reached hsites hle (Nat.le_refl p.length)
    rw [← hτ] at hq
    rw [← hσ]
    rcases he.entry_new q id hq with hold | hnew
    · exact .inr (hr.unwired q id hnj hold)
    · exact .inl (Array.getElem?_eq_none hnew)
  · obtain ⟨σ, τ, hσ, hτ, -, he, hr, -⟩ := exists_reached hsites hle (Nat.le_refl p.length)
    obtain ⟨id', hid'⟩ := hr.entered q hj
    have hq' : σ.draft.entries[q]? = some id := by
      rw [← hτ] at hq
      rwa [Option.some.inj (hq.symm.trans (he.entry q id' hid'))]
    refine states_reached hsites hle (hσ ▸ σ.entry_lt hq') fun r hjr h => ?_
    rw [← hσ] at h
    have := σ.entry_inj h hq'
    omega

/-- A state that is no entry state belongs to the instruction that was dealt with when it was
handed out. -/
theorem belongsTo_of_inner (hle : (Draft.reached sites p k).states.size ≤ id)
    (hlt : id < (Draft.reached sites p (k + 1)).states.size)
    (hid : ∀ q : Nat, (Draft.reached sites p p.length).entries[q]? ≠ some id) :
    Draft.BelongsTo sites p k id := by
  refine ⟨.inr ⟨hid, hle, hlt⟩, fun j hj => .inl ?_, fun j hj hjp => ?_⟩
  · exact Array.getElem?_eq_none (Nat.le_trans (size_reached_le hsites hj) hle)
  · exact states_reached hsites hjp (Nat.lt_of_lt_of_le hlt (size_reached_le hsites hj))
      fun q _ h => hid q (entries_reached hsites hjp h)

theorem exists_belongsTo_of_inner (hlt : id < (Draft.reached sites p p.length).states.size)
    (h4 : 4 ≤ id) (hid : ∀ q : Nat, (Draft.reached sites p p.length).entries[q]? ≠ some id) :
    ∃ k, Draft.BelongsTo sites p k id := by
  have hex : ∃ n, id < (Draft.reached sites p n).states.size := ⟨p.length, hlt⟩
  classical
  have hspec := Nat.find_spec hex
  have hmin : ∀ n, n < Nat.find hex → (Draft.reached sites p n).states.size ≤ id :=
    fun n hn => Nat.not_lt.1 (Nat.find_min hex hn)
  cases hn : Nat.find hex with
  | zero =>
    rw [hn] at hspec
    exact absurd hspec (Nat.not_lt.2 h4)
  | succ k =>
    rw [hn] at hspec hmin
    exact ⟨k, belongsTo_of_inner hsites (hmin k (Nat.lt_succ_self k)) hspec hid⟩

theorem existsUnique_belongsTo (hlt : id < (Draft.reached sites p p.length).states.size)
    (h3 : 3 ≤ id) : ∃! k, Draft.BelongsTo sites p k id := by
  have hex : ∃ k, Draft.BelongsTo sites p k id := by
    by_cases hid : ∃ q : Nat, (Draft.reached sites p p.length).entries[q]? = some id
    · obtain ⟨q, hq⟩ := hid
      exact ⟨q, belongsTo_of_entry hsites hq⟩
    · rw [not_exists] at hid
      have hentry : (Draft.reached sites p 0).entries[0]? = some 3 := rfl
      have hne : id ≠ 3 := fun h => hid 0 (h ▸ entries_reached hsites (Nat.zero_le _) hentry)
      exact exists_belongsTo_of_inner hsites hlt (by omega) hid
  obtain ⟨k, hk⟩ := hex
  refine ⟨k, hk, fun k' hk' => ?_⟩
  rcases hk.owner with h | ⟨hn, hge, hlt⟩ <;> rcases hk'.owner with h' | ⟨hn', hge', hlt'⟩
  · exact entries_reached_inj hsites h' h
  · exact absurd h (hn' k)
  · exact absurd h' (hn k')
  · -- the drafts only grow, so a state is handed out once
    rcases Nat.lt_trichotomy k k' with hlt'' | rfl | hlt''
    · have := size_reached_le (p := p) hsites (show k + 1 ≤ k' by omega)
      omega
    · rfl
    · have := size_reached_le (p := p) hsites (show k' + 1 ≤ k by omega)
      omega

/-- The sinks and the start state are wired before the first instruction. -/
theorem states_reached_of_lt (hj : j ≤ p.length) (hid : id < 3) :
    (Draft.reached sites p j).states[id]? = (Draft.reached sites p p.length).states[id]? := by
  obtain ⟨σ, τ, hσ, -, he, -⟩ := exists_reached hsites hj (Nat.le_refl p.length)
  have hsize : 4 ≤ σ.size := he.size_le
  refine states_reached hsites hj (hσ ▸ Nat.lt_of_lt_of_le hid (Nat.le_trans (by decide) hsize))
    fun q _ hq => ?_
  rw [← hσ] at hq
  rcases he.entry_new q id hq with hold | hnew
  · have := (Draft.opened_entry.1 hold).2
    omega
  · have : 4 ≤ id := hnew
    omega

/-- The compiler deals with the instruction at a position in the draft that it has reached there. -/
theorem exists_emit_reached (hi : p[k]? = some i) :
    ∃ d', Draft.emit sites k i (Draft.reached sites p k) = .ok () d' ∧
      Draft.record i.opcode d' = .ok () (Draft.reached sites p (k + 1)) ∧
        (Draft.reached sites p k).Isolated k d' := by
  obtain ⟨hk, -⟩ := List.getElem?_eq_some_iff.1 hi
  obtain ⟨σ, -, hσ, -, -, -, hr, -⟩ :=
    exists_reached hsites (Nat.le_of_lt hk) (Nat.le_refl p.length)
  obtain ⟨d', hd', hiso⟩ := emit_isolated hsites hr i
  rw [hσ] at hd' hiso
  refine ⟨d', hd', ?_, hiso⟩
  have htake : p.take (k + 1) = p.take k ++ [i] := by rw [List.take_add_one, hi]; rfl
  have hlen : (p.take k).length = k := by
    rw [List.length_take]
    omega
  have hnext := emitFrom_take hsites p (k + 1)
  rw [htake, emitFrom_append, hlen, Nat.zero_add, DraftM.bind_apply, emitFrom_take hsites p k]
    at hnext
  change (Draft.emit sites k i >>= fun _ => Draft.record i.opcode >>= fun _ => pure ())
    (Draft.reached sites p k) = _ at hnext
  rw [DraftM.bind_apply, hd', bind_pure_unit] at hnext
  exact hnext

end Whole

/-! ## The states of one instruction -/

/-- Between the two stages the compiler has dealt with the instruction at `position`. -/
structure Stage.Emitted (sites : CallSites) (p : Program) (position : Nat) (i : Instruction)
    (σ σ' : Stage) : Prop where
  lt_length : position < p.length
  draft_eq : σ.draft = Draft.reached sites p position
  states_eq : σ'.draft.states = (Draft.reached sites p (position + 1)).states
  entries_eq : σ'.draft.entries = (Draft.reached sites p (position + 1)).entries
  emit_eq : Draft.emit sites position i σ.draft = .ok () σ'.draft
  evolves : σ.Evolves (i.scope sites position σ.size) σ'
  ready : σ.Ready position
  ready_succ : σ'.Ready (position + 1)

theorem Stage.Emitted.wiring_final {σ σ' : Stage} (h : σ.Emitted sites p k i σ')
    (hw : Draft.BelongsTo sites p k id) :
    σ'.wiring id = (Draft.reached sites p p.length).states[id]? := by
  rw [← hw.after (k + 1) (Nat.lt_succ_self k) h.lt_length, ← h.states_eq]
  rfl

section Owned

variable (hsites : sites.addresses.length ≤ maxCallSites) {σ σ' : Stage}

include hsites

theorem exists_emitted (hi : p[k]? = some i) : ∃ σ σ' : Stage, σ.Emitted sites p k i σ' := by
  obtain ⟨hk, -⟩ := List.getElem?_eq_some_iff.1 hi
  obtain ⟨σ, -, hσ, -, -, -, hr, -⟩ :=
    exists_reached hsites (Nat.le_of_lt hk) (Nat.le_refl p.length)
  obtain ⟨_, σ', hx, he, hr', -⟩ := emit_builds hsites i hr (Nat.le_refl _)
  obtain ⟨d', hemit, hrecord, -⟩ := exists_emit_reached hsites hi
  rw [← hσ, hx] at hemit
  cases hemit
  -- counting the instruction changes neither states nor entries
  have hlast : Draft.reached sites p (k + 1) =
      { σ'.draft with stats := (Draft.reached sites p (k + 1)).stats } := by
    have hok : EStateM.Result.ok () _ = _ := hrecord
    rw [← (EStateM.Result.ok.inj hok).2]
  exact ⟨σ, σ', hk, hσ, by rw [hlast], by rw [hlast], hx, he, hr, hr'⟩

theorem Stage.Emitted.entry_final (h : σ.Emitted sites p k i σ') (hq : σ'.entry q = some id) :
    (Draft.reached sites p p.length).entries[q]? = some id := by
  refine entries_reached hsites h.lt_length ?_
  rw [← h.entries_eq]
  exact hq

/-- The states of the instruction are settled when it has been dealt with. -/
theorem Stage.Emitted.not_live (h : σ.Emitted sites p k i σ') (hw : Draft.BelongsTo sites p k id) :
    ¬σ'.live id := by
  intro hl
  obtain ⟨q, hq, hentry⟩ := (h.ready_succ.live id).1 hl
  rcases hw.owner with hown | ⟨hno, -⟩
  · have := entries_reached_inj hsites (h.entry_final hsites hentry) hown
    omega
  · exact hno q (h.entry_final hsites hentry)

/-- Before that they are live or do not exist. -/
theorem Stage.Emitted.live_of_lt (h : σ.Emitted sites p k i σ') (hw : Draft.BelongsTo sites p k id)
    (hlt : id < σ.size) : σ.live id := by
  rcases hw.owner with hown | ⟨-, hge, -⟩
  · obtain ⟨id', hid'⟩ := h.ready_succ.entered k (Nat.lt_succ_self k)
    obtain rfl : id = id' := Option.some.inj (hown.symm.trans (h.entry_final hsites hid'))
    rcases h.evolves.entry_new k id hid' with hold | hnew
    · exact (h.ready.live id).2 ⟨k, Nat.le_refl k, hold⟩
    · exact absurd hlt (Nat.not_lt.2 hnew)
  · rw [← h.draft_eq] at hge
    exact absurd hlt (Nat.not_lt.2 hge)

namespace Draft.BelongsTo

theorem lt_size (h : BelongsTo sites p k id) :
    id < (reached sites p p.length).states.size := by
  rcases h.owner with hown | ⟨-, -, hlt⟩
  · obtain ⟨σ, -, hσ, -⟩ := exists_reached hsites (Nat.le_refl p.length) (Nat.le_refl p.length)
    rw [← hσ] at hown ⊢
    exact σ.entry_lt hown
  · rcases Nat.le_total (k + 1) p.length with hle | hle
    · exact Nat.lt_of_lt_of_le hlt (size_reached_le hsites hle)
    · rwa [reached_of_length_le hle] at hlt

/-- A state of a position without an instruction is not wired. -/
theorem wiring_of_length_le (h : BelongsTo sites p k id) (hk : p.length ≤ k) :
    (reached sites p p.length).states[id]? = some .unwired := by
  rcases h.before p.length hk with hnone | hunwired
  · exact absurd (Array.getElem?_eq_none_iff.1 hnone) (Nat.not_le.2 (h.lt_size hsites))
  · exact hunwired

/-- A state is wired by the instruction that it belongs to, if by any. -/
theorem wiredBy_iff (h : BelongsTo sites p k id) :
    WiredBy sites p j id ↔
      j = k ∧ (reached sites p p.length).states[id]? ≠ some .unwired := by
  constructor
  · rintro ⟨st, hst, hbefore, hafter⟩
    have hj : j < p.length := Nat.not_le.1 fun hle => hbefore <| by
      rwa [reached_of_length_le hle, ← reached_of_length_le (Nat.le_succ_of_le hle)]
    rcases Nat.lt_trichotomy j k with hlt | rfl | hgt
    · rcases h.before (j + 1) hlt with hnone | hunwired
      · cases hnone.symm.trans hafter
      · exact absurd (Option.some.inj (hafter.symm.trans hunwired)) hst
    · refine ⟨rfl, fun hunwired => hst ?_⟩
      rw [h.after (j + 1) (Nat.lt_succ_self j) hj, hunwired] at hafter
      exact (Option.some.inj hafter).symm
    · refine absurd ?_ hbefore
      rw [h.after j hgt hj.le, ← h.after (j + 1) (by omega) hj]
      exact hafter
  · rintro ⟨rfl, hwired⟩
    have hj : j < p.length := Nat.not_le.1 fun hle => hwired (h.wiring_of_length_le hsites hle)
    have hst := Array.getElem?_eq_getElem (h.lt_size hsites)
    refine ⟨_, fun heq => hwired (hst.trans (congrArg some heq)), fun heq => ?_,
      (h.after (j + 1) (Nat.lt_succ_self j) hj).trans hst⟩
    rcases h.before j (Nat.le_refl j) with hnone | hunwired
    · cases hnone.symm.trans heq
    · rw [hunwired, ← hst] at heq
      exact hwired heq.symm

/-- An instruction that is not idle wires all states that belong to it. -/
theorem wiredBy_of_not_idle (h : BelongsTo sites p k id) (hi : p[k]? = some i)
    (hidle : ¬i.Idle sites) : WiredBy sites p k id := by
  obtain ⟨σ, σ', hem⟩ := exists_emitted hsites hi
  refine (h.wiredBy_iff hsites).2 ⟨rfl, fun hunwired => ?_⟩
  rw [← hem.wiring_final h] at hunwired
  rcases hem.evolves.wired id hunwired (hem.not_live hsites h) with ⟨hlt, hsettled⟩ | hidle'
  · exact hsettled (hem.live_of_lt hsites h hlt)
  · exact hidle hidle'

end Draft.BelongsTo

end Owned

/-! ## Finished machines -/

namespace Compilation.Finishes

variable {c : Compilation} {σ : Stage}

theorem reached_length (hf : c.Finishes p sites σ) :
    Draft.reached sites p p.length = σ.draft := by
  simp only [Draft.reached, List.take_length, hf.build_eq]

theorem states_eq (hf : c.Finishes p sites σ) :
    c.machine.states = (Draft.reached sites p p.length).states := by
  rw [hf.machine_eq, hf.reached_length]

theorem entries_eq_reached (hf : c.Finishes p sites σ) :
    c.entries = (Draft.reached sites p p.length).entries := by
  rw [hf.entries_eq, hf.reached_length]

/-- Where a state of a compiled program belongs: to an instruction, which wires it unless it rejects
or returns where there are no calls, or to the end of the program, whose entry state is not
wired. -/
theorem wired_or_end {o : Options} (hf : c.Finishes p sites σ) (hc : compile o p = .ok c)
    (h : Draft.BelongsTo sites p k id) :
    (∃ i, p[k]? = some i ∧ (Draft.WiredBy sites p k id ∨ i.opcode = .reject ∨
      (i.opcode = .ret ∧ p.callCount = 0))) ∨
    (k = p.length ∧ c.entries[k]? = some id ∧ c.machine.states[id]? = some .unwired) := by
  have hsites := CallSites.length_le hf.sites_eq
  cases hi : p[k]? with
  | some i =>
    refine .inl ⟨i, rfl, ?_⟩
    by_cases hidle : i.Idle sites
    · rcases hidle with hop | ⟨hop, hnone⟩ | ⟨hop, hnone⟩
      · exact .inr (.inl hop)
      · rw [CallSites.count, CallSites.addresses_eq hf.sites_eq,
          Program.length_returnAddresses] at hnone
        exact .inr (.inr ⟨hop, hnone⟩)
      · exact absurd (.indexBound hop (.inl hnone))
          ((compile_ok_iff.1 ⟨c, hc⟩).2 k i (.indexBound i.operand2 (min o.maxIndex 4294967296)) hi)
    · exact .inl (h.wiredBy_of_not_idle hsites hi hidle)
  | none =>
    have hk : p.length ≤ k := List.getElem?_eq_none_iff.1 hi
    refine .inr ?_
    rcases h.owner with hown | ⟨-, hge, hlt⟩
    · rw [← hf.entries_eq_reached] at hown
      have := le_length_of_entry hc hown
      refine ⟨by omega, hown, ?_⟩
      rw [hf.states_eq, h.wiring_of_length_le hsites hk]
    · rw [reached_of_length_le (Nat.le_succ_of_le hk), ← reached_of_length_le hk] at hlt
      exact absurd hlt (Nat.not_lt.2 hge)

end Compilation.Finishes

/-- Instructions are wired in isolation. The compiler comes to every instruction of a program, deals
with it without fault, and leaves alone all that belongs to others. The sinks and the start state
are wired before the first instruction. Each other state belongs to one position, and the
instruction there is the only one that can wire it. In a compiled program that instruction exists
and does so, with these exceptions: the entry state of the end of the program is not wired, and a
rejecting instruction, or a return in a program without calls, may leave a state as it was handed
out. -/
theorem instructions_isolated (hs : CallSites.ofProgram? p = some sites) :
    (∀ k i, p[k]? = some i →
      Draft.build sites (p.take k) (Draft.forSites sites) = .ok 2 (Draft.reached sites p k) ∧
        ∃ d', Draft.emit sites k i (Draft.reached sites p k) = .ok () d' ∧
          Draft.record i.opcode d' = .ok () (Draft.reached sites p (k + 1)) ∧
            (Draft.reached sites p k).Isolated k d') ∧
    (∀ id, id < 3 → ∀ k, k ≤ p.length →
      (Draft.reached sites p k).states[id]? = (Draft.reached sites p p.length).states[id]?) ∧
    (∀ id, 3 ≤ id → id < (Draft.reached sites p p.length).states.size →
      ∃! k, Draft.BelongsTo sites p k id) ∧
    (∀ k id, Draft.BelongsTo sites p k id → ∀ j, Draft.WiredBy sites p j id ↔
      j = k ∧ (Draft.reached sites p p.length).states[id]? ≠ some .unwired) ∧
    ∀ o c, compile o p = .ok c → c.machine.states = (Draft.reached sites p p.length).states ∧
      c.entries = (Draft.reached sites p p.length).entries ∧
        ∀ k id, Draft.BelongsTo sites p k id →
          (∃ i, p[k]? = some i ∧ (Draft.WiredBy sites p k id ∨ i.opcode = .reject ∨
            (i.opcode = .ret ∧ p.callCount = 0))) ∨
          (k = p.length ∧ c.entries[k]? = some id ∧ c.machine.states[id]? = some .unwired) := by
  have hsites := CallSites.length_le hs
  refine ⟨fun k i hi => ⟨build_of_emitFrom (emitFrom_take hsites p k),
    exists_emit_reached hsites hi⟩, fun id hid k hk => states_reached_of_lt hsites hk hid,
    fun id h3 hlt => existsUnique_belongsTo hsites hlt h3,
    fun k id h j => h.wiredBy_iff hsites, fun o c hc => ?_⟩
  obtain ⟨-, sites', σ, hf⟩ := exists_finishes hc
  obtain rfl : sites = sites' := Option.some.inj (hs.symm.trans hf.sites_eq)
  exact ⟨hf.states_eq, hf.entries_eq_reached, fun k id => hf.wired_or_end hc⟩

theorem callOnce_call_isolated :
    (∃ d',
      Draft.emit ⟨[3]⟩ 2 ⟨.call, 0, 0, 4⟩ (Draft.reached ⟨[3]⟩ Program.callOnce 2) = .ok () d' ∧
      (Draft.reached ⟨[3]⟩ Program.callOnce 2).Isolated 2 d') ∧
    ∀ k, Draft.WiredBy ⟨[3]⟩ Program.callOnce k 3 ↔ k = 0 := by
  obtain ⟨c, hc⟩ := callOnce_compiles
  obtain ⟨hemit, -, -, hwired, hcompiled⟩ := instructions_isolated callOnce_sites
  obtain ⟨-, d', hd', -, hiso⟩ := hemit 2 ⟨.call, 0, 0, 4⟩ rfl
  refine ⟨⟨d', hd', hiso⟩, fun k => ?_⟩
  have hentry : (Draft.reached ⟨[3]⟩ Program.callOnce 0).entries[0]? = some 3 := rfl
  have hfirst : Draft.BelongsTo ⟨[3]⟩ Program.callOnce 0 3 :=
    belongsTo_of_entry (by decide) (entries_reached (by decide) (Nat.zero_le _) hentry)
  have hzero : Draft.WiredBy ⟨[3]⟩ Program.callOnce 0 3 := by
    rcases (hcompiled {} c hc).2.2 0 3 hfirst with ⟨i, hi, hwired | hop | hop⟩ | hend
    · exact hwired
    · cases hi
      cases hop
    · cases hi
      cases hop.1
    · cases hend.1
  exact ⟨fun h => ((hwired 0 3 hfirst k).1 h).1, fun h => h ▸ hzero⟩

/-- It is not so that an instruction wires each state: nothing follows the only instruction of this
program, so nothing wires the state in which it ends. -/
theorem end_of_pop_not_wired :
    ¬∀ (p : Program) (sites : CallSites) (o : Options) (c : Compilation),
      CallSites.ofProgram? p = some sites → compile o p = .ok c →
        ∀ id, 3 ≤ id → id < c.machine.states.size → ∃! k, Draft.WiredBy sites p k id := by
  intro hall
  let p : Program := [⟨.pop .w8, 0, 0, 0⟩]
  have hs : CallSites.ofProgram? p = some ⟨[]⟩ := rfl
  have hsites := CallSites.length_le hs
  obtain ⟨c, hc⟩ := exists_compile (o := {}) hs (by decide)
  obtain ⟨-, sites, σ, hf⟩ := exists_finishes hc
  obtain rfl : ⟨[]⟩ = sites := Option.some.inj (hs.symm.trans hf.sites_eq)
  have hentry : (Draft.reached ⟨[]⟩ p p.length).entries[1]? = some 4 := rfl
  have hend : Draft.BelongsTo ⟨[]⟩ p 1 4 := belongsTo_of_entry hsites hentry
  have hlt : 4 < c.machine.states.size := hf.states_eq ▸ hend.lt_size hsites
  obtain ⟨k, hk, -⟩ := hall p ⟨[]⟩ {} c hs hc 4 (by decide) hlt
  exact ((hend.wiredBy_iff hsites).1 hk).2 (hend.wiring_of_length_le hsites (Nat.le_refl 1))

end StackTape
