import StackTape.Proofs.Stage

/-!
# Single constructions

What handing out a state, asking for an entry state and wiring a state do to a stage, and loops of
constructions. From here on drafts are not looked into any more.
-/

namespace StackTape

open Stage

variable {k : Scope} {σ : Stage}

/-! ## New states -/

/-- A row of states has been added, all live and none of them an entry state. -/
structure Stage.Adds (k : Scope) (σ : Stage) (first count : Nat) (σ' : Stage) : Prop where
  first_eq : first = σ.size
  size_eq : σ'.size = σ.size + count
  changes : σ.Changes nothing (fun id => first ≤ id ∧ id < first + count) σ'
  target : ∀ i, i < count → σ'.Target k (first + i)
  inner : ∀ i, i < count → σ'.Ensures (·.Inner (first + i))

/-- The stage with `n` more states, all of them live. -/
def Stage.grow (σ : Stage) (n : Nat) : Stage where
  draft :=
    { σ.draft with
      states := σ.draft.states ++ Array.replicate n .unwired
      stats := { σ.draft.stats with allocated := σ.draft.stats.allocated + n } }
  live id := σ.live id ∨ (σ.size ≤ id ∧ id < σ.size + n)
  live_lt h := by
    rw [Array.size_append, Array.size_replicate]
    rcases h with h | h
    · exact Nat.lt_add_right n (σ.live_lt h)
    · exact h.2
  two_le := by
    rw [Array.size_append]
    exact Nat.le_add_right_of_le σ.two_le
  two_le_entry := σ.two_le_entry
  entry_lt h := by
    rw [Array.size_append]
    exact Nat.lt_add_right _ (σ.entry_lt h)
  entry_inj := σ.entry_inj

theorem Stage.size_grow (n : Nat) : (σ.grow n).size = σ.size + n := by
  simp [grow, size]

theorem Stage.wiring_grow_of_lt {n id : Nat} (h : id < σ.size) :
    (σ.grow n).wiring id = σ.wiring id :=
  Array.getElem?_append_left h

theorem Stage.wiring_grow {n id : Nat} (hle : σ.size ≤ id) (hlt : id < σ.size + n) :
    (σ.grow n).wiring id = some .unwired := by
  have hlt : id - σ.draft.states.size < n := Nat.sub_lt_left_of_lt_add hle hlt
  change (σ.draft.states ++ Array.replicate n State.unwired)[id]? = _
  rw [Array.getElem?_append_right hle, Array.getElem?_replicate, if_pos hlt]

/-- Of the states in the larger stage only old ones are settled. -/
theorem Stage.settled_of_grow {n id : Nat} (hlt : id < (σ.grow n).size)
    (hl : ¬(σ.grow n).live id) : id < σ.size ∧ ¬σ.live id := by
  rw [size_grow] at hlt
  obtain ⟨hl, hn⟩ := not_or.1 hl
  exact ⟨by omega, hl⟩

theorem Stage.evolves_grow (k : Scope) (σ : Stage) (n : Nat) : σ.Evolves k (σ.grow n) where
  size_le := by
    rw [size_grow]
    exact Nat.le_add_right _ _
  settled id hlt hl := by
    refine ⟨?_, wiring_grow_of_lt hlt⟩
    rintro (h | h)
    · exact hl h
    · omega
  wellFormed _ _ hw hl := .inl (settled_of_grow (lt_of_wiring hw) hl)
  wired _ hw hl := .inl (settled_of_grow (lt_of_wiring hw) hl)
  entry _ _ h := h
  entry_new _ _ h := .inl h

theorem freshBlock_builds (n : Nat) :
    Builds k σ (Draft.freshBlock n) fun block σ' => σ.Adds k block.first n σ' := by
  intro hb
  have hlt : ∀ i, i < n → σ.size + i < (σ.grow n).size := fun i hi => by
    rw [size_grow]
    omega
  have hfree : ∀ i q, (σ.grow n).entry q ≠ some (σ.size + i) := by
    intro i q hq
    have : σ.size + i < σ.size := σ.entry_lt hq
    omega
  refine ⟨⟨σ.size⟩, σ.grow n, rfl, σ.evolves_grow k n, rfl, size_grow n, ?_, fun i hi => ?_,
    fun i hi => ?_⟩
  · exact ⟨fun _ => rfl, fun id hlt _ => wiring_grow_of_lt hlt, fun id => by simp [grow],
      fun id h => wiring_grow h.1 h.2⟩
  · exact .own (Nat.le_trans hb (Nat.le_add_right _ _)) (hlt i hi) (hfree i)
  · exact ensures_inner (Nat.le_trans σ.two_le (Nat.le_add_right _ _)) (hlt i hi) (hfree i)

/-- A state has been added. -/
structure Stage.AddsOne (k : Scope) (σ : Stage) (a : Nat) (σ' : Stage) : Prop where
  eq_size : a = σ.size
  changes : σ.Changes nothing (only a) σ'
  target : σ'.Target k a
  inner : σ'.Ensures (·.Inner a)

theorem fresh_builds : Builds k σ Draft.fresh fun a σ' => σ.AddsOne k a σ' := by
  intro hb
  obtain ⟨block, σ', hx, he, h⟩ := freshBlock_builds (k := k) (σ := σ) 1 hb
  have hfirst := h.first_eq
  refine ⟨σ.size, σ', ?_, he, rfl, ?_, ?_, ?_⟩
  · rw [Draft.freshBlock_apply, EStateM.Result.ok.injEq] at hx
    rw [Draft.fresh_apply, ← hx.2, Array.push_eq_append]
    rfl
  · obtain ⟨h₁, h₂, h₃, h₄⟩ := h.changes
    rw [hfirst] at h₃ h₄
    have hone : ∀ id, id = σ.size ↔ σ.size ≤ id ∧ id < σ.size + 1 := fun id => by omega
    exact ⟨h₁, h₂, fun id => by rw [h₃, ← hone], fun id hid => h₄ id ((hone id).1 hid)⟩
  · exact hfirst ▸ h.target 0 (by omega)
  · exact hfirst ▸ h.inner 0 (by omega)

/-! ## Entry states -/

/-- The entry state of a position is known; if it had to be handed out, it is live. -/
structure Stage.Enters (σ : Stage) (q id : Nat) (σ' : Stage) : Prop where
  entry_self : σ'.entry q = some id
  entry_of_ne : ∀ r, r ≠ q → σ'.entry r = σ.entry r
  wiring : ∀ i, i < σ.size → σ'.wiring i = σ.wiring i
  live : ∀ i, σ'.live i ↔ σ.live i ∨ (σ.entry q = none ∧ i = id)
  fresh : σ.entry q = none → id = σ.size ∧ σ'.wiring id = some .unwired
  entry_of_some : ∀ {i}, σ.entry q = some i → id = i
  eq_of_le : ∀ {i}, σ.size ≤ i → i < σ'.size → i = id

theorem Stage.entry_insert {q r id : Nat}
    (h : (σ.draft.entries.insert q σ.size)[r]? = some id) :
    (q = r ∧ id = σ.size) ∨ (q ≠ r ∧ σ.entry r = some id) := by
  rw [Std.TreeMap.getElem?_insert] at h
  split at h
  · next hr =>
    cases h
    exact .inl ⟨compare_eq_iff_eq.1 hr, rfl⟩
  · next hr => exact .inr ⟨fun heq => hr (compare_eq_iff_eq.2 heq), h⟩

/-- The stage in which a position has got a new state for its entry state. -/
def Stage.enter (σ : Stage) (q : Nat) : Stage :=
  { σ.grow 1 with
    draft := { (σ.grow 1).draft with entries := σ.draft.entries.insert q σ.size }
    two_le_entry := fun h => by
      rcases entry_insert h with ⟨-, rfl⟩ | ⟨-, h⟩
      · exact σ.two_le
      · exact σ.two_le_entry h
    entry_lt := fun h => by
      rcases entry_insert h with ⟨-, rfl⟩ | ⟨-, h⟩
      · exact (σ.grow 1).live_lt (.inr ⟨Nat.le_refl _, Nat.lt_succ_self _⟩)
      · exact (σ.grow 1).entry_lt h
    entry_inj := fun h₁ h₂ => by
      rcases entry_insert h₁ with ⟨rfl, rfl⟩ | ⟨-, h₁⟩ <;>
        rcases entry_insert h₂ with ⟨rfl, h⟩ | ⟨-, h₂⟩
      · rfl
      · exact absurd (σ.entry_lt h₂) (Nat.lt_irrefl _)
      · rw [h] at h₁
        exact absurd (σ.entry_lt h₁) (Nat.lt_irrefl _)
      · exact σ.entry_inj h₁ h₂ }

theorem Stage.entry_enter_self (q : Nat) : (σ.enter q).entry q = some σ.size :=
  Std.TreeMap.getElem?_insert_self

theorem Stage.entry_enter_of_ne {q r : Nat} (h : r ≠ q) : (σ.enter q).entry r = σ.entry r := by
  change (σ.draft.entries.insert q σ.size)[r]? = _
  rw [Std.TreeMap.getElem?_insert, if_neg fun heq => h (compare_eq_iff_eq.1 heq).symm]
  rfl

theorem Stage.evolves_enter {q : Nat} (hq : σ.entry q = none) : σ.Evolves k (σ.enter q) where
  size_le := (σ.evolves_grow k 1).size_le
  settled := (σ.evolves_grow k 1).settled
  wellFormed _ _ hw hl := .inl (settled_of_grow (lt_of_wiring hw) hl)
  wired _ hw hl := .inl (settled_of_grow (lt_of_wiring hw) hl)
  entry r id h := by
    rwa [entry_enter_of_ne]
    rintro rfl
    cases hq.symm.trans h
  entry_new r id h := by
    rcases entry_insert h with ⟨-, rfl⟩ | ⟨-, h⟩
    · exact .inr (Nat.le_refl _)
    · exact .inl h

theorem entryAt_builds (q : Nat) :
    Builds k σ (Draft.entryAt q) fun id σ' => σ.Enters q id σ' := by
  intro _
  cases hq : σ.entry q with
  | some id =>
    refine ⟨id, σ, Draft.entryAt_apply_of_some hq, .refl k σ, hq, fun _ _ => rfl, fun _ _ => rfl,
      fun i => ?_, fun h => ?_, fun h => ?_, fun hle hlt => absurd hlt (Nat.not_lt.2 hle)⟩
    · simp [hq]
    · cases hq.symm.trans h
    · exact Option.some.inj (hq.symm.trans h)
  | none =>
    have happly : Draft.entryAt q σ.draft = .ok σ.size (σ.enter q).draft := by
      rw [Draft.entryAt_apply_of_none hq, Array.push_eq_append]
      rfl
    refine ⟨σ.size, σ.enter q, happly, evolves_enter hq, entry_enter_self q,
      fun r hr => entry_enter_of_ne hr, fun i hi => wiring_grow_of_lt hi, fun i => ?_,
      fun _ => ⟨rfl, wiring_grow (Nat.le_refl _) (Nat.lt_succ_self _)⟩,
      fun h => (by cases hq.symm.trans h), fun {i} hle hlt => ?_⟩
    · change σ.live i ∨ (σ.size ≤ i ∧ i < σ.size + 1) ↔ _
      rw [hq, Nat.lt_succ_iff, and_comm, ← Nat.le_antisymm_iff]
      simp
    · have hlt : i < σ.size + 1 := size_grow (σ := σ) 1 ▸ hlt
      omega

/-- Between the two stages entry states have been handed out, which are live and not wired, the
`touched` states have been rewired, and the `closed` ones are not live any more. -/
structure Stage.Extends (touched closed : Nat → Prop) (σ σ' : Stage) : Prop where
  wiring : ∀ id, id < σ.size → ¬touched id → σ'.wiring id = σ.wiring id
  live : ∀ id, σ'.live id ↔
    (σ.live id ∧ ¬closed id) ∨ (σ.size ≤ id ∧ ∃ q, σ'.entry q = some id)
  unwired : ∀ q id, σ'.entry q = some id → σ.size ≤ id → σ'.wiring id = some .unwired

namespace Stage.Extends

variable {σ₁ σ₂ σ₃ : Stage} {S T C D : Nat → Prop}

theorem trans (h₁ : σ₁.Extends S C σ₂) (h₂ : σ₂.Extends T D σ₃) (he₁ : σ₁.Evolves k σ₂)
    (he₂ : σ₂.Evolves k σ₃) (hT : ∀ id, T id → id < σ₁.size) (hD : ∀ id, D id → id < σ₁.size) :
    σ₁.Extends (fun id => S id ∨ T id) (fun id => C id ∨ D id) σ₃ where
  wiring id hlt hn := by
    rw [not_or] at hn
    rw [h₂.wiring id (Nat.lt_of_lt_of_le hlt he₁.size_le) hn.2, h₁.wiring id hlt hn.1]
  live id := by
    rw [h₂.live, h₁.live]
    have hle := he₁.size_le
    constructor
    · rintro (⟨⟨hl, hc⟩ | ⟨hnew, q, hq⟩, hd⟩ | ⟨hnew, hq⟩)
      · exact .inl ⟨hl, by rintro (h | h); exacts [hc h, hd h]⟩
      · exact .inr ⟨hnew, q, he₂.entry q id hq⟩
      · exact .inr ⟨Nat.le_trans hle hnew, hq⟩
    · rintro (⟨hl, hn⟩ | ⟨hnew, q, hq⟩)
      · rw [not_or] at hn
        exact .inl ⟨.inl ⟨hl, hn.1⟩, hn.2⟩
      · rcases he₂.entry_new q id hq with hold | hlater
        · exact .inl ⟨.inr ⟨hnew, q, hold⟩, fun hd => by have := hD id hd; omega⟩
        · exact .inr ⟨hlater, q, hq⟩
  unwired q id hq hnew := by
    rcases he₂.entry_new q id hq with hold | hlater
    · have hlt : id < σ₂.size := σ₂.entry_lt hold
      rw [h₂.wiring id hlt fun ht => by have := hT id ht; omega]
      exact h₁.unwired q id hold hnew
    · exact h₂.unwired q id hq hlater

end Stage.Extends

theorem Stage.Changes.extends {σ' : Stage} {C : Nat → Prop} (h : σ.Changes C nothing σ') :
    σ.Extends C C σ' := by
  have hnone : ∀ {q id : Nat}, σ'.entry q = some id → ¬σ.size ≤ id := fun {q id} hq hle =>
    absurd (σ.entry_lt ((h.entry q).symm.trans hq)) (Nat.not_lt.2 hle)
  refine ⟨h.wiring, fun id => ?_, fun q id hq hle => absurd hle (hnone hq)⟩
  rw [h.live]
  exact or_congr_right (iff_of_false (fun h => h) fun ⟨hle, q, hq⟩ => hnone hq hle)

theorem Stage.Enters.extends {σ' : Stage} {q id : Nat} (h : σ.Enters q id σ') :
    σ.Extends nothing nothing σ' := by
  have hnew : ∀ {r i : Nat}, σ'.entry r = some i → σ.size ≤ i → σ.entry q = none ∧ i = id := by
    intro r i hr hle
    by_cases hrq : r = q
    · subst hrq
      obtain rfl : id = i := Option.some.inj (h.entry_self.symm.trans hr)
      refine ⟨?_, rfl⟩
      cases hq : σ.entry r with
      | none => rfl
      | some j =>
        rw [h.entry_of_some hq] at hle
        exact absurd (σ.entry_lt hq) (Nat.not_lt.2 hle)
    · exact absurd (σ.entry_lt ((h.entry_of_ne r hrq).symm.trans hr)) (Nat.not_lt.2 hle)
  refine ⟨fun i hlt _ => h.wiring i hlt, fun i => ?_, fun r i hr hle => ?_⟩
  · rw [h.live]
    refine or_congr (by simp) ⟨?_, fun ⟨hle, r, hr⟩ => hnew hr hle⟩
    rintro ⟨hq, rfl⟩
    exact ⟨Nat.le_of_eq (h.fresh hq).1.symm, q, h.entry_self⟩
  · obtain ⟨hq, rfl⟩ := hnew hr hle
    exact (h.fresh hq).2

/-- A state that is handed out before entry states are, and closed after that, leaves no trace. -/
theorem Stage.Extends.between {σ₁ σ₂ σ₃ : Stage} {C T E : Nat → Prop} {a : Nat}
    (h₁ : σ.Changes C (only a) σ₁) (ha : σ.size ≤ a)
    (h₂ : σ₁.Extends T nothing σ₂) (he₂ : σ₁.Evolves k σ₂) (h₃ : σ₂.Changes (only a) nothing σ₃)
    (hE : ∀ id, id < σ.size → C id ∨ T id → E id) : σ.Extends E C σ₃ := by
  have hle₂ := he₂.size_le
  have hlt : a < σ₁.size := lt_of_wiring (h₁.unwired a rfl)
  -- entry states are handed out after the state only
  have hlater : ∀ {q id : Nat}, σ₂.entry q = some id → σ.size ≤ id → σ₁.size ≤ id := by
    intro q id hq hle
    rcases he₂.entry_new q id hq with hold | hnew
    · rw [h₁.entry] at hold
      exact absurd (σ.entry_lt hold) (Nat.not_lt.2 hle)
    · exact hnew
  refine ⟨fun id hid hn => ?_, fun id => ?_, fun q id hq hnew => ?_⟩
  · have hn' := not_or.1 fun h => hn (hE id hid h)
    rw [h₃.wiring id (by omega) (by simp only [only]; omega), h₂.wiring id (by omega) hn'.2,
      h₁.wiring id hid hn'.1]
  · have hentry : (∃ q, σ₃.entry q = some id) ↔ ∃ q, σ₂.entry q = some id :=
      exists_congr fun q => by rw [h₃.entry]
    rw [h₃.live, h₂.live, h₁.live, hentry]
    simp only [only, nothing, not_false_eq_true, and_true, or_false]
    constructor
    · rintro ⟨(hl | hl) | ⟨hle, hq⟩, hna⟩
      · exact .inl hl
      · exact absurd hl hna
      · exact .inr ⟨by omega, hq⟩
    · rintro (hl | ⟨hle, q, hq⟩)
      · have : id < σ.size := σ.live_lt hl.1
        exact ⟨.inl (.inl hl), by omega⟩
      · have := hlater hq hle
        exact ⟨.inr ⟨this, q, hq⟩, by omega⟩
  · rw [h₃.entry] at hq
    have hle := hlater hq hnew
    rw [h₃.wiring id (σ₂.entry_lt hq) (by simp only [only]; omega)]
    exact h₂.unwired q id hq hle

/-! ## Wiring -/

/-- A live state has been rewired and stays live. -/
structure Stage.Edits (σ : Stage) (s : Nat) (st : State) (σ' : Stage) : Prop where
  size_eq : σ'.size = σ.size
  entry : ∀ q, σ'.entry q = σ.entry q
  live : ∀ id, σ'.live id ↔ σ.live id
  wiring_self : σ'.wiring s = some st
  wiring : ∀ id, id ≠ s → σ'.wiring id = σ.wiring id

theorem Stage.Edits.extends {σ' : Stage} {s : Nat} {st : State} (h : σ.Edits s st σ') :
    σ.Extends (only s) nothing σ' := by
  have hold : ∀ {q id : Nat}, σ'.entry q = some id → ¬σ.size ≤ id := fun {q id} hq hle =>
    absurd (σ.entry_lt ((h.entry q).symm.trans hq)) (Nat.not_lt.2 hle)
  refine ⟨fun id _ hne => h.wiring id hne, fun id => ?_, fun q id hq hle => absurd hle (hold hq)⟩
  rw [h.live]
  simp only [nothing, not_false_eq_true, and_true]
  exact (or_iff_left fun ⟨hle, q, hq⟩ => hold hq hle).symm

/-- The stage with another wiring of a state. -/
def Stage.rewired (σ : Stage) (s : Nat) (st : State) : Stage :=
  { σ with
    draft := { σ.draft with states := σ.draft.states.setIfInBounds s st }
    live_lt := fun h => by simpa using σ.live_lt h
    two_le := by simpa using σ.two_le
    entry_lt := fun h => by simpa using σ.entry_lt h }

theorem Stage.size_rewired (s : Nat) (st : State) : (σ.rewired s st).size = σ.size :=
  Array.size_setIfInBounds

theorem Stage.wiring_rewired_of_ne {s id : Nat} (st : State) (h : id ≠ s) :
    (σ.rewired s st).wiring id = σ.wiring id :=
  Array.getElem?_setIfInBounds_ne h.symm

theorem rewire_edits {s : Nat} {st : State} (f : State → State) (hl : σ.live s)
    (hw : σ.wiring s = some st) :
    Builds k σ (Draft.rewire s f) fun _ σ' => σ.Edits s (f st) σ' := by
  intro _
  have hlt : s < σ.draft.states.size := σ.live_lt hl
  have happly : Draft.rewire s f σ.draft = .ok () (σ.rewired s (f st)).draft := by
    rw [Draft.rewire_apply hlt, (Array.getElem?_eq_some_iff.1 hw).2]
    simp only [rewired, Array.setIfInBounds, dif_pos hlt]
  refine ⟨(), σ.rewired s (f st), happly, ?_, size_rewired s _, fun _ => rfl, fun _ => .rfl,
    Array.getElem?_setIfInBounds_self_of_lt hlt, fun id h => wiring_rewired_of_ne _ h⟩
  have hold : ∀ {id st'}, (σ.rewired s (f st)).wiring id = some st' → id < σ.size :=
    fun hw' => size_rewired (σ := σ) s (f st) ▸ lt_of_wiring hw'
  refine ⟨(size_rewired s _).ge, fun id _ h => ⟨h, wiring_rewired_of_ne _ ?_⟩,
    fun _ _ hw' hn => .inl ⟨hold hw', hn⟩, fun _ hw' hn => .inl ⟨hold hw', hn⟩, fun _ _ h => h,
    fun _ _ h => .inl h⟩
  rintro rfl
  exact h hl

/-- The stage in which some more states are settled. -/
def Stage.settle (σ : Stage) (S : Nat → Prop) : Stage :=
  { σ with
    live := fun id => σ.live id ∧ ¬S id
    live_lt := fun h => σ.live_lt h.1 }

theorem Stage.Target.settle {S : Nat → Prop} {id : Nat} (h : σ.Target k id) :
    (σ.settle S).Target k id := by
  cases h with
  | reject h => exact .reject h
  | accept h ha => exact .accept h ha
  | goal q hq h => exact .goal q hq h
  | own hb hlt he => exact .own hb hlt he

theorem Stage.changes_settle (σ : Stage) (S : Nat → Prop) : σ.Changes S nothing (σ.settle S) :=
  ⟨fun _ => rfl, fun _ _ _ => rfl, fun _ => (iff_of_eq (or_false _)).symm, fun _ h => h.elim⟩

/-- States that are wired and well formed can be settled. -/
theorem Stage.evolves_settle {S : Nat → Prop}
    (hS : ∀ id, S id → ∃ st, σ.wiring id = some st ∧ st.WellFormed (σ.Target k) ∧
      (st ≠ .unwired ∨ k.idle)) :
    σ.Evolves k (σ.settle S) where
  size_le := Nat.le_refl _
  settled _ _ hl := ⟨fun h => hl h.1, rfl⟩
  wellFormed id st' hw' hl := by
    have hw' : σ.wiring id = some st' := hw'
    by_cases hs : S id
    · obtain ⟨st, hw, hwf, -⟩ := hS id hs
      obtain rfl : st = st' := Option.some.inj (hw.symm.trans hw')
      exact .inr (hwf.mono fun _ => Target.settle)
    · exact .inl ⟨lt_of_wiring hw', fun h => hl ⟨h, hs⟩⟩
  wired id hw' hl := by
    by_cases hs : S id
    · obtain ⟨st, hw, -, hne⟩ := hS id hs
      exact .inr (hne.resolve_left fun h => h (Option.some.inj (hw.symm.trans hw')))
    · exact .inl ⟨lt_of_wiring (σ := σ) hw', fun h => hl ⟨h, hs⟩⟩
  entry _ _ h := h
  entry_new _ _ h := .inl h

/-- Live states are settled once the construction has wired them. -/
theorem Builds.settle {α : Type} {x : DraftM α} {P Q : α → Stage → Prop} (S : Nat → Prop)
    (h : Builds k σ x P)
    (hS : ∀ a σ', σ.Evolves k σ' → P a σ' →
      ∀ id, S id → ∃ st, σ'.wiring id = some st ∧ st.WellFormed (σ'.Target k) ∧
        (st ≠ .unwired ∨ k.idle))
    (hQ : ∀ a σ', σ.Evolves k σ' → P a σ' → σ'.Evolves k (σ'.settle S) →
      (∀ id st, S id → σ'.wiring id = some st →
        (σ'.settle S).Ensures fun c => c.machine.states[id]? = some st) → Q a (σ'.settle S)) :
    Builds k σ x Q := by
  intro hb
  obtain ⟨a, σ', hx, he, hp⟩ := h hb
  have hev := evolves_settle (hS a σ' he hp)
  refine ⟨a, σ'.settle S, hx, he.trans hev, hQ a σ' he hp hev ?_⟩
  intro id st hs hw c hc
  exact (hc.wiring id (lt_of_wiring hw) fun h => h.2 hs).trans hw

/-- A live state gets its final wiring. -/
theorem rewire_builds {s : Nat} {st : State} (f : State → State) (hl : σ.live s)
    (hw : σ.wiring s = some st) (hwf : (f st).WellFormed (σ.Target k))
    (hne : f st ≠ .unwired ∨ k.idle) :
    Builds k σ (Draft.rewire s f) fun _ σ' => σ.Changes (only s) nothing σ' ∧
      σ'.Ensures fun c => c.machine.states[s]? = some (f st) := by
  refine (rewire_edits f hl hw).settle (only s) ?_ ?_
  · rintro _ σ' he h _ rfl
    exact ⟨_, h.wiring_self, hwf.mono fun _ => Target.mono he, hne⟩
  · refine fun _ σ' _ h _ hc => ⟨⟨h.entry, fun id _ hne => h.wiring id hne, fun id => ?_,
      fun _ h => h.elim⟩, hc s _ rfl h.wiring_self⟩
    change σ'.live id ∧ id ≠ s ↔ _
    rw [h.live]
    simp

/-- Two changes to one state are one change. -/
theorem Draft.rewire_rewire (s : Nat) (f g : State → State) :
    (do Draft.rewire s f; Draft.rewire s g) = Draft.rewire s fun st => g (f st) := by
  funext d
  rw [DraftM.bind_apply]
  by_cases h : s < d.states.size
  · rw [Draft.rewire_apply h, Draft.rewire_apply h]
    have h' : s < (d.states.set s (f d.states[s])).size := by simpa using h
    change Draft.rewire s g { d with states := d.states.set s (f d.states[s]) } = _
    rw [Draft.rewire_apply h']
    simp
  · rw [Draft.rewire_apply_of_le (Nat.not_lt.1 h), Draft.rewire_apply_of_le (Nat.not_lt.1 h)]

/-! ## Loops -/

/-- A loop keeps an invariant that speaks of the elements dealt with so far. -/
theorem Builds.forM {β : Type} {f : β → DraftM Unit} (l : List β)
    (inv : List β → Stage → Prop) (hinit : inv [] σ)
    (hstep : ∀ (before : List β) (b : β) (rest : List β), l = before ++ b :: rest →
      ∀ σ', σ.Evolves k σ' → inv before σ' →
        Builds k σ' (f b) fun _ σ'' => inv (before ++ [b]) σ'') :
    Builds k σ (l.forM f) fun _ σ' => inv l σ' := by
  suffices h : ∀ (rest before : List β) (σ' : Stage), l = before ++ rest → σ.Evolves k σ' →
      inv before σ' → Builds k σ' (rest.forM f) fun _ σ'' => inv l σ'' from
    h l [] σ rfl (.refl k σ) hinit
  intro rest
  induction rest with
  | nil =>
    intro before σ' hl _ hi
    rw [List.append_nil] at hl
    exact .pure (hl ▸ hi)
  | cons b rest ih =>
    intro before σ' hl he hi
    change Builds k σ' (f b >>= fun _ => rest.forM f) _
    refine (hstep before b rest hl σ' he hi).bind fun _ σ'' he' hi' => ?_
    exact ih (before ++ [b]) σ'' (by rw [hl, List.append_assoc]; rfl) (he.trans he') hi'

/-- A loop that collects results: each is related to its element, the relation outlasts later
constructions, and so does what the steps of the loop leave unchanged. -/
theorem Builds.mapM {β γ : Type} {f : β → DraftM γ} (l : List β) (F : Stage → Stage → Prop)
    (R : β → γ → Stage → Prop) (hrefl : F σ σ)
    (htrans : ∀ σ₁ σ₂, σ.Evolves k σ₁ → σ₁.Evolves k σ₂ → F σ σ₁ → F σ₁ σ₂ → F σ σ₂)
    (hmono : ∀ b r σ₁ σ₂, σ₁.Evolves k σ₂ → R b r σ₁ → R b r σ₂)
    (hstep : ∀ b ∈ l, ∀ σ', σ.Evolves k σ' → Builds k σ' (f b) fun r σ'' => F σ' σ'' ∧ R b r σ'') :
    Builds k σ (l.mapM f) fun rs σ' => F σ σ' ∧ List.Forall₂ (R · · σ') l rs := by
  suffices h : ∀ (l' : List β) (σ' : Stage), (∀ b ∈ l', b ∈ l) → σ.Evolves k σ' → F σ σ' →
      Builds k σ' (l'.mapM f) fun rs σ'' => F σ σ'' ∧ List.Forall₂ (R · · σ'') l' rs from
    h l σ (fun _ => id) (.refl k σ) hrefl
  intro l'
  induction l' with
  | nil => exact fun σ' _ _ hF => .pure ⟨hF, .nil⟩
  | cons b l' ih =>
    intro σ' hsub he hF
    rw [List.mapM_cons]
    refine (hstep b (hsub b List.mem_cons_self) σ' he).bind fun r σ₁ he₁ ⟨hF₁, hr⟩ => ?_
    refine (ih σ₁ (fun b' hb' => hsub b' (List.mem_cons_of_mem _ hb')) (he.trans he₁)
      (htrans σ' σ₁ he he₁ hF hF₁)).bind fun rs σ₂ he₂ ⟨hF₂, hrs⟩ => ?_
    exact .pure ⟨hF₂, .cons (hmono b r σ₁ σ₂ he₂ hr) hrs⟩

/-- A loop in which every element wires a live state of its own. -/
theorem Builds.forM_close {β : Type} {f : β → DraftM Unit} (l : List β) (s : β → Nat)
    (fact : β → Compilation → Prop) (hs : (l.map s).Nodup)
    (hlive : ∀ b ∈ l, σ.live (s b) ∧ σ.wiring (s b) = some .unwired)
    (hstep : ∀ b ∈ l, ∀ σ', σ.Evolves k σ' → σ'.live (s b) →
      σ'.wiring (s b) = some .unwired → Builds k σ' (f b) fun _ σ'' =>
        σ'.Changes (only (s b)) nothing σ'' ∧ σ''.Ensures (fact b)) :
    Builds k σ (l.forM f) fun _ σ' => σ.Changes (fun id => id ∈ l.map s) nothing σ' ∧
      σ'.Ensures fun c => ∀ b ∈ l, fact b c := by
  induction l generalizing σ with
  | nil =>
    refine .pure ⟨?_, fun c _ b hb => by cases hb⟩
    exact ⟨fun _ => rfl, fun _ _ _ => rfl, fun _ => by simp, fun _ h => h.elim⟩
  | cons b l ih =>
    change Builds k σ (f b >>= fun _ => l.forM f) _
    rw [List.map_cons, List.nodup_cons] at hs
    obtain ⟨hb, hw⟩ := hlive b List.mem_cons_self
    refine (hstep b List.mem_cons_self σ (.refl k σ) hb hw).bind fun _ σ₁ he₁ ⟨hc₁, hf₁⟩ => ?_
    have hlive₁ : ∀ b' ∈ l, σ₁.live (s b') ∧ σ₁.wiring (s b') = some .unwired := by
      intro b' hb'
      obtain ⟨h₁, h₂⟩ := hlive b' (List.mem_cons_of_mem _ hb')
      exact hc₁.keep h₁ h₂ fun h => hs.1 (h ▸ List.mem_map_of_mem hb')
    refine (ih hs.2 hlive₁ fun b' hb' σ' he => hstep b' (List.mem_cons_of_mem _ hb') σ'
      (he₁.trans he)).imp fun _ σ₂ he₂ ⟨hc₂, hf₂⟩ => ⟨?_, fun c hc b' hb' => ?_⟩
    · exact hc₁.trans hc₂ he₁.size_le (fun _ _ => by simp) (fun _ => by simp)
    · rcases List.mem_cons.1 hb' with rfl | hb'
      · exact hf₁.mono he₂ c hc
      · exact hf₂ c hc b' hb'

end StackTape
