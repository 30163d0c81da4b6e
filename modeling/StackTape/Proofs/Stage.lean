import StackTape.Compile.Basic
import StackTape.Proofs.Run

/-!
# Stages of a construction

A stage is a draft together with the states that are still being wired, its live states. All
others are settled: no later construction changes them, so what is known of them holds in the
finished machine. `Stage.Evolves` is that order between stages, and `Compilation.Completes` says
that a compilation keeps what a stage has settled. `Builds` describes a construction from the stage
in which it begins: it is never at fault, it goes up in the order, and every state that it settles
is wired, well formed and leads only to where the construction may lead (`Scope`).
-/

namespace StackTape

/-! ## Well-formed states -/

/-- A symbol that may be written: one of the tape alphabet, or the sign to write nothing. -/
def Symbol.Writable (s : Nat) : Prop := s ≤ Symbol.globalPointer ∨ s = Symbol.wildcard

/-- A state whose transitions name symbols of the tape alphabet, each input at most once, and lead
to targets. -/
structure State.WellFormed (target : Nat → Prop) (s : State) : Prop where
  distinct : (s.rules.map (·.input)).Nodup
  input : ∀ r ∈ s.rules, r.input ≤ Symbol.globalPointer
  output : ∀ r ∈ s.rules, Symbol.Writable r.output
  leads : ∀ r ∈ s.rules, target r.next
  fallback_input : s.fallback.input = Symbol.wildcard
  fallback_output : Symbol.Writable s.fallback.output
  fallback_leads : target s.fallback.next

theorem State.WellFormed.mono {T U : Nat → Prop} (h : ∀ id, T id → U id) {s : State}
    (hs : s.WellFormed T) : s.WellFormed U :=
  ⟨hs.distinct, hs.input, hs.output, fun r hr => h _ (hs.leads r hr), hs.fallback_input,
    hs.fallback_output, h _ hs.fallback_leads⟩

/-! ## Stages -/

/-- A draft with the set of its states that are still being wired. -/
structure Stage where
  draft : Draft
  live : Nat → Prop
  live_lt : ∀ {id : Nat}, live id → id < draft.states.size
  two_le : 2 ≤ draft.states.size
  two_le_entry : ∀ {q id : Nat}, draft.entries[q]? = some id → 2 ≤ id
  entry_lt : ∀ {q id : Nat}, draft.entries[q]? = some id → id < draft.states.size
  entry_inj : ∀ {q r id : Nat}, draft.entries[q]? = some id → draft.entries[r]? = some id → q = r

/-- What the states wired by one construction may lead to, besides each other and the rejecting
sink: the entry states of certain positions, and perhaps the accepting sink. States from `base` on
belong to the construction. An idle construction may settle states as they were handed out. -/
structure Scope where
  base : Nat
  goal : Nat → Prop
  accepting : Prop
  idle : Prop

/-- A scope allows no more than another one. -/
structure Scope.Within (k k' : Scope) : Prop where
  base_le : k'.base ≤ k.base
  goal : ∀ q, k.goal q → k'.goal q
  accepting : k.accepting → k'.accepting
  idle : k.idle → k'.idle

namespace Stage

/-- The number of states. -/
def size (σ : Stage) : Nat := σ.draft.states.size

/-- The wiring of a state as it is now. -/
def wiring (σ : Stage) (id : Nat) : Option State := σ.draft.states[id]?

/-- The entry state of a position. -/
def entry (σ : Stage) (q : Nat) : Option Nat := σ.draft.entries[q]?

theorem lt_of_wiring {σ : Stage} {id : Nat} {st : State} (h : σ.wiring id = some st) :
    id < σ.size :=
  (Array.getElem?_eq_some_iff.1 h).1

/-- The states that a construction may lead to. -/
inductive Target (k : Scope) (σ : Stage) (id : Nat) : Prop
  | reject (h : id = Sink.reject)
  | accept (h : id = Sink.accept) (ha : k.accepting)
  | goal (q : Nat) (hq : k.goal q) (h : σ.entry q = some id)
  | own (hb : k.base ≤ id) (hlt : id < σ.size) (he : ∀ q, σ.entry q ≠ some id)

/-- The second stage comes from the first by a construction: what was settled stays, what has been
settled since is wired and well formed, and positions keep their entry states. -/
structure Evolves (k : Scope) (σ σ' : Stage) : Prop where
  size_le : σ.size ≤ σ'.size
  settled : ∀ id, id < σ.size → ¬σ.live id → ¬σ'.live id ∧ σ'.wiring id = σ.wiring id
  wellFormed : ∀ id st, σ'.wiring id = some st → ¬σ'.live id →
    (id < σ.size ∧ ¬σ.live id) ∨ st.WellFormed (σ'.Target k)
  wired : ∀ id, σ'.wiring id = some .unwired → ¬σ'.live id →
    (id < σ.size ∧ ¬σ.live id) ∨ k.idle
  entry : ∀ q id, σ.entry q = some id → σ'.entry q = some id
  entry_new : ∀ q id, σ'.entry q = some id → σ.entry q = some id ∨ σ.size ≤ id

/-- A target stays a target. -/
theorem Target.mono {k : Scope} {σ σ' : Stage} (h : σ.Evolves k σ') {id : Nat}
    (ht : σ.Target k id) : σ'.Target k id := by
  cases ht with
  | reject h => exact .reject h
  | accept h ha => exact .accept h ha
  | goal q hq he => exact .goal q hq (h.entry q id he)
  | own hb hlt he =>
    refine .own hb (Nat.lt_of_lt_of_le hlt h.size_le) fun q hq => ?_
    rcases h.entry_new q id hq with hold | hnew
    · exact he q hold
    · omega

theorem Target.within {k k' : Scope} {σ : Stage} (hk : k.Within k') {id : Nat}
    (ht : σ.Target k id) : σ.Target k' id := by
  cases ht with
  | reject h => exact .reject h
  | accept h ha => exact .accept h (hk.accepting ha)
  | goal q hq he => exact .goal q (hk.goal q hq) he
  | own hb hlt he => exact .own (Nat.le_trans hk.base_le hb) hlt he

namespace Evolves

variable {k : Scope} {σ₁ σ₂ σ₃ : Stage}

theorem refl (k : Scope) (σ : Stage) : σ.Evolves k σ where
  size_le := Nat.le_refl _
  settled _ _ hl := ⟨hl, rfl⟩
  wellFormed _ _ hw hl := .inl ⟨lt_of_wiring hw, hl⟩
  wired _ hw hl := .inl ⟨lt_of_wiring hw, hl⟩
  entry _ _ h := h
  entry_new _ _ h := .inl h

theorem trans (h₁ : σ₁.Evolves k σ₂) (h₂ : σ₂.Evolves k σ₃) : σ₁.Evolves k σ₃ where
  size_le := Nat.le_trans h₁.size_le h₂.size_le
  settled id hlt hl := by
    obtain ⟨hl₂, hw₂⟩ := h₁.settled id hlt hl
    obtain ⟨hl₃, hw₃⟩ := h₂.settled id (Nat.lt_of_lt_of_le hlt h₁.size_le) hl₂
    exact ⟨hl₃, hw₃.trans hw₂⟩
  wellFormed id st hw hl := by
    rcases h₂.wellFormed id st hw hl with ⟨hlt, hl₂⟩ | hwf
    · have hw₂ : σ₂.wiring id = some st := (h₂.settled id hlt hl₂).2 ▸ hw
      rcases h₁.wellFormed id st hw₂ hl₂ with hold | hwf
      · exact .inl hold
      · exact .inr (hwf.mono fun _ => Target.mono h₂)
    · exact .inr hwf
  wired id hw hl := by
    rcases h₂.wired id hw hl with ⟨hlt, hl₂⟩ | hidle
    · exact h₁.wired id ((h₂.settled id hlt hl₂).2 ▸ hw) hl₂
    · exact .inr hidle
  entry q id h := h₂.entry q id (h₁.entry q id h)
  entry_new q id h := by
    rcases h₂.entry_new q id h with h | h
    · exact h₁.entry_new q id h
    · exact .inr (Nat.le_trans h₁.size_le h)

theorem within {k' : Scope} (hk : k.Within k') (h : σ₁.Evolves k σ₂) : σ₁.Evolves k' σ₂ where
  size_le := h.size_le
  settled := h.settled
  wellFormed id st hw hl :=
    (h.wellFormed id st hw hl).imp_right fun hwf => hwf.mono fun _ => Target.within hk
  wired id hw hl := (h.wired id hw hl).imp_right hk.idle
  entry := h.entry
  entry_new := h.entry_new

end Evolves

end Stage

/-! ## The finished compilation -/

namespace Compilation

/-- A state that is neither a sink nor the entry state of a position. -/
def Inner (c : Compilation) (id : Nat) : Prop := 2 ≤ id ∧ ∀ q : Nat, c.entries[q]? ≠ some id

/-- The entry state of a position; a position without one is given a state that does not exist. -/
def entryOf (c : Compilation) (q : Nat) : Nat := c.entries[q]?.getD c.machine.states.size

/-- From a state on, the machine does what an action says and passes inner states only. -/
def Performs (c : Compilation) {ε : Type} (s : Nat) (exit : ε → Nat) (a : Action ε) : Prop :=
  c.machine.Performs c.Inner s exit a

/-- The compilation keeps what a stage has settled. -/
structure Completes (c : Compilation) (σ : Stage) : Prop where
  wiring : ∀ id, id < σ.size → ¬σ.live id → c.machine.states[id]? = σ.wiring id
  entry : ∀ q id, σ.entry q = some id → c.entries[q]? = some id
  entry_old : ∀ q id : Nat, c.entries[q]? = some id → id < σ.size → σ.entry q = some id

theorem Completes.of_evolves {c : Compilation} {k : Scope} {σ σ' : Stage} (hc : c.Completes σ')
    (h : σ.Evolves k σ') : c.Completes σ where
  wiring id hlt hl := by
    obtain ⟨hl', hw⟩ := h.settled id hlt hl
    rw [hc.wiring id (Nat.lt_of_lt_of_le hlt h.size_le) hl', hw]
  entry q id he := hc.entry q id (h.entry q id he)
  entry_old q id he hlt := by
    rcases h.entry_new q id (hc.entry_old q id he (Nat.lt_of_lt_of_le hlt h.size_le)) with h | h
    · exact h
    · omega

theorem Completes.entryOf {c : Compilation} {σ : Stage} (h : c.Completes σ) {q id : Nat}
    (hq : σ.entry q = some id) : c.entryOf q = id := by
  rw [Compilation.entryOf, h.entry q id hq, Option.getD_some]

end Compilation

namespace Stage

/-- A fact about every compilation that keeps what the stage has settled. -/
def Ensures (σ : Stage) (fact : Compilation → Prop) : Prop :=
  ∀ c : Compilation, c.Completes σ → fact c

theorem Ensures.mono {k : Scope} {σ σ' : Stage} {fact : Compilation → Prop} (h : σ.Ensures fact)
    (he : σ.Evolves k σ') : σ'.Ensures fact :=
  fun c hc => h c (hc.of_evolves he)

theorem ensures_inner {σ : Stage} {id : Nat} (h2 : 2 ≤ id) (hlt : id < σ.size)
    (he : ∀ q, σ.entry q ≠ some id) : σ.Ensures (·.Inner id) :=
  fun _ hc => ⟨h2, fun q hq => he q (hc.entry_old q id hq hlt)⟩

/-! ## What a construction changes -/

/-- The second stage differs from the first in the wiring of the `closed` states, which are settled
by then, and of new states; of these the `opened` ones are live and not wired at all. A closed state
may be opened again. -/
structure Changes (closed opened : Nat → Prop) (σ σ' : Stage) : Prop where
  entry : ∀ q, σ'.entry q = σ.entry q
  wiring : ∀ id, id < σ.size → ¬closed id → σ'.wiring id = σ.wiring id
  live : ∀ id, σ'.live id ↔ (σ.live id ∧ ¬closed id) ∨ opened id
  unwired : ∀ id, opened id → σ'.wiring id = some .unwired

/-- No state. -/
abbrev nothing : Nat → Prop := fun _ => False

/-- The state `s` alone. -/
abbrev only (s : Nat) : Nat → Prop := fun id => id = s

namespace Changes

variable {C D E O P Q : Nat → Prop} {σ₁ σ₂ σ₃ : Stage}

theorem refl (σ : Stage) : σ.Changes nothing nothing σ :=
  ⟨fun _ => rfl, fun _ _ _ => rfl, fun _ => by simp, fun _ h => h.elim⟩

theorem trans (h₁ : σ₁.Changes C O σ₂) (h₂ : σ₂.Changes D P σ₃) (hle : σ₁.size ≤ σ₂.size)
    (hE : ∀ id, id < σ₁.size → (C id ∨ D id ↔ E id))
    (hQ : ∀ id, (O id ∧ ¬D id) ∨ P id ↔ Q id) : σ₁.Changes E Q σ₃ where
  entry q := (h₂.entry q).trans (h₁.entry q)
  wiring id hlt hn := by
    have hn' := not_congr (hE id hlt) |>.2 hn
    rw [h₂.wiring id (Nat.lt_of_lt_of_le hlt hle) (fun h => hn' (.inr h)),
      h₁.wiring id hlt (fun h => hn' (.inl h))]
  live id := by
    rw [h₂.live, h₁.live, ← hQ]
    by_cases hl : σ₁.live id
    · have := hE id (σ₁.live_lt hl)
      tauto
    · tauto
  unwired id hq := by
    rcases (hQ id).2 hq with ⟨ho, hd⟩ | hp
    · have hw := h₁.unwired id ho
      rw [h₂.wiring id (lt_of_wiring hw) hd, hw]
    · exact h₂.unwired id hp

/-- States that are opened later join those that are open. -/
theorem add (h₁ : σ₁.Changes C O σ₂) (h₂ : σ₂.Changes nothing P σ₃) (hle : σ₁.size ≤ σ₂.size) :
    σ₁.Changes C (fun id => O id ∨ P id) σ₃ :=
  h₁.trans h₂ hle (fun _ _ => by simp) (fun _ => by simp)

/-- Of the open states some are closed. -/
theorem close (h₁ : σ₁.Changes C (fun id => D id ∨ O id) σ₂) (h₂ : σ₂.Changes D nothing σ₃)
    (hle : σ₁.size ≤ σ₂.size) (hold : ∀ id, id < σ₁.size → D id → C id)
    (hO : ∀ id, O id → ¬D id) : σ₁.Changes C O σ₃ := by
  refine h₁.trans h₂ hle (fun id hid => ?_) (fun id => ?_)
  · exact or_iff_left_of_imp (hold id hid)
  · have := hO id
    tauto

/-- Some states are opened and then others are closed. -/
theorem wire (h₁ : σ₁.Changes nothing O σ₂) (h₂ : σ₂.Changes C nothing σ₃)
    (hle : σ₁.size ≤ σ₂.size) (hO : ∀ id, O id → ¬C id) : σ₁.Changes C O σ₃ := by
  refine h₁.trans h₂ hle (fun _ _ => by simp) fun id => ?_
  have := hO id
  tauto

/-- The open states are closed, and others are opened in their place. -/
theorem replace (h₁ : σ₁.Changes C O σ₂) (h₂ : σ₂.Changes O P σ₃) (hle : σ₁.size ≤ σ₂.size)
    (hold : ∀ id, id < σ₁.size → O id → C id) : σ₁.Changes C P σ₃ :=
  h₁.trans h₂ hle (fun id hid => or_iff_left_of_imp (hold id hid)) fun _ => by simp

/-- A live state that is not closed stays as it is. -/
theorem keep (h : σ₁.Changes C O σ₂) {s : Nat} {st : State} (hl : σ₁.live s)
    (hw : σ₁.wiring s = some st) (hs : ¬C s) : σ₂.live s ∧ σ₂.wiring s = some st :=
  ⟨(h.live s).2 (.inl ⟨hl, hs⟩), by rw [h.wiring s (σ₁.live_lt hl) hs, hw]⟩

/-- An opened state is live and not wired. -/
theorem opened (h : σ₁.Changes C O σ₂) {s : Nat} (ho : O s) :
    σ₂.live s ∧ σ₂.wiring s = some .unwired :=
  ⟨(h.live s).2 (.inr ho), h.unwired s ho⟩

end Changes

end Stage

/-! ## Constructions -/

/-- From the stage on, a construction is not at fault and ends in a stage that comes from the first
and satisfies a condition together with the result. -/
def Builds {α : Type} (k : Scope) (σ : Stage) (x : DraftM α) (post : α → Stage → Prop) : Prop :=
  k.base ≤ σ.size → ∃ a σ', x σ.draft = .ok a σ'.draft ∧ σ.Evolves k σ' ∧ post a σ'

namespace Builds

variable {α β : Type} {k : Scope} {σ : Stage} {x : DraftM α} {P Q : α → Stage → Prop}

theorem imp (h : Builds k σ x P) (hi : ∀ a σ', σ.Evolves k σ' → P a σ' → Q a σ') :
    Builds k σ x Q := by
  intro hb
  obtain ⟨a, σ', hx, he, hp⟩ := h hb
  exact ⟨a, σ', hx, he, hi a σ' he hp⟩

theorem pure {a : α} (h : P a σ) : Builds k σ (pure a) P :=
  fun _ => ⟨a, σ, rfl, .refl k σ, h⟩

theorem bind {f : α → DraftM β} {R : β → Stage → Prop} (hx : Builds k σ x P)
    (hf : ∀ a σ', σ.Evolves k σ' → P a σ' → Builds k σ' (f a) R) : Builds k σ (x >>= f) R := by
  intro hb
  obtain ⟨a, σ', hx, he, hp⟩ := hx hb
  obtain ⟨b, σ'', hy, he', hr⟩ := hf a σ' he hp (Nat.le_trans hb he.size_le)
  refine ⟨b, σ'', ?_, he.trans he', hr⟩
  rw [DraftM.bind_apply, hx]
  exact hy

/-- What is built within a narrow scope is built within a wider one. -/
theorem within {k' : Scope} (h : Builds k σ x P) (hk : k.Within k') (hle : k.base ≤ σ.size) :
    Builds k' σ x P := by
  intro _
  obtain ⟨a, σ', hx, he, hp⟩ := h hle
  exact ⟨a, σ', hx, he.within hk, hp⟩

end Builds

end StackTape
