import StackTape.Draft.Wiring

/-!
# Home and away

A gadget that has to leave the end of the stack puts the bookmark there and takes it up when it
comes back. So the control states of a machine fall into two phases: in those at home no cell holds
the bookmark, in those away at most one does. `Phased` is a draft with a phase for each of its
states such that every transition respects them, and `Phased.Keeps` says that a construction can
give phases to the states that it hands out.
-/

namespace StackTape

/-- Whether the head is at the end of the stack or the bookmark may hold its place there. -/
inductive Phase where
  | home
  | away
  deriving DecidableEq

/-! ## Transitions that handle the markers in order -/

/-- A symbol that is neither the bookmark nor the marker of the global variables. -/
def Symbol.Plain (s : Nat) : Prop := s ≠ bookmark ∧ s ≠ globalPointer

theorem Symbol.plain_of_lt {s : Nat} (h : s < bookmark) : Plain s := by
  refine ⟨Nat.ne_of_lt h, Nat.ne_of_lt (Nat.lt_trans h ?_)⟩
  decide

theorem Symbol.plain_of_byte {s : Nat} (h : s < 256) : Plain s :=
  plain_of_lt (Nat.lt_trans h (by decide))

theorem Symbol.plain_wildcard : Plain wildcard := ⟨by decide, by decide⟩

/-- A transition from a state in the phase `here` to one in the phase `there` which puts the marker
of the global variables only where it is, puts the bookmark only to leave home, and comes home only
by writing over the bookmark. -/
structure Transition.Disciplined (here there : Phase) (t : Transition) : Prop where
  global : t.output = Symbol.globalPointer → t.input = Symbol.globalPointer
  departs : t.output = Symbol.bookmark → here = .home ∧ there = .away
  returns : here = .away → there = .home →
    t.input = Symbol.bookmark ∧ t.output ≠ Symbol.wildcard

namespace Transition.Disciplined

variable {here there : Phase} {t : Transition}

/-- A transition that does not put a marker and does not come home. -/
theorem of_plain (hout : Symbol.Plain t.output) (h : here = .away → there = .away) :
    t.Disciplined here there where
  global he := absurd he hout.2
  departs he := absurd he hout.1
  returns ha hh := by
    rw [h ha] at hh
    cases hh

theorem departing (hout : t.output = Symbol.bookmark) : t.Disciplined .home .away where
  global he := by
    rw [hout] at he
    cases he
  departs _ := ⟨rfl, rfl⟩
  returns ha := by cases ha

/-- A transition that comes home. -/
theorem returning (hin : t.input = Symbol.bookmark) (hout : t.output < Symbol.bookmark) :
    t.Disciplined .away .home where
  global he := absurd he (Symbol.plain_of_lt hout).2
  departs he := absurd he (Symbol.plain_of_lt hout).1
  returns _ _ := ⟨hin, Nat.ne_of_lt (Nat.lt_trans hout (by decide))⟩

/-- A transition that leaves a marker, other than the bookmark, as it is. -/
theorem keeping (hsame : t.output = t.input) (hne : t.output ≠ Symbol.bookmark)
    (h : here = .away → there = .away) : t.Disciplined here there where
  global he := hsame ▸ he
  departs he := absurd he hne
  returns ha hh := by
    rw [h ha] at hh
    cases hh

end Transition.Disciplined

/-! ## Drafts with phases -/

/-- A transition of a state in the phase `here` of a draft with `size` states. -/
def Transition.Allowed (size : Nat) (phase : Nat → Phase) (here : Phase) (t : Transition) : Prop :=
  t.next < size ∧ t.Disciplined here (phase t.next)

/-- A state in the phase `here` all of whose transitions are allowed. -/
structure State.Allowed (size : Nat) (phase : Nat → Phase) (here : Phase) (st : State) : Prop where
  rules : ∀ t ∈ st.rules, t.Allowed size phase here
  fallback : st.fallback.Allowed size phase here

/-- A draft whose states, from the first entry state on, keep to their phases. Entry states are at
home. Nothing is known of a tape on which the machine rejects. -/
structure Phased where
  draft : Draft
  phase : Nat → Phase
  three_le : 3 ≤ draft.states.size
  accept_home : phase Sink.accept = .home
  reject_away : phase Sink.reject = .away
  entry_lt : ∀ {q id : Nat}, draft.entries[q]? = some id → id < draft.states.size
  entry_home : ∀ {q id : Nat}, draft.entries[q]? = some id → phase id = .home
  allowed : ∀ {id : Nat} {st : State}, 3 ≤ id → draft.states[id]? = some st →
    st.Allowed draft.states.size phase (phase id)

namespace Phased

variable {σ τ υ : Phased} {ph here there : Phase} {s id : Nat} {t : Transition}

/-- The number of states. -/
def size (σ : Phased) : Nat := σ.draft.states.size

/-- A state exists and is in a phase. -/
def At (σ : Phased) (ph : Phase) (id : Nat) : Prop := id < σ.size ∧ σ.phase id = ph

/-- A state in the phase `here` may have the transition. -/
def Allows (σ : Phased) (here : Phase) (t : Transition) : Prop := t.Allowed σ.size σ.phase here

theorem Allows.of_at (ht : t.Disciplined here there) (h : σ.At there t.next) : σ.Allows here t :=
  ⟨h.1, h.2 ▸ ht⟩

/-- A transition that stays in its phase and puts no marker. -/
theorem At.allows (h : σ.At ph t.next) (hout : Symbol.Plain t.output) : σ.Allows ph t :=
  .of_at (.of_plain hout id) h

/-- The states of the first draft keep their phases in the second. -/
structure Extends (σ τ : Phased) : Prop where
  size_le : σ.size ≤ τ.size
  phase_eq : ∀ {id}, id < σ.size → τ.phase id = σ.phase id

theorem Extends.refl (σ : Phased) : σ.Extends σ := ⟨Nat.le_refl _, fun _ => rfl⟩

theorem Extends.trans (h₁ : σ.Extends τ) (h₂ : τ.Extends υ) : σ.Extends υ where
  size_le := Nat.le_trans h₁.size_le h₂.size_le
  phase_eq hlt := by rw [h₂.phase_eq (Nat.lt_of_lt_of_le hlt h₁.size_le), h₁.phase_eq hlt]

theorem At.mono (h : σ.At ph id) (he : σ.Extends τ) : τ.At ph id :=
  ⟨Nat.lt_of_lt_of_le h.1 he.size_le, by rw [he.phase_eq h.1, h.2]⟩

theorem Allows.mono (h : σ.Allows here t) (he : σ.Extends τ) : τ.Allows here t :=
  ⟨Nat.lt_of_lt_of_le h.1 he.size_le, by rw [he.phase_eq h.1]; exact h.2⟩

theorem accept_at (σ : Phased) : σ.At .home Sink.accept :=
  ⟨Nat.lt_of_lt_of_le (by decide) σ.three_le, σ.accept_home⟩

theorem reject_at (σ : Phased) : σ.At .away Sink.reject :=
  ⟨Nat.lt_of_lt_of_le (by decide) σ.three_le, σ.reject_away⟩

theorem allows_unwired (σ : Phased) (here : Phase) : σ.Allows here State.unwired.fallback :=
  .of_at (.of_plain Symbol.plain_wildcard fun _ => rfl) σ.reject_at

/-! ## Single constructions -/

/-- The draft with `n` more states, all in the phase `ph`. -/
def grow (σ : Phased) (n : Nat) (ph : Phase) : Phased where
  draft :=
    { σ.draft with
      states := σ.draft.states ++ Array.replicate n .unwired
      stats := { σ.draft.stats with allocated := σ.draft.stats.allocated + n } }
  phase id := if id < σ.size then σ.phase id else ph
  three_le := by
    rw [Array.size_append]
    exact Nat.le_add_right_of_le σ.three_le
  accept_home := by rw [if_pos σ.accept_at.1, σ.accept_home]
  reject_away := by rw [if_pos σ.reject_at.1, σ.reject_away]
  entry_lt h := by
    rw [Array.size_append]
    exact Nat.lt_add_right _ (σ.entry_lt h)
  entry_home {q id} h := by
    rw [if_pos (show id < σ.size from σ.entry_lt h), σ.entry_home h]
  allowed {id st} h3 h := by
    -- transitions lead to states that exist, and those keep their phases
    have hmono : ∀ {here : Phase} {t : Transition}, σ.Allows here t →
        t.Allowed (σ.draft.states ++ Array.replicate n State.unwired).size
          (fun id => if id < σ.size then σ.phase id else ph) here := by
      intro here t ht
      refine ⟨?_, ?_⟩
      · rw [Array.size_append]
        exact Nat.lt_add_right _ ht.1
      · simp only [if_pos ht.1]
        exact ht.2
    by_cases hlt : id < σ.draft.states.size
    · rw [Array.getElem?_append_left hlt] at h
      obtain ⟨hrules, hfallback⟩ := σ.allowed h3 h
      simp only [if_pos (show id < σ.size from hlt)]
      exact ⟨fun t ht => hmono (hrules t ht), hmono hfallback⟩
    · rw [Array.getElem?_append_right (Nat.not_lt.1 hlt), Array.getElem?_replicate] at h
      split at h
      · cases h
        exact ⟨fun t ht => (by cases ht), hmono (σ.allows_unwired _)⟩
      · cases h

theorem size_grow (n : Nat) : (σ.grow n ph).size = σ.size + n := by
  simp [grow, size]

theorem extends_grow (σ : Phased) (n : Nat) (ph : Phase) : σ.Extends (σ.grow n ph) where
  size_le := by
    rw [size_grow]
    exact Nat.le_add_right _ _
  phase_eq hlt := if_pos hlt

theorem at_grow {n i : Nat} (hi : i < n) : (σ.grow n ph).At ph (σ.size + i) := by
  refine ⟨?_, if_neg (by omega)⟩
  rw [size_grow]
  omega

theorem at_grow_one : (σ.grow 1 ph).At ph σ.size := at_grow Nat.zero_lt_one

/-- The draft in which a position has got a new state for its entry state. -/
def enter (σ : Phased) (q : Nat) : Phased :=
  { σ.grow 1 .home with
    draft := { (σ.grow 1 .home).draft with entries := σ.draft.entries.insert q σ.size }
    entry_lt := fun {r id} h => by
      rw [Std.TreeMap.getElem?_insert] at h
      split at h
      · cases h
        exact (at_grow_one : (σ.grow 1 .home).At .home σ.size).1
      · exact (σ.grow 1 .home).entry_lt h
    entry_home := fun {r id} h => by
      rw [Std.TreeMap.getElem?_insert] at h
      split at h
      · cases h
        exact at_grow_one.2
      · exact (σ.grow 1 .home).entry_home h }

theorem extends_enter (σ : Phased) (q : Nat) : σ.Extends (σ.enter q) :=
  ⟨(σ.extends_grow 1 .home).size_le, (σ.extends_grow 1 .home).phase_eq⟩

/-- The draft with another wiring of a state. -/
def rewired (σ : Phased) (s : Nat) (st : State)
    (hst : 3 ≤ s → st.Allowed σ.size σ.phase (σ.phase s)) : Phased :=
  { σ with
    draft := { σ.draft with states := σ.draft.states.setIfInBounds s st }
    three_le := by simpa using σ.three_le
    entry_lt := fun h => by simpa using σ.entry_lt h
    allowed := fun {id st'} h3 h => by
      rw [Array.size_setIfInBounds]
      by_cases hid : id = s
      · subst hid
        obtain ⟨hlt, -⟩ := Array.getElem?_eq_some_iff.1 h
        rw [Array.size_setIfInBounds] at hlt
        rw [Array.getElem?_setIfInBounds_self_of_lt hlt] at h
        cases h
        exact hst h3
      · rw [Array.getElem?_setIfInBounds_ne (Ne.symm hid)] at h
        exact σ.allowed h3 h }

/-! ## Constructions -/

/-- Phases can be given to the states that a construction hands out, such that a condition holds of
the draft and the result. -/
def Keeps {α : Type} (σ : Phased) (x : DraftM α) (post : α → Phased → Prop) : Prop :=
  ∀ a d, x σ.draft = .ok a d → ∃ τ : Phased, τ.draft = d ∧ σ.Extends τ ∧ post a τ

/-- Phases can be given to the states that a construction hands out. -/
def Safe (σ : Phased) (x : DraftM Unit) : Prop := σ.Keeps x fun _ _ => True

section Monad

variable {α β : Type} {x : DraftM α} {P Q : α → Phased → Prop}

theorem Keeps.pure {a : α} (h : P a σ) : σ.Keeps (pure a) P := by
  intro a' d hx
  cases hx
  exact ⟨σ, rfl, .refl σ, h⟩

theorem Safe.pure : σ.Safe (Pure.pure ()) := Keeps.pure trivial

theorem Keeps.bind {f : α → DraftM β} {R : β → Phased → Prop} (hx : σ.Keeps x P)
    (hf : ∀ a τ, σ.Extends τ → P a τ → τ.Keeps (f a) R) : σ.Keeps (x >>= f) R := by
  intro b d h
  rw [DraftM.bind_apply] at h
  cases hr : x σ.draft with
  | error fault d' =>
    rw [hr] at h
    cases h
  | ok a d' =>
    rw [hr] at h
    obtain ⟨τ, rfl, he, hp⟩ := hx a d' hr
    obtain ⟨υ, rfl, he', hr⟩ := hf a τ he hp b d h
    exact ⟨υ, rfl, he.trans he', hr⟩

/-- A construction whose result is not used. -/
theorem Safe.bind {f : Unit → DraftM β} {R : β → Phased → Prop} {x : DraftM Unit} (hx : σ.Safe x)
    (hf : ∀ τ, σ.Extends τ → τ.Keeps (f ()) R) : σ.Keeps (x >>= f) R :=
  Keeps.bind hx fun _ τ he _ => hf τ he

theorem Safe.forM {f : β → DraftM Unit} (l : List β)
    (h : ∀ b ∈ l, ∀ τ, σ.Extends τ → τ.Safe (f b)) : σ.Safe (l.forM f) := by
  induction l generalizing σ with
  | nil => exact .pure
  | cons b l ih =>
    change σ.Safe (f b >>= fun _ => l.forM f)
    refine (h b List.mem_cons_self σ (.refl σ)).bind fun τ he => ?_
    exact ih fun b' hb' υ he' => h b' (List.mem_cons_of_mem _ hb') υ (he.trans he')

/-- A loop that collects the transitions of one state. -/
theorem Keeps.mapM {f : β → DraftM Transition} (l : List β)
    (h : ∀ b ∈ l, ∀ τ, σ.Extends τ → τ.Keeps (f b) fun t υ => υ.Allows here t) :
    σ.Keeps (l.mapM f) fun ts τ => ∀ t ∈ ts, τ.Allows here t := by
  induction l generalizing σ with
  | nil => exact .pure fun t ht => (by cases ht)
  | cons b l ih =>
    rw [List.mapM_cons]
    refine (h b List.mem_cons_self σ (.refl σ)).bind fun t τ he ht => ?_
    refine (ih fun b' hb' υ he' => h b' (List.mem_cons_of_mem _ hb') υ (he.trans he')).bind
      fun ts υ he' hts => .pure fun t' ht' => ?_
    rcases List.mem_cons.1 ht' with rfl | ht'
    · exact ht.mono he'
    · exact hts t' ht'

end Monad

theorem answer_keeps {α : Type} (x : Except IndexFault α) :
    σ.Keeps (Draft.answer x) fun a _ => x = .ok a := by
  intro a d h
  cases x with
  | ok a' =>
    cases h
    exact ⟨σ, rfl, .refl σ, rfl⟩
  | error fault => cases h

theorem freshBlock_keeps (n : Nat) (ph : Phase) :
    σ.Keeps (Draft.freshBlock n) fun block τ => ∀ i, i < n → τ.At ph (block.first + i) := by
  intro block d h
  rw [Draft.freshBlock_apply] at h
  cases h
  exact ⟨σ.grow n ph, rfl, σ.extends_grow n ph, fun i hi => at_grow hi⟩

theorem fresh_keeps (ph : Phase) : σ.Keeps Draft.fresh fun id τ => τ.At ph id := by
  intro id d h
  rw [Draft.fresh_apply, Array.push_eq_append] at h
  cases h
  exact ⟨σ.grow 1 ph, rfl, σ.extends_grow 1 ph, at_grow_one⟩

theorem entryAt_keeps (q : Nat) : σ.Keeps (Draft.entryAt q) fun id τ => τ.At .home id := by
  intro id d h
  cases hq : σ.draft.entries[q]? with
  | some id' =>
    rw [Draft.entryAt_apply_of_some hq] at h
    cases h
    exact ⟨σ, rfl, .refl σ, σ.entry_lt hq, σ.entry_home hq⟩
  | none =>
    rw [Draft.entryAt_apply_of_none hq, Array.push_eq_append] at h
    cases h
    exact ⟨σ.enter q, rfl, σ.extends_enter q, at_grow_one⟩

theorem record_safe (op : Opcode) : σ.Safe (Draft.record op) := by
  intro _ d h
  let stats := σ.draft.stats.record op.mnemonic
  cases h
  exact ⟨{ σ with draft := { σ.draft with stats } }, rfl, ⟨Nat.le_refl _, fun _ => rfl⟩, trivial⟩

theorem rewire_safe {f : State → State} (hs : σ.At here s)
    (hf : ∀ st : State, st.Allowed σ.size σ.phase here → (f st).Allowed σ.size σ.phase here) :
    σ.Safe (Draft.rewire s f) := by
  intro _ d h
  obtain ⟨hlt, rfl⟩ := hs
  change s < σ.draft.states.size at hlt
  rw [Draft.rewire_apply hlt] at h
  cases h
  have hst : 3 ≤ s → (f σ.draft.states[s]).Allowed σ.size σ.phase (σ.phase s) := fun h3 =>
    hf _ (σ.allowed h3 (Array.getElem?_eq_getElem hlt))
  refine ⟨σ.rewired s _ hst, ?_, ⟨?_, fun _ => rfl⟩, trivial⟩
  · simp only [rewired, Array.setIfInBounds, dif_pos hlt]
  · exact Nat.le_of_eq Array.size_setIfInBounds.symm

theorem setFallback_safe (hs : σ.At here s) (ht : σ.Allows here t) :
    σ.Safe (Draft.setFallback s t) :=
  rewire_safe hs fun _ hst => ⟨hst.rules, ht⟩

theorem addRules_safe {ts : List Transition} (hs : σ.At here s)
    (hts : ∀ t ∈ ts, σ.Allows here t) : σ.Safe (Draft.addRules s ts) := by
  refine rewire_safe hs fun st hst => ⟨fun t ht => ?_, hst.fallback⟩
  rcases List.mem_append.1 ht with ht | ht
  · exact hst.rules t ht
  · exact hts t ht

/-! ## Patterns of wiring -/

theorem trail_keeps {step : Nat → Transition} (hnext : ∀ next, (step next).next = next)
    (hout : ∀ next, Symbol.Plain (step next).output) (count : Nat) (hs : σ.At ph s) :
    σ.Keeps (Draft.trail step count s) fun last τ => τ.At ph last := by
  induction count generalizing σ s with
  | zero => exact .pure hs
  | succ count ih =>
    refine (fresh_keeps ph).bind fun next τ he hn => ?_
    refine (setFallback_safe (hs.mono he) (At.allows ?_ (hout next))).bind fun υ he' => ?_
    · rw [hnext]
      exact hn
    · exact ih (hn.mono he')

theorem walk_keeps (move : Direction) (distance : Nat) (hs : σ.At ph s) :
    σ.Keeps (Draft.walk move distance s) fun last τ => τ.At ph last :=
  trail_keeps (fun _ => rfl) (fun _ => Symbol.plain_wildcard) distance hs

theorem scan_safe (move : Direction) (hs : σ.At here s) (ht : σ.Allows here t) :
    σ.Safe (Draft.scan move s t) := by
  refine (setFallback_safe hs (At.allows hs Symbol.plain_wildcard)).bind fun τ he => ?_
  refine addRules_safe (hs.mono he) fun t' ht' => ?_
  obtain rfl := List.mem_singleton.1 ht'
  exact ht.mono he

theorem chain_safe {link : Nat → Nat → Nat → DraftM Unit} {entry exit : Nat} (count : Nat)
    (hentry : σ.At ph entry) (hexit : σ.At ph exit)
    (hlink : ∀ i s next τ, σ.Extends τ → τ.At ph s → τ.At ph next → τ.Safe (link i s next)) :
    σ.Safe (Draft.chain count entry exit link) := by
  suffices h : ∀ remaining index s τ, σ.Extends τ → τ.At ph s →
      τ.Safe (Draft.chain.go exit link remaining index s) from
    h count 0 entry σ (.refl σ) hentry
  intro remaining
  induction remaining with
  | zero => exact fun _ _ _ _ _ => .pure
  | succ remaining ih =>
    intro index s τ he hs
    cases remaining with
    | zero => exact hlink index s exit τ he hs (hexit.mono he)
    | succ remaining =>
      refine (fresh_keeps ph).bind fun next υ he₁ hn => ?_
      refine (hlink index s next υ (he.trans he₁) (hs.mono he₁) hn).bind fun ω he₂ => ?_
      exact ih (index + 1) next ω ((he.trans he₁).trans he₂) (hn.mono he₂)

theorem byteRules_allows {rule : Fin 256 → Transition} (h : ∀ b, σ.Allows here (rule b)) :
    ∀ t ∈ Draft.byteRules rule, σ.Allows here t := by
  intro t ht
  obtain ⟨b, -, rfl⟩ := List.mem_map.1 ht
  exact h b

theorem branch_safe {arm : Fin 256 → DraftM Transition} (hs : σ.At here s)
    (harm : ∀ b τ, σ.Extends τ → τ.Keeps (arm b) fun t υ => υ.Allows here t) :
    σ.Safe (Draft.branch s arm) :=
  (Keeps.mapM _ fun b _ => harm b).bind fun _ _ he hts => addRules_safe (hs.mono he) hts

end Phased

theorem Symbol.plain_byteAt (value index : Nat) : Symbol.Plain (Draft.byteAt value index) :=
  plain_of_byte (Nat.mod_lt _ (by decide))

end StackTape
