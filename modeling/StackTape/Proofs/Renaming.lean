import Mathlib.Tactic
import StackTape.Gadget.Variable
import StackTape.Machine.Run

/-!
# One construction in two drafts

A construction hands out states in the order of their ids and wires them without asking what else
the draft holds. So if it is made in two drafts, the second result is the first one with the states
renamed. `Renaming` says which states correspond to each other, `Renaming.Mirrors` that two drafts
agree up to the new names, and `Renaming.Matches` that two constructions keep it so. The accesses to
variables are such constructions.
-/

namespace StackTape

/-! ## New names for states -/

/-- The transition with a new name for the state that it leads to. -/
def Transition.rename (f : Nat → Nat) (t : Transition) : Transition :=
  { t with next := f t.next }

/-- The state with new names for the states that it leads to. -/
def State.rename (f : Nat → Nat) (s : State) : State :=
  ⟨s.rules.map (·.rename f), s.fallback.rename f⟩

theorem State.lookup_rename (f : Nat → Nat) (s : State) (v : Nat) :
    (s.rename f).lookup v = (s.lookup v).rename f := by
  have hinput : ((fun t : Transition => t.input == v) ∘ fun t : Transition => t.rename f) =
      fun t : Transition => t.input == v := rfl
  rw [lookup, lookup, rename, List.find?_map, hinput, Option.getD_map]

/-- The configuration with a new name for its state. -/
def Config.rename (f : Nat → Nat) (c : Config (Int → Nat)) : Config (Int → Nat) :=
  { c with state := f c.state }

/-- Where the states of two machines are the same but for the names, so are the steps. -/
theorem Machine.step_rename {m m' : Machine} {f : Nat → Nat} {c d : Config (Int → Nat)}
    (h : m'.states[f c.state]? = m.states[c.state]?.map (·.rename f)) (hstep : m.step c = .ok d) :
    m'.step (c.rename f) = .ok (d.rename f) := by
  have hstate : (c.rename f).state = f c.state := rfl
  have hscanned : (c.rename f).scanned = c.scanned := rfl
  unfold step at hstep ⊢
  rw [hstate, h, hscanned]
  cases hst : m.states[c.state]? with
  | none =>
    rw [hst] at hstep
    cases hstep
  | some st =>
    rw [hst] at hstep
    cases hstep
    simp only [Option.map_some, State.lookup_rename]
    rfl

/-- The names that the states of one draft have in another one, while a construction is made in
both: those of the state that it begins in, of the states that it hands out, and of the states that
it leads to. -/
structure Renaming where
  toFun : Nat → Nat
  /-- The state that the construction begins in. -/
  entry : Nat
  /-- The first state that it hands out. -/
  base : Nat
  /-- The first state that it hands out in the other draft. -/
  base' : Nat
  map_new : ∀ n, toFun (base + n) = base' + n
  entry_lt : entry < base
  map_entry_lt : toFun entry < base'
  map_reject : toFun Sink.reject = Sink.reject

namespace Renaming

instance : CoeFun Renaming fun _ => Nat → Nat := ⟨toFun⟩

variable {ρ : Renaming} {s s' next id : Nat} {d d' : Draft} {α β : Type}

/-- The states that the construction wires. -/
def Own (ρ : Renaming) (id : Nat) : Prop := id = ρ.entry ∨ ρ.base ≤ id

theorem own_of_le (h : ρ.base ≤ id) : ρ.Own id := .inr h

theorem map_of_le (h : ρ.base ≤ id) : ρ id = ρ.base' + (id - ρ.base) := by
  rw [← ρ.map_new, Nat.add_sub_cancel' h]

/-- States that are wired have different names. -/
theorem Own.inj (hs : ρ.Own s) (hid : ρ.Own id) (h : ρ id = ρ s) : id = s := by
  have hentry := ρ.map_entry_lt
  rcases hid with rfl | hid <;> rcases hs with rfl | hs
  · rfl
  · rw [map_of_le hs] at h
    omega
  · rw [map_of_le hid] at h
    omega
  · rw [map_of_le hid, map_of_le hs] at h
    omega

/-- The states that the construction wires are the same in both drafts, up to their names. -/
structure Mirrors (ρ : Renaming) (d d' : Draft) : Prop where
  base_le : ρ.base ≤ d.states.size
  size_eq : d'.states.size = ρ d.states.size
  state_eq : ∀ id, ρ.Own id → d'.states[ρ id]? = d.states[id]?.map (·.rename ρ)

/-- If the first construction succeeds, the second one does from a draft that mirrors the first one,
and the drafts and the results that they lead to correspond again. -/
def Matches (ρ : Renaming) (R : α → α → Prop) (x x' : DraftM α) : Prop :=
  ∀ d d', ρ.Mirrors d d' → ∀ a e, x d = .ok a e →
    ∃ a' e', x' d' = .ok a' e' ∧ ρ.Mirrors e e' ∧ R a a'

/-- Constructions without a result correspond. -/
def Agrees (ρ : Renaming) (x x' : DraftM Unit) : Prop := ρ.Matches (fun _ _ => True) x x'

/-- A state that is wired, under its two names. -/
def Sends (ρ : Renaming) (s s' : Nat) : Prop := ρ.Own s ∧ s' = ρ s

/-! ## Single constructions -/

theorem Matches.pure {R : α → α → Prop} {a a' : α} (h : R a a') :
    ρ.Matches R (pure a) (pure a') := by
  intro d d' hm b e hx
  cases hx
  exact ⟨a', d', rfl, hm, h⟩

theorem Matches.bind {R : α → α → Prop} {S : β → β → Prop} {x x' : DraftM α}
    {f f' : α → DraftM β} (hx : ρ.Matches R x x')
    (hf : ∀ a a', R a a' → ρ.Matches S (f a) (f' a')) : ρ.Matches S (x >>= f) (x' >>= f') := by
  intro d d' hm b e h
  rw [DraftM.bind_apply] at h
  cases hr : x d with
  | error fault d₁ =>
    rw [hr] at h
    cases h
  | ok a d₁ =>
    rw [hr] at h
    obtain ⟨a', d₁', hr', hm₁, ha⟩ := hx d d' hm a d₁ hr
    obtain ⟨b', e', h', hme, hb⟩ := hf a a' ha d₁ d₁' hm₁ b e h
    exact ⟨b', e', by rw [DraftM.bind_apply, hr']; exact h', hme, hb⟩

theorem unwired_rename : State.unwired.rename ρ = .unwired := by
  simp only [State.unwired, State.rename, Transition.rename, Transition.skip, ρ.map_reject,
    List.map_nil]

theorem fresh_matches : ρ.Matches ρ.Sends Draft.fresh Draft.fresh := by
  intro d d' hm a e h
  rw [Draft.fresh_apply] at h
  cases h
  have hown : ρ.Own d.states.size := own_of_le hm.base_le
  refine ⟨_, _, Draft.fresh_apply d', ⟨?_, ?_, fun id hid => ?_⟩, hown, hm.size_eq⟩
  · rw [Array.size_push]
    exact Nat.le_succ_of_le hm.base_le
  · have hle := hm.base_le
    rw [Array.size_push, Array.size_push, hm.size_eq, map_of_le hle, map_of_le (by omega)]
    omega
  · have hsize : ρ id = d'.states.size ↔ id = d.states.size := by
      rw [hm.size_eq]
      exact ⟨hown.inj hid, congrArg ρ⟩
    rw [Array.getElem?_push, Array.getElem?_push, hm.state_eq id hid]
    simp only [hsize]
    split
    · rw [Option.map_some, unwired_rename]
    · rfl

theorem rewire_agrees {f f' : State → State} (hs : ρ.Own s)
    (hf : ∀ st, f' (st.rename ρ) = (f st).rename ρ) :
    ρ.Agrees (Draft.rewire s f) (Draft.rewire (ρ s) f') := by
  intro d d' hm _ e h
  by_cases hlt : s < d.states.size
  · have hself := hm.state_eq s hs
    rw [Array.getElem?_eq_getElem hlt, Option.map_some] at hself
    obtain ⟨hlt', hst⟩ := Array.getElem?_eq_some_iff.1 hself
    rw [Draft.rewire_apply hlt] at h
    cases h
    refine ⟨(), _, Draft.rewire_apply hlt', ⟨?_, ?_, fun id hid => ?_⟩, trivial⟩
    · rw [Array.size_set]
      exact hm.base_le
    · rw [Array.size_set, Array.size_set]
      exact hm.size_eq
    · have hname : ρ s = ρ id ↔ s = id := ⟨hid.inj hs, congrArg ρ⟩
      rw [Array.getElem?_set, Array.getElem?_set, hst, hf]
      simp only [hname]
      split
      · rfl
      · exact hm.state_eq id hid
  · rw [Draft.rewire_apply_of_le (Nat.not_lt.1 hlt)] at h
    cases h

theorem setFallback_agrees (hs : ρ.Own s) (t : Transition) :
    ρ.Agrees (Draft.setFallback s t) (Draft.setFallback (ρ s) (t.rename ρ)) :=
  rewire_agrees hs fun _ => rfl

theorem addRules_agrees (hs : ρ.Own s) (ts : List Transition) :
    ρ.Agrees (Draft.addRules s ts) (Draft.addRules (ρ s) (ts.map (·.rename ρ))) := by
  apply rewire_agrees hs
  intro st
  simp only [State.rename, List.map_append]

/-! ## Patterns of wiring -/

theorem trail_matches {step : Nat → Transition}
    (hstep : ∀ next, (step next).rename ρ = step (ρ next)) (count : Nat) (hs : ρ.Own s) :
    ρ.Matches ρ.Sends (Draft.trail step count s) (Draft.trail step count (ρ s)) := by
  induction count generalizing s with
  | zero => exact .pure ⟨hs, rfl⟩
  | succ count ih =>
    apply fresh_matches.bind
    rintro next _ ⟨hnext, rfl⟩
    have hset := setFallback_agrees hs (step next)
    rw [hstep] at hset
    exact hset.bind fun _ _ _ => ih hnext

theorem walk_matches (move : Direction) (distance : Nat) (hs : ρ.Own s) :
    ρ.Matches ρ.Sends (Draft.walk move distance s) (Draft.walk move distance (ρ s)) :=
  trail_matches (fun _ => rfl) distance hs

theorem scan_agrees (move : Direction) (hs : ρ.Own s) (found : Transition) :
    ρ.Agrees (Draft.scan move s found) (Draft.scan move (ρ s) (found.rename ρ)) :=
  (setFallback_agrees hs (.skip move s)).bind fun _ _ _ => addRules_agrees hs [found]

theorem chain_agrees {link : Nat → Nat → Nat → DraftM Unit} (count : Nat) {exit : Nat}
    (hs : ρ.Own s)
    (hlink : ∀ i s next, ρ.Own s → ρ.Agrees (link i s next) (link i (ρ s) (ρ next))) :
    ρ.Agrees (Draft.chain count s exit link) (Draft.chain count (ρ s) (ρ exit) link) := by
  suffices h : ∀ remaining index s, ρ.Own s →
      ρ.Agrees (Draft.chain.go exit link remaining index s)
        (Draft.chain.go (ρ exit) link remaining index (ρ s)) from h count 0 s hs
  intro remaining
  induction remaining with
  | zero => exact fun _ _ _ => .pure trivial
  | succ remaining ih =>
    intro index s hs
    cases remaining with
    | zero => exact hlink index s exit hs
    | succ remaining =>
      apply fresh_matches.bind
      rintro next _ ⟨hnext, rfl⟩
      exact (hlink index s next hs).bind fun _ _ _ => ih (index + 1) next hnext

theorem mapM_matches {f f' : β → DraftM Transition} (l : List β)
    (h : ∀ b, ρ.Matches (fun t t' => t' = t.rename ρ) (f b) (f' b)) :
    ρ.Matches (fun ts ts' => ts' = ts.map (·.rename ρ)) (l.mapM f) (l.mapM f') := by
  induction l with
  | nil => exact .pure rfl
  | cons b l ih =>
    rw [List.mapM_cons, List.mapM_cons]
    apply (h b).bind
    rintro t _ rfl
    apply ih.bind
    rintro ts _ rfl
    exact .pure rfl

theorem branch_agrees {arm arm' : Fin 256 → DraftM Transition} (hs : ρ.Own s)
    (harm : ∀ b, ρ.Matches (fun t t' => t' = t.rename ρ) (arm b) (arm' b)) :
    ρ.Agrees (Draft.branch s arm) (Draft.branch (ρ s) arm') := by
  apply (mapM_matches Draft.allBytes harm).bind
  rintro rules _ rfl
  exact addRules_agrees hs rules

/-! ## Accesses to variables -/

section Access

variable {entry exit : Nat} (hentry : ρ.Own entry)

include hentry

theorem fetchByte_agrees (marker distance : Nat) :
    ρ.Agrees (Gadget.fetchByte marker distance entry exit)
      (Gadget.fetchByte marker distance (ρ entry) (ρ exit)) := by
  apply fresh_matches.bind
  rintro seek _ ⟨hseek, rfl⟩
  apply (setFallback_agrees hentry (.write Symbol.bookmark .left seek)).bind
  intro _ _ _
  apply fresh_matches.bind
  rintro found _ ⟨hfound, rfl⟩
  apply (scan_agrees .left hseek ⟨marker, marker, .right, found⟩).bind
  intro _ _ _
  apply (walk_matches .right distance hfound).bind
  rintro cell _ ⟨hcell, rfl⟩
  apply branch_agrees hcell
  intro v
  apply fresh_matches.bind
  rintro carry _ ⟨hcarry, rfl⟩
  apply (scan_agrees .right hcarry ⟨Symbol.bookmark, v, .right, exit⟩).bind
  intro _ _ _
  exact .pure rfl

theorem deliverByte_agrees (marker : Nat) (move : Direction) (distance : Nat) :
    ρ.Agrees (Gadget.deliverByte marker move distance entry exit)
      (Gadget.deliverByte marker move distance (ρ entry) (ρ exit)) := by
  apply fresh_matches.bind
  rintro top _ ⟨htop, rfl⟩
  apply (setFallback_agrees hentry (.write 0 .left top)).bind
  intro _ _ _
  apply fresh_matches.bind
  rintro back _ ⟨hback, rfl⟩
  refine Matches.bind (branch_agrees htop fun v => ?_) fun _ _ _ =>
    scan_agrees .right hback ⟨Symbol.bookmark, 0, .stay, exit⟩
  apply fresh_matches.bind
  rintro seek _ ⟨hseek, rfl⟩
  apply fresh_matches.bind
  rintro found _ ⟨hfound, rfl⟩
  apply (scan_agrees .left hseek ⟨marker, marker, move, found⟩).bind
  intro _ _ _
  apply (walk_matches move distance hfound).bind
  rintro cell _ ⟨hcell, rfl⟩
  apply (setFallback_agrees hcell (.write v .right back)).bind
  intro _ _ _
  exact .pure rfl

end Access

/-- A construction that begins in one state, leads to another one, and asks nothing else of the
draft. -/
def Uniform (x : Nat → Nat → DraftM Unit) : Prop :=
  ∀ (ρ : Renaming) (entry exit : Nat), ρ.Own entry →
    ρ.Agrees (x entry exit) (x (ρ entry) (ρ exit))

theorem load_uniform (w : Width) (marker offset : Nat) : Uniform (Gadget.load w marker offset) :=
  fun _ _ _ hentry => chain_agrees w.bytes hentry fun i _ _ hs =>
    fetchByte_agrees hs marker (offset + i)

theorem store_uniform (w : Width) (marker offset : Nat) : Uniform (Gadget.store w marker offset) :=
  fun _ _ _ hentry => chain_agrees w.bytes hentry fun i _ _ hs =>
    deliverByte_agrees hs marker .right (offset + w.bytes - i - 1)

end Renaming

end StackTape
