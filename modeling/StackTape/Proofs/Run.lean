import StackTape.Machine.Run
import StackTape.Proofs.Action

/-!
# Runs between control states

What it means that a machine, from one of its states on, does what an action says. The states that
a run passes on its way are kept in sight: `Machine.Leads via` is a run whose intermediate states
all satisfy `via`, and `Machine.Hangs via` a run that never leaves them. `Machine.Performs` ties a
state to an action, and `Machine.Performs.bind` composes two of these ties.
-/

namespace StackTape

namespace Machine

variable {τ : Type} [TapeLike τ]

/-- The configuration after a number of steps. -/
def after (m : Machine) : Nat → Config τ → Except IndexFault (Config τ)
  | 0, c => .ok c
  | n + 1, c =>
    match m.step c with
    | .error fault => .error fault
    | .ok d => m.after n d

/-- Some number of steps leads from one configuration to the other. -/
def Reaches (m : Machine) (c d : Config τ) : Prop := ∃ n, m.after n c = .ok d

theorem after_succ {m : Machine} {c d : Config τ} (h : m.step c = .ok d) (n : Nat) :
    m.after (n + 1) c = m.after n d := by
  rw [after, h]

theorem after_add {m : Machine} {c d : Config τ} {n : Nat} (h : m.after n c = .ok d) (k : Nat) :
    m.after (n + k) c = m.after k d := by
  induction n generalizing c with
  | zero =>
    cases h
    rw [Nat.zero_add]
  | succ n ih =>
    rw [after] at h
    rw [Nat.add_right_comm, after]
    cases hs : m.step c with
    | error fault =>
      rw [hs] at h
      cases h
    | ok c₁ =>
      rw [hs] at h
      exact ih h

theorem Reaches.refl (m : Machine) (c : Config τ) : m.Reaches c c := ⟨0, rfl⟩

theorem Reaches.trans {m : Machine} {c d e : Config τ} (h₁ : m.Reaches c d) (h₂ : m.Reaches d e) :
    m.Reaches c e := by
  obtain ⟨n, hn⟩ := h₁
  obtain ⟨k, hk⟩ := h₂
  exact ⟨n + k, by rw [after_add hn, hk]⟩

/-! ## Runs that pass certain states only -/

section Via

variable {m : Machine} {via : Nat → Prop} {c d e : Config (Int → Nat)}

variable (m via) in
/-- At least one step leads from the first configuration to the second, and every state in between
satisfies `via`. -/
inductive Leads : Config (Int → Nat) → Config (Int → Nat) → Prop
  | step {c d : Config (Int → Nat)} (h : m.step c = .ok d) : Leads c d
  | through {c d e : Config (Int → Nat)} (h : m.step c = .ok d) (hd : via d.state)
      (rest : Leads d e) : Leads c e

variable (m via) in
/-- After every positive number of steps the state satisfies `via`. -/
def Hangs (c : Config (Int → Nat)) : Prop :=
  ∀ n, ∃ d, m.after (n + 1) c = .ok d ∧ via d.state

theorem Leads.trans (h₁ : m.Leads via c d) (hd : via d.state) (h₂ : m.Leads via d e) :
    m.Leads via c e := by
  induction h₁ with
  | step h => exact .through h hd h₂
  | through h hv _ ih => exact .through h hv (ih hd h₂)

theorem Leads.mono {via' : Nat → Prop} (hv : ∀ id, via id → via' id) (h : m.Leads via c d) :
    m.Leads via' c d := by
  induction h with
  | step h => exact .step h
  | through h hd _ ih => exact .through h (hv _ hd) ih

/-- The number of steps of a run is positive. -/
theorem Leads.exists_after (h : m.Leads via c d) : ∃ n, m.after (n + 1) c = .ok d := by
  induction h with
  | step h => exact ⟨0, by rw [after_succ h, after]⟩
  | through h _ _ ih =>
    obtain ⟨n, hn⟩ := ih
    exact ⟨n + 1, by rw [after_succ h, hn]⟩

theorem Leads.reaches (h : m.Leads via c d) : m.Reaches c d :=
  let ⟨n, hn⟩ := h.exists_after
  ⟨n + 1, hn⟩

theorem Hangs.mono {via' : Nat → Prop} (hv : ∀ id, via id → via' id) (h : m.Hangs via c) :
    m.Hangs via' c := by
  intro n
  obtain ⟨d, hd, hs⟩ := h n
  exact ⟨d, hd, hv _ hs⟩

theorem Hangs.of_step (h : m.step c = .ok d) (hd : via d.state) (rest : m.Hangs via d) :
    m.Hangs via c := by
  intro n
  rw [after_succ h]
  cases n with
  | zero => exact ⟨d, rfl, hd⟩
  | succ n => exact rest n

theorem Hangs.exists_step (h : m.Hangs via c) :
    ∃ d, m.step c = .ok d ∧ via d.state ∧ m.Hangs via d := by
  obtain ⟨d, hd, hv⟩ := h 0
  have hstep : m.step c = .ok d := by
    rw [after] at hd
    cases hs : m.step c with
    | error fault =>
      rw [hs] at hd
      cases hd
    | ok e =>
      rw [hs] at hd
      exact hd
  refine ⟨d, hstep, hv, fun n => ?_⟩
  obtain ⟨e, he, hve⟩ := h (n + 1)
  rw [after_succ hstep] at he
  exact ⟨e, he, hve⟩

/-- A set of configurations that no step leaves keeps a run from ending. -/
theorem Hangs.of_invariant (inv : Config (Int → Nat) → Prop)
    (hstep : ∀ c, inv c → ∃ d, m.step c = .ok d ∧ via d.state ∧ inv d) (hc : inv c) :
    m.Hangs via c := by
  intro n
  induction n generalizing c with
  | zero =>
    obtain ⟨d, hd, hs, -⟩ := hstep c hc
    exact ⟨d, by rw [after_succ hd, after], hs⟩
  | succ n ih =>
    obtain ⟨d, hd, -, hi⟩ := hstep c hc
    obtain ⟨e, he, hs⟩ := ih hi
    exact ⟨e, by rw [after_succ hd, he], hs⟩

/-- The same with any positive number of steps at a time. -/
theorem Hangs.of_progress (inv : Config (Int → Nat) → Prop)
    (hstep : ∀ c, inv c → ∃ d, m.Leads via c d ∧ via d.state ∧ inv d) (hc : inv c) :
    m.Hangs via c := by
  refine .of_invariant (fun c => ∃ d, m.Leads via c d ∧ via d.state ∧ inv d) ?_ (hstep c hc)
  rintro c ⟨d, hl, hv, hi⟩
  cases hl with
  | step h => exact ⟨d, h, hv, hstep d hi⟩
  | through h hd rest => exact ⟨_, h, hd, d, rest, hv, hi⟩

theorem Hangs.of_leads (h : m.Leads via c d) (hd : via d.state) (rest : m.Hangs via d) :
    m.Hangs via c := by
  induction h with
  | step h => exact .of_step h hd rest
  | through h hv _ ih => exact .of_step h hv (ih hd rest)

end Via

/-! ## Performing an action -/

section Performs

variable {m : Machine} {via : Nat → Prop} {α β ε : Type} {s : Nat}

variable (m via) in
/-- From a configuration on the machine ends as it should; `exit` names the states that stand for
the exits. -/
def Meets (exit : ε → Nat) (c : Config (Int → Nat)) : Ending ε → Prop
  | .leave e h t => m.Leads via c ⟨exit e, h, t⟩
  | .reject => ∃ h t, m.Leads via c ⟨Sink.reject, h, t⟩
  | .hang => m.Hangs via c

variable (m via) in
/-- From a state on, wherever the head is and whatever the tape holds, the machine does what an
action says. -/
def Performs (s : Nat) (exit : ε → Nat) (a : Action ε) : Prop :=
  ∀ h t, m.Meets via exit ⟨s, h, t⟩ (a h t)

theorem Meets.of_step {exit : ε → Nat} {c d : Config (Int → Nat)} {r : Ending ε}
    (h : m.step c = .ok d) (hd : via d.state) (rest : m.Meets via exit d r) :
    m.Meets via exit c r := by
  cases r with
  | leave e h' t' => exact .through h hd rest
  | reject =>
    obtain ⟨h', t', rest⟩ := rest
    exact ⟨h', t', .through h hd rest⟩
  | hang => exact Hangs.of_step h hd rest

theorem Meets.of_leads {exit : ε → Nat} {c d : Config (Int → Nat)} {r : Ending ε}
    (h : m.Leads via c d) (hd : via d.state) (rest : m.Meets via exit d r) :
    m.Meets via exit c r := by
  induction h with
  | step h => exact .of_step h hd rest
  | through h hv _ ih => exact .of_step h hv (ih hd rest)

theorem Meets.mono {via' : Nat → Prop} (hv : ∀ id, via id → via' id) {exit : ε → Nat}
    {c : Config (Int → Nat)} {r : Ending ε} (h : m.Meets via exit c r) :
    m.Meets via' exit c r := by
  cases r with
  | leave e h' t' => exact Leads.mono hv h
  | reject =>
    obtain ⟨h', t', h⟩ := h
    exact ⟨h', t', h.mono hv⟩
  | hang => exact Hangs.mono hv h

theorem Performs.mono {via' : Nat → Prop} (hv : ∀ id, via id → via' id) {exit : ε → Nat}
    {a : Action ε} (h : m.Performs via s exit a) : m.Performs via' s exit a :=
  fun head tape => (h head tape).mono hv

/-- What leaves by an exit goes on from there. -/
theorem Performs.bind {mid : α → Nat} {exit : β → Nat} {a : Action α} {f : α → Action β}
    (ha : m.Performs via s mid a) (hmid : ∀ e, via (mid e))
    (hf : ∀ e, m.Performs via (mid e) exit (f e)) : m.Performs via s exit (a >>= f) := by
  intro h t
  have hm := ha h t
  rw [Action.bind_apply]
  cases hr : a h t with
  | leave e h' t' =>
    rw [hr] at hm
    exact Meets.of_leads hm (hmid e) (hf e h' t')
  | reject =>
    rw [hr] at hm
    exact hm
  | hang =>
    rw [hr] at hm
    exact hm

/-- Two states that stand for the same exit. -/
theorem Performs.map {mid : α → Nat} {exit : β → Nat} {a : Action α} {f : α → β}
    (ha : m.Performs via s mid a) (hf : ∀ e, mid e = exit (f e)) :
    m.Performs via s exit (do return f (← a)) := by
  intro h t
  have hm := ha h t
  rw [Action.bind_apply]
  cases hr : a h t with
  | leave e h' t' =>
    rw [hr] at hm
    change m.Leads via _ ⟨exit (f e), h', t'⟩
    rw [← hf e]
    exact hm
  | reject =>
    rw [hr] at hm
    exact hm
  | hang =>
    rw [hr] at hm
    exact hm

/-- The states at which a loop begins its turns perform the loop. -/
theorem Performs.loop {s : α → Nat} {exit : β → Nat} {body : α → Action (α ⊕ β)}
    (hs : ∀ a, via (s a)) (hbody : ∀ a, m.Performs via (s a) (Sum.elim s exit) (body a)) (a : α) :
    m.Performs via (s a) exit (.loop body a) := by
  have hturn : ∀ {a : α} {h : Int} {t : Int → Nat} {r : Ending (α ⊕ β)}, body a h t = r →
      m.Meets via (Sum.elim s exit) ⟨s a, h, t⟩ r := fun hb => hb ▸ hbody _ _ _
  intro h t
  by_cases hx : ∃ r, Action.LoopEnds body a h t r
  · obtain ⟨r, hr⟩ := hx
    rw [Action.loop_apply hr]
    induction hr with
    | leave hb | reject hb | hang hb => exact hturn hb
    | again hb _ ih => exact Meets.of_leads (hturn hb) (hs _) ih
  · rw [Action.loop_apply_of_not hx]
    refine Hangs.of_progress
      (fun c => ∃ a, c.state = s a ∧ ¬∃ r, Action.LoopEnds body a c.head c.tape r) ?_ ⟨a, rfl, hx⟩
    rintro ⟨_, h, t⟩ ⟨a, rfl, hx⟩
    -- a turn that does not go round again would end the loop
    cases hb : body a h t with
    | leave e h' t' =>
      cases e with
      | inl a' => exact ⟨_, hturn hb, hs a', a', rfl, fun ⟨r, hr⟩ => hx ⟨r, .again hb hr⟩⟩
      | inr b => exact absurd ⟨_, .leave hb⟩ hx
    | reject => exact absurd ⟨_, .reject hb⟩ hx
    | hang => exact absurd ⟨_, .hang hb⟩ hx

end Performs

end Machine

/-! ## Looking up transitions -/

namespace State

theorem lookup_nil (t : Transition) (v : Nat) : (State.mk [] t).lookup v = t := rfl

/-- With one transition for each input, a listed transition is the one that is taken. -/
theorem lookup_of_mem {s : State} {r : Transition} (hn : (s.rules.map (·.input)).Nodup)
    (hr : r ∈ s.rules) : s.lookup r.input = r := by
  obtain ⟨rules, fallback⟩ := s
  suffices h : rules.find? (fun t => t.input == r.input) = some r by
    rw [lookup, h, Option.getD_some]
  change (rules.map (·.input)).Nodup at hn
  change r ∈ rules at hr
  induction rules with
  | nil => cases hr
  | cons t rest ih =>
    rw [List.map_cons, List.nodup_cons] at hn
    rcases List.mem_cons.1 hr with rfl | hr
    · simp
    · have hne : (t.input == r.input) = false := by
        rw [beq_eq_false_iff_ne]
        intro he
        exact hn.1 (he ▸ List.mem_map_of_mem hr)
      rw [List.find?_cons, hne]
      exact ih hn.2 hr

theorem lookup_of_forall_ne {s : State} {v : Nat} (h : ∀ r ∈ s.rules, r.input ≠ v) :
    s.lookup v = s.fallback := by
  rw [lookup, List.find?_eq_none.2 (fun r hr => by simpa using h r hr), Option.getD_none]

end State

/-! ## States that perform single actions -/

namespace Machine

section Wired

variable {m : Machine} {via : Nat → Prop} {s : Nat} {st : State}

theorem step_of_state (hs : m.states[s]? = some st) (h : Int) (t : Int → Nat) :
    m.step ⟨s, h, t⟩ = .ok
      { state := (st.lookup (t h)).next
        head := h + (st.lookup (t h)).move.offset
        tape :=
          if (st.lookup (t h)).output = Symbol.wildcard then t
          else Function.update t h (st.lookup (t h)).output } := by
  have hr : (Config.mk s h t).scanned = t h := rfl
  simp only [step, hs, hr, Transition.apply, TapeLike.write]
  congr 2
  split
  · rfl
  · funext c
    rw [Function.update_apply]

/-- A state without explicit transitions. -/
theorem performs_take {t : Transition} (hs : m.states[s]? = some ⟨[], t⟩) :
    m.Performs via s (fun _ => t.next) (.take t) := by
  intro h tape
  have hstep := step_of_state hs h tape
  rw [State.lookup_nil] at hstep
  exact .step hstep

/-- A state with a transition for every byte, and none for the other symbols. -/
theorem performs_byte {out next : Fin 256 → Nat} {move : Direction}
    (hs : m.states[s]? = some st) (hout : ∀ b, out b ≠ Symbol.wildcard)
    (hbyte : ∀ b : Fin 256, st.lookup b = ⟨b, out b, move, next b⟩)
    (hother : ∀ v, 256 ≤ v → (st.lookup v).next = Sink.reject) :
    m.Performs via s next (.byte out move) := by
  intro h t
  have hstep := step_of_state hs h t
  by_cases hb : t h < 256
  · rw [Action.byte_apply hb]
    rw [hbyte ⟨t h, hb⟩, if_neg (hout _)] at hstep
    exact .step hstep
  · rw [Action.byte_apply_of_le (by omega)]
    rw [hother (t h) (by omega)] at hstep
    exact ⟨_, _, .step hstep⟩

/-- A state that looks for a symbol and leads back to itself on every other one. -/
theorem performs_search {miss hit : Transition} (hs : m.states[s]? = some ⟨[hit], miss⟩)
    (hself : miss.next = s) (hv : via s) :
    m.Performs via s (fun _ => hit.next)
      (.search hit.input (.take miss) (.take hit)) := by
  refine Performs.loop (s := fun _ => s) (fun _ => hv) (fun _ h t => ?_) ()
  have hstep := step_of_state hs h t
  by_cases hx : t h = hit.input
  · have hl : (State.mk [hit] miss).lookup hit.input = hit :=
      State.lookup_of_mem (by simp) (by simp)
    rw [if_pos hx]
    rw [hx, hl] at hstep
    exact .step hstep
  · have hl : (State.mk [hit] miss).lookup (t h) = miss :=
      State.lookup_of_forall_ne (by simpa using fun he => hx he.symm)
    rw [if_neg hx]
    rw [hl, hself] at hstep
    exact .step hstep

end Wired

end Machine

end StackTape
