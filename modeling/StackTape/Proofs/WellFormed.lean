import StackTape.Proofs.Driver

/-!
# Compiled machines are well formed

Every state that an instruction settles leads to entry states, sinks or states of its own, so no
transition of a compiled machine leaves the machine or leads back to its start. Runs of such a
machine, from whatever state and on whatever tape, are never at fault.
-/

namespace StackTape

open Stage

/-- A machine with the two sinks in front, whose transitions name symbols of the tape alphabet, each
input at most once in a state, and lead to states of the machine other than its start. -/
structure Machine.WellFormed (m : Machine) : Prop where
  accept_eq : m.accept = Sink.accept
  reject_eq : m.reject = Sink.reject
  start_lt : m.start < m.states.size
  accept_sink : m.states[Sink.accept]? = some (.sink Sink.accept)
  reject_sink : m.states[Sink.reject]? = some (.sink Sink.reject)
  state : ∀ (id : Nat) (st : State), m.states[id]? = some st →
    st.WellFormed fun next => next < m.states.size ∧ next ≠ m.start

/-! ## Runs of well-formed machines -/

/-- The transition that is taken is a rule for the symbol or the fallback. -/
theorem State.lookup_cases (s : State) (v : Nat) :
    (s.lookup v ∈ s.rules ∧ (s.lookup v).input = v) ∨ s.lookup v = s.fallback := by
  unfold State.lookup
  cases h : s.rules.find? fun t => t.input == v with
  | none => exact .inr rfl
  | some t => exact .inl ⟨List.mem_of_find?_eq_some h, by simpa using List.find?_some h⟩

theorem State.WellFormed.lookup_leads {T : Nat → Prop} {s : State} (hs : s.WellFormed T) (v : Nat) :
    T (s.lookup v).next := by
  rcases s.lookup_cases v with ⟨h, -⟩ | h
  · exact hs.leads _ h
  · rw [h]
    exact hs.fallback_leads

theorem State.WellFormed.lookup_output {T : Nat → Prop} {s : State} (hs : s.WellFormed T)
    (v : Nat) : Symbol.Writable (s.lookup v).output := by
  rcases s.lookup_cases v with ⟨h, -⟩ | h
  · exact hs.output _ h
  · rw [h]
    exact hs.fallback_output

theorem State.WellFormed.lookup_input {T : Nat → Prop} {s : State} (hs : s.WellFormed T)
    (v : Nat) : (s.lookup v).input = v ∨ (s.lookup v).input = Symbol.wildcard := by
  rcases s.lookup_cases v with ⟨-, h⟩ | h
  · exact .inl h
  · rw [h]
    exact .inr hs.fallback_input

theorem Machine.exists_of_step {τ : Type} [TapeLike τ] {m : Machine} {c d : Config τ}
    (h : m.step c = .ok d) :
    ∃ st, m.states[c.state]? = some st ∧ d = (st.lookup c.scanned).apply c := by
  unfold Machine.step at h
  cases hst : m.states[c.state]? with
  | none =>
    rw [hst] at h
    cases h
  | some st =>
    rw [hst] at h
    cases h
    exact ⟨st, rfl, rfl⟩

namespace Machine.WellFormed

variable {m : Machine} {τ : Type} [TapeLike τ]

theorem step_ok (hm : m.WellFormed) {c : Config τ} (hc : c.state < m.states.size) :
    ∃ d, m.step c = .ok d ∧ d.state < m.states.size := by
  have hst : m.states[c.state]? = some m.states[c.state] := Array.getElem?_eq_getElem hc
  refine ⟨(m.states[c.state].lookup c.scanned).apply c, by rw [Machine.step, hst], ?_⟩
  exact ((hm.state _ _ hst).lookup_leads c.scanned).1

theorem after_ok (hm : m.WellFormed) (n : Nat) {c : Config τ} (hc : c.state < m.states.size) :
    ∃ d, m.after n c = .ok d ∧ d.state < m.states.size := by
  induction n generalizing c with
  | zero => exact ⟨c, rfl, hc⟩
  | succ n ih =>
    obtain ⟨d, hd, hlt⟩ := hm.step_ok hc
    rw [after_succ hd]
    exact ih hlt

theorem runFrom_ok (hm : m.WellFormed) (limit : Nat) {c : Config τ}
    (hc : c.state < m.states.size) (steps : Nat) :
    ∃ out, m.runFrom limit c steps = .ok out ∧ out.final.state < m.states.size := by
  induction limit generalizing c steps with
  | zero =>
    unfold Machine.runFrom
    cases m.verdict? c.state with
    | some verdict => exact ⟨_, rfl, hc⟩
    | none => exact ⟨_, rfl, hc⟩
  | succ limit ih =>
    unfold Machine.runFrom
    cases m.verdict? c.state with
    | some verdict => exact ⟨_, rfl, hc⟩
    | none =>
      obtain ⟨d, hd, hlt⟩ := hm.step_ok hc
      simp only [hd]
      exact ih hlt (steps + 1)

end Machine.WellFormed

/-! ## Compiled machines -/

section Compiled

variable {c : Compilation} {p : Program} {sites : CallSites} {σ : Stage}

theorem Compilation.Finishes.four_le (h : c.Finishes p sites σ) : 4 ≤ σ.size := h.evolves.size_le

/-- The sinks and the start state stay as they were before the first instruction. -/
theorem Compilation.Finishes.wiring_of_lt (h : c.Finishes p sites σ) {id : Nat} (hid : id < 3) :
    σ.wiring id = (Stage.opened sites).wiring id := by
  have hlt : id < (Stage.opened sites).size := Nat.lt_succ_of_lt hid
  have hlive : ¬(Stage.opened sites).live id := Nat.ne_of_lt hid
  exact (h.evolves.settled id hlt hlive).2

theorem Compilation.Finishes.target (h : c.Finishes p sites σ) {id : Nat}
    (ht : σ.Target .whole id) : id < σ.size ∧ id ≠ 2 := by
  have hsize := h.four_le
  cases ht with
  | reject hid =>
    simp only [Sink.reject] at hid
    omega
  | accept hid _ =>
    simp only [Sink.accept] at hid
    omega
  | goal q _ hq =>
    refine ⟨σ.entry_lt hq, ?_⟩
    rcases h.evolves.entry_new q id hq with hold | hnew
    · obtain ⟨-, rfl⟩ := Draft.opened_entry.1 hold
      decide
    · have : 4 ≤ id := hnew
      omega
  | own hb hlt _ =>
    have : 3 ≤ id := hb
    exact ⟨hlt, by omega⟩

theorem Compilation.Finishes.state_wellFormed (h : c.Finishes p sites σ) {id : Nat} {st : State}
    (hw : σ.wiring id = some st) : st.WellFormed fun next => next < σ.size ∧ next ≠ 2 := by
  have hsize := h.four_le
  by_cases hl : σ.live id
  · obtain ⟨q, hq, he⟩ := (h.ready.live id).1 hl
    obtain rfl : .unwired = st := Option.some.inj ((h.ready.unwired q id hq he).symm.trans hw)
    exact .unwired ⟨by simp only [Sink.reject]; omega, by decide⟩
  · rcases h.evolves.wellFormed id st hw hl with ⟨hlt, hn⟩ | hwf
    · have hlt : id < 4 := hlt
      have hn : id ≠ 3 := hn
      have hid : id < 3 := by omega
      rw [h.wiring_of_lt hid] at hw
      -- one of the three states that exist before the first instruction
      obtain rfl | rfl | rfl : id = 0 ∨ id = 1 ∨ id = 2 := by omega
      · cases hw
        exact .skip .stay ⟨by simp only [Sink.accept]; omega, by decide⟩
      · cases hw
        exact .skip .stay ⟨by simp only [Sink.reject]; omega, by decide⟩
      · cases hw
        exact .write (Nat.le_refl _) .right ⟨by omega, by decide⟩
    · exact hwf.mono fun _ => h.target

theorem Compilation.Finishes.wellFormed (h : c.Finishes p sites σ) : c.machine.WellFormed := by
  have hsize := h.four_le
  rw [h.machine_eq]
  refine ⟨rfl, rfl, ?_, ?_, ?_, fun id st hw => h.state_wellFormed hw⟩
  · change 2 < σ.size
    omega
  · exact h.wiring_of_lt (by decide)
  · exact h.wiring_of_lt (by decide)

/-- A compiled machine is well formed, and no run of it, from any of its states and on any tape,
meets a state that it does not have. -/
theorem compile_machine_wellFormed {o : Options} (h : compile o p = .ok c) :
    c.machine.WellFormed ∧ ∀ {τ : Type} [TapeLike τ] (d : Config τ),
      d.state < c.machine.states.size →
        (∀ n, ∃ e, c.machine.after n d = .ok e ∧ e.state < c.machine.states.size) ∧
        ∀ limit steps, ∃ out, c.machine.runFrom limit d steps = .ok out ∧
          out.final.state < c.machine.states.size := by
  obtain ⟨-, sites, σ, hf⟩ := exists_finishes h
  have hm := hf.wellFormed
  exact ⟨hm, fun d hd =>
    ⟨fun n => hm.after_ok n hd, fun limit steps => hm.runFrom_ok limit hd steps⟩⟩

theorem callOnce_machine_wellFormed :
    ∃ c, compile {} Program.callOnce = .ok c ∧ c.machine.WellFormed := by
  obtain ⟨c, hc⟩ := callOnce_compiles
  exact ⟨c, hc, (compile_machine_wellFormed hc).1⟩

end Compiled

end StackTape
