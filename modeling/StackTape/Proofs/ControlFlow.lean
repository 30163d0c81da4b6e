import StackTape.Proofs.Isolation
import StackTape.Proofs.Simulation

/-!
# Control flow

The states that belong to an instruction lead to each other, to the rejecting sink and to the entry
states of the positions where the program can go on, and only the entry state of an accepting
instruction leads to the accepting sink. So a run leaves the states of an instruction by the entry
state of one of its control successors (`compile_followsControlFlow`).
-/

namespace StackTape

open Stage

variable {p : Program} {sites : CallSites} {i : Instruction} {k q id : Nat}

/-! ## Control successors -/

/-- The program can go on from one position to the other. A return can go to every position after a
call. -/
def Program.Successor (p : Program) (position q : Nat) : Prop :=
  ∃ i, p[position]? = some i ∧
    match i.opcode with
    | .jump | .call => q = i.target
    | .jumpIfZero | .jumpIfNonzero => q = position + 1 ∨ q = i.target
    | .ret => ∃ j call, p[j]? = some call ∧ call.opcode = .call ∧ q = j + 1
    | .accept | .reject => False
    | _ => q = position + 1

theorem Program.successor_of_mem (hs : CallSites.ofProgram? p = some sites) (hi : p[k]? = some i)
    (hq : q ∈ i.successors sites k) : p.Successor k q := by
  refine ⟨i, hi, ?_⟩
  unfold Instruction.successors at hq
  cases hop : i.opcode with
  | ret =>
    rw [hop, CallSites.addresses_eq hs] at hq
    exact Program.exists_call_of_mem hq
  | accept | reject => simp [hop] at hq
  | _ => simpa [hop] using hq

/-! ## States of one instruction -/

/-- Where a state that belongs to the instruction `i` at `position` may lead. -/
inductive Draft.Onward (sites : CallSites) (p : Program) (position : Nat) (i : Instruction)
    (id : Nat) : Prop
  | reject (h : id = Sink.reject)
  | accept (h : id = Sink.accept) (hop : i.opcode = .accept)
  | leave (q : Nat) (hq : q ∈ i.successors sites position)
      (h : (reached sites p p.length).entries[q]? = some id)
  | stay (h : BelongsTo sites p position id)

/-- An accepting instruction has no state but its entry state. -/
theorem accept_builds {s : Scope} {σ : Stage} (hr : σ.Ready k) (hop : i.opcode = .accept) :
    Builds s σ (Draft.emit sites k i) fun _ σ' => ∃ entry, σ'.entry k = some entry ∧
      σ'.wiring entry = some ⟨[], .skip .stay Sink.accept⟩ ∧
        ∀ id, σ.size ≤ id → id < σ'.size → id = entry := by
  unfold Draft.emit
  rw [hop]
  refine (entryAt_builds k).bind fun entry σ₁ he₁ h₁ => ?_
  obtain ⟨hl, hw⟩ := (hr.enter h₁ he₁).entry_live h₁.entry_self
  refine (rewire_edits (fun st => { st with fallback := .skip .stay Sink.accept }) hl hw).imp
    fun _ σ₂ _ h₂ => ⟨entry, (h₂.entry k).trans h₁.entry_self, h₂.wiring_self, ?_⟩
  intro id hle hlt
  rw [h₂.size_eq] at hlt
  exact h₁.eq_of_le hle hlt

section Owned

variable (hsites : sites.addresses.length ≤ maxCallSites) {σ σ' : Stage}

include hsites

/-- A target of the construction is where the instruction may lead. -/
theorem Stage.Emitted.onward (h : σ.Emitted sites p k i σ')
    (ht : σ'.Target (i.scope sites k σ.size) id) : Draft.Onward sites p k i id := by
  cases ht with
  | reject hid => exact .reject hid
  | accept hid ha => exact .accept hid ha
  | goal q hq hentry =>
    rcases hq with hq | ⟨-, rfl⟩
    · exact .leave q hq (h.entry_final hsites hentry)
    · exact .stay (belongsTo_of_entry hsites (h.entry_final hsites hentry))
  | own hb hlt hno =>
    have hle : (Draft.reached sites p k).states.size ≤ id := h.draft_eq ▸ hb
    have hlt' : id < (Draft.reached sites p (k + 1)).states.size := h.states_eq ▸ hlt
    refine .stay (belongsTo_of_inner hsites hle hlt' fun q hq => hno q ?_)
    have hq' := entries_reached_of_lt hsites h.lt_length hq hlt'
    rw [← h.entries_eq] at hq'
    exact hq'

/-- The states of an instruction lead to each other, to its successors and to the sinks. -/
theorem Draft.BelongsTo.wellFormed {st : State} (hi : p[k]? = some i)
    (hw : Draft.BelongsTo sites p k id)
    (hst : (Draft.reached sites p p.length).states[id]? = some st) :
    st.WellFormed (Draft.Onward sites p k i) := by
  obtain ⟨σ, σ', h⟩ := exists_emitted hsites hi
  rw [← h.wiring_final hw] at hst
  rcases h.evolves.wellFormed id st hst (h.not_live hsites hw) with ⟨hlt, hsettled⟩ | hwf
  · exact absurd (h.live_of_lt hsites hw hlt) hsettled
  · exact hwf.mono fun _ => h.onward hsites

theorem wiring_of_accept (hi : p[k]? = some i) (hop : i.opcode = .accept)
    (hw : Draft.BelongsTo sites p k id) :
    (Draft.reached sites p p.length).entries[k]? = some id ∧
      (Draft.reached sites p p.length).states[id]? = some ⟨[], .skip .stay Sink.accept⟩ := by
  obtain ⟨σ, σ', h⟩ := exists_emitted hsites hi
  obtain ⟨_, σ'', hx, -, entry, hentry, hwiring, hnew⟩ :=
    accept_builds (s := i.scope sites k σ.size) h.ready hop (Nat.le_refl _)
  rw [h.emit_eq] at hx
  obtain hdraft : σ'.draft = σ''.draft := (EStateM.Result.ok.inj hx).2
  have hfinal : (Draft.reached sites p p.length).entries[k]? = some entry := by
    refine h.entry_final hsites ?_
    rw [Stage.entry, hdraft]
    exact hentry
  have hid : id = entry := by
    rcases hw.owner with hown | ⟨-, hge, hlt⟩
    · exact Option.some.inj (hown.symm.trans hfinal)
    · rw [← h.draft_eq] at hge
      rw [← h.states_eq, hdraft] at hlt
      exact hnew id hge hlt
  refine ⟨hid ▸ hfinal, ?_⟩
  rw [← h.wiring_final hw, Stage.wiring, hdraft, hid]
  exact hwiring

/-- No instruction wires a sink. -/
theorem Draft.BelongsTo.two_le (hw : Draft.BelongsTo sites p k id) : 2 ≤ id := by
  obtain ⟨σ, -, hσ, -⟩ := exists_reached hsites (Nat.le_refl p.length) (Nat.le_refl p.length)
  rcases hw.owner with hown | ⟨-, hge, -⟩
  · rw [← hσ] at hown
    exact σ.two_le_entry hown
  · exact Nat.le_trans (Nat.le_trans (Nat.le_add_left 2 2)
      (size_reached_le hsites (Nat.zero_le k))) hge

end Owned

/-! ## Runs -/

/-- What it means that a machine keeps to the control flow of its program, wherever a run of it has
come from and whatever the tape holds. -/
structure Compilation.FollowsControlFlow (c : Compilation) (p : Program) : Prop where
  /-- A run that goes from the entry state of one position to that of another, and passes no entry
  state but the first in between, goes to a control successor. -/
  goto : ∀ {d e : Config (Int → Nat)} {q r : Nat}, c.entries[q]? = some d.state →
    c.machine.Leads (fun id => ∀ s : Nat, c.entries[s]? = some id → s = q) d e →
      c.entries[r]? = some e.state → r ≠ q → p.Successor q r
  /-- The accepting state is entered from the entry state of an accepting instruction, with head and
  tape as they are. -/
  accept : ∀ {d e : Config (Int → Nat)}, c.machine.step d = .ok e →
    d.state ≠ c.machine.accept → e.state = c.machine.accept →
      (∃ (q : Nat) (i : Instruction), c.entries[q]? = some d.state ∧ p[q]? = some i ∧
        i.opcode = .accept) ∧
        e.head = d.head ∧ e.tape = d.tape

/-- The machine is dealing with the instruction at a position, or it has halted. -/
def Draft.Busy (sites : CallSites) (p : Program) (position id : Nat) : Prop :=
  BelongsTo sites p position id ∨ id = Sink.accept ∨ id = Sink.reject

namespace Compilation.Finishes

variable {c : Compilation} {σ : Stage} {d e : Config (Int → Nat)}

/-- A step from a state of an instruction. -/
theorem onward_of_step (hf : c.Finishes p sites σ) (hi : p[k]? = some i)
    (hd : Draft.BelongsTo sites p k d.state) (hstep : c.machine.step d = .ok e) :
    Draft.Onward sites p k i e.state := by
  obtain ⟨st, hst, rfl⟩ := Machine.exists_of_step hstep
  rw [hf.states_eq] at hst
  exact (hd.wellFormed (CallSites.length_le hf.sites_eq) hi hst).lookup_leads d.scanned

theorem step_of_length_le (hf : c.Finishes p sites σ) (hk : p.length ≤ k)
    (hd : Draft.BelongsTo sites p k d.state) (hstep : c.machine.step d = .ok e) :
    e.state = Sink.reject := by
  obtain ⟨st, hst, rfl⟩ := Machine.exists_of_step hstep
  rw [hf.states_eq, hd.wiring_of_length_le (CallSites.length_le hf.sites_eq) hk] at hst
  cases hst
  rfl

/-- One step stays with the instruction or goes to the entry state of a successor. -/
theorem busy_step (hf : c.Finishes p sites σ) (hd : Draft.Busy sites p k d.state)
    (hstep : c.machine.step d = .ok e) :
    Draft.Busy sites p k e.state ∨ ∃ q, p.Successor k q ∧ c.entries[q]? = some e.state := by
  rcases hd with hd | hd
  · cases hi : p[k]? with
    | none =>
      have hk : p.length ≤ k := List.getElem?_eq_none_iff.1 hi
      exact .inl (.inr (.inr (hf.step_of_length_le hk hd hstep)))
    | some i =>
      cases hf.onward_of_step hi hd hstep with
      | reject h => exact .inl (.inr (.inr h))
      | accept h _ => exact .inl (.inr (.inl h))
      | leave q hq h =>
        exact .inr ⟨q, Program.successor_of_mem hf.sites_eq hi hq, hf.entries_eq_reached ▸ h⟩
      | stay h => exact .inl (.inl h)
  · rw [hf.step_of_halted hd hstep]
    exact .inl (.inr hd)

/-- A run that passes no entry state of other positions does the same. -/
theorem busy_leads (hf : c.Finishes p sites σ) (hd : Draft.Busy sites p k d.state)
    (h : c.machine.Leads (fun id => ∀ s : Nat, c.entries[s]? = some id → s = k) d e) :
    Draft.Busy sites p k e.state ∨ ∃ q, p.Successor k q ∧ c.entries[q]? = some e.state := by
  induction h with
  | step hstep => exact hf.busy_step hd hstep
  | through hstep hvia _ ih =>
    rcases hf.busy_step hd hstep with hbusy | ⟨q, -, hq⟩
    · exact ih hbusy
    · -- an entry state on the way is that of the instruction itself
      obtain rfl := hvia q hq
      rw [hf.entries_eq_reached] at hq
      exact ih (.inl (belongsTo_of_entry (CallSites.length_le hf.sites_eq) hq))

/-- The entry states of other positions are none of the states of an instruction. -/
theorem not_busy_of_entry (hf : c.Finishes p sites σ) (hq : c.entries[q]? = some id)
    (hne : q ≠ k) : ¬Draft.Busy sites p k id := by
  rintro (hw | hsink)
  · rw [hf.entries_eq_reached] at hq
    rcases hw.owner with hown | ⟨hno, -⟩
    · exact hne (entries_reached_inj (CallSites.length_le hf.sites_eq) hq hown)
    · exact hno q hq
  · have h2 := hf.two_le_entry hq
    simp only [Sink.accept, Sink.reject] at hsink
    omega

/-- Only accepting instructions lead to the accepting sink. -/
theorem accepts_of_onward (hf : c.Finishes p sites σ) (h : Draft.Onward sites p k i Sink.accept) :
    i.opcode = .accept := by
  have hsites := CallSites.length_le hf.sites_eq
  cases h with
  | reject h => cases h
  | accept _ hop => exact hop
  | leave q _ h => cases (belongsTo_of_entry hsites h).two_le hsites
  | stay h => cases h.two_le hsites

/-- A state with a step to the accepting sink belongs to an accepting instruction. -/
theorem belongsTo_of_accept (hf : c.Finishes p sites σ) (hstep : c.machine.step d = .ok e)
    (hd : d.state ≠ Sink.accept) (he : e.state = Sink.accept) :
    ∃ k i, p[k]? = some i ∧ i.opcode = .accept ∧ Draft.BelongsTo sites p k d.state := by
  obtain ⟨st, hst, hnext⟩ := Machine.exists_of_step hstep
  obtain ⟨hlt, -⟩ := Array.getElem?_eq_some_iff.1 hst
  rw [hf.states_eq] at hlt
  by_cases h3 : 3 ≤ d.state
  · obtain ⟨k, hw, -⟩ := existsUnique_belongsTo (CallSites.length_le hf.sites_eq) hlt h3
    cases hi : p[k]? with
    | none =>
      rw [hf.step_of_length_le (List.getElem?_eq_none_iff.1 hi) hw hstep] at he
      cases he
    | some i =>
      have hon := hf.onward_of_step hi hw hstep
      rw [he] at hon
      exact ⟨k, i, hi, hf.accepts_of_onward hon, hw⟩
  · exfalso
    have hid : d.state = Sink.reject ∨ d.state = 2 := by
      simp only [Sink.accept] at hd
      simp only [Sink.reject]
      omega
    rcases hid with h | h
    · rw [hf.step_of_halted (.inr h) hstep] at he
      exact hd he
    · -- the start state leads to the entry state of the first position
      rw [h, hf.start_state] at hst
      cases hst
      rw [hnext] at he
      cases he

end Compilation.Finishes

/-- A compiled machine keeps to the control flow of its program, in every run from its start state
and on every tape. -/
theorem compile_followsControlFlow {o : Options} {c : Compilation} (h : compile o p = .ok c) :
    c.FollowsControlFlow p := by
  obtain ⟨-, sites, σ, hf⟩ := exists_finishes h
  have hsites := CallSites.length_le hf.sites_eq
  refine ⟨fun {d e q r} hd hleads he hne => ?_, fun {d e} hstep hd he => ?_⟩
  · have hbusy : Draft.Busy sites p q d.state := by
      rw [hf.entries_eq_reached] at hd
      exact .inl (belongsTo_of_entry hsites hd)
    rcases hf.busy_leads hbusy hleads with hin | ⟨s, hs, hout⟩
    · exact absurd hin (hf.not_busy_of_entry he hne)
    · rw [hf.entries_eq_reached] at he hout
      exact entries_reached_inj hsites hout he ▸ hs
  · rw [hf.wellFormed.accept_eq] at hd he
    obtain ⟨k, i, hi, hop, hw⟩ := hf.belongsTo_of_accept hstep hd he
    obtain ⟨hentry, hwiring⟩ := wiring_of_accept hsites hi hop hw
    rw [← hf.entries_eq_reached] at hentry
    refine ⟨⟨k, i, hentry, hi, hop⟩, ?_⟩
    obtain ⟨st, hst, rfl⟩ := Machine.exists_of_step hstep
    rw [hf.states_eq, hwiring] at hst
    cases hst
    exact ⟨add_zero d.head, rfl⟩

theorem callOnce_followsControlFlow :
    ∃ c, compile {} Program.callOnce = .ok c ∧ c.FollowsControlFlow Program.callOnce := by
  obtain ⟨c, hc⟩ := callOnce_compiles
  exact ⟨c, hc, compile_followsControlFlow hc⟩

end StackTape
