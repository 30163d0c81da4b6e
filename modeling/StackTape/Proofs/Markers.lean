import StackTape.Proofs.Gadget.Phase
import StackTape.Proofs.Simulation

/-!
# Markers on the tape

Along a run of a compiled machine the tape holds symbols of the alphabet only, the marker of the
global variables stays in its cell, and there is at most one bookmark, and none between two
instructions (`compile_keepsMarkers`). The bookmark is followed through the phases of the states
that the machine passes.
-/

namespace StackTape

variable {phase : Nat → Phase} {d e : Config (Int → Nat)} {t : Transition}

/-! ## One step -/

/-- The markers on the tape are in order, given the phase of the current state. -/
structure Config.Orderly (phase : Nat → Phase) (d : Config (Int → Nat)) : Prop where
  symbol_le : ∀ x, d.tape x ≤ Symbol.globalPointer
  global : ∀ x, d.tape x = Symbol.globalPointer → x = 0
  bookmark : ∀ x y, d.tape x = Symbol.bookmark → d.tape y = Symbol.bookmark → x = y
  home : phase d.state = .home → Unmarked d.tape

/-- A transition that writes nothing. -/
theorem Config.Orderly.skip (hd : d.Orderly phase)
    (ht : t.Disciplined (phase d.state) (phase t.next)) (hout : t.output = Symbol.wildcard) :
    (t.apply d).Orderly phase := by
  have htape : (t.apply d).tape = d.tape := if_pos hout
  refine ⟨htape ▸ hd.symbol_le, htape ▸ hd.global, htape ▸ hd.bookmark, fun hhome => ?_⟩
  rw [htape]
  refine hd.home ?_
  cases hphase : phase d.state with
  | home => rfl
  | away => exact absurd hout (ht.returns hphase hhome).2

/-- A transition that writes a symbol. -/
theorem Config.Orderly.write (hd : d.Orderly phase)
    (ht : t.Disciplined (phase d.state) (phase t.next))
    (hin : t.input = d.scanned ∨ t.input = Symbol.wildcard)
    (hout : t.output ≤ Symbol.globalPointer) : (t.apply d).Orderly phase := by
  have hne : t.output ≠ Symbol.wildcard := Nat.ne_of_lt (Nat.lt_of_le_of_lt hout (by decide))
  have htape : (t.apply d).tape = Function.update d.tape d.head t.output := by
    have happly : (t.apply d).tape = TapeLike.write d.tape d.head t.output := if_neg hne
    rw [happly]
    funext x
    rw [Function.update_apply]
    rfl
  -- a rule on a marker is taken only where the marker is
  have hscan : ∀ marker, marker ≠ Symbol.wildcard → t.input = marker → d.tape d.head = marker := by
    intro marker hw he
    rcases hin with h | h
    · exact h.symm.trans he
    · exact absurd (he.symm.trans h) hw
  refine ⟨fun x => ?_, fun x hx => ?_, fun x y hx hy => ?_, fun hhome => ?_⟩
  · rw [htape, Function.update_apply]
    split
    · exact hout
    · exact hd.symbol_le x
  · rw [htape, Function.update_apply] at hx
    split at hx
    · next hxh =>
      rw [hxh]
      exact hd.global d.head (hscan _ (by decide) (ht.global hx))
    · exact hd.global x hx
  · rw [htape, Function.update_apply] at hx hy
    by_cases hmark : t.output = Symbol.bookmark
    · -- there was none before
      have hno := hd.home (ht.departs hmark).1
      split at hx
      · next hxh =>
        split at hy
        · next hyh => rw [hxh, hyh]
        · exact absurd hy (hno y)
      · exact absurd hx (hno x)
    · split at hx
      · exact absurd hx hmark
      · split at hy
        · exact absurd hy hmark
        · exact hd.bookmark x y hx hy
  · rw [htape]
    have hmark : t.output ≠ Symbol.bookmark := by
      intro h
      cases (ht.departs h).2.symm.trans hhome
    cases hphase : phase d.state with
    | home => exact unmarked_update (hd.home hphase) hmark
    | away =>
      -- the bookmark is under the head
      have hhead := hscan _ (by decide) (ht.returns hphase hhome).1
      intro x hx
      rw [Function.update_apply] at hx
      split at hx
      · exact hmark hx
      · next hxh => exact hxh (hd.bookmark x d.head hx hhead)

/-! ## Runs -/

/-- The markers on the tape are in order as far as it shows between two steps: all symbols are of
the alphabet, the marker of the global variables is nowhere but in cell 0, there is at most one
bookmark, and none when the machine is in the entry state of a position or has accepted. -/
structure Compilation.KeepsMarkers (c : Compilation) (d : Config Tape) : Prop where
  symbol_le : ∀ x, d.tape.read x ≤ Symbol.globalPointer
  global : ∀ x, d.tape.read x = Symbol.globalPointer → x = 0
  bookmark : ∀ x y, d.tape.read x = Symbol.bookmark → d.tape.read y = Symbol.bookmark → x = y
  unmarked : (∃ q : Nat, c.entries[q]? = some d.state) ∨ d.state = c.machine.accept →
    Unmarked d.tape.read

/-- Before the first instruction every state but the rejecting sink is at home. -/
theorem Phased.exists_opened (sites : CallSites) : ∃ τ : Phased, τ.draft = Draft.opened sites := by
  refine ⟨⟨Draft.opened sites, fun id => if id = Sink.reject then .away else .home, ?_, rfl, rfl,
    ?_, ?_, ?_⟩, rfl⟩
  · exact Nat.le_succ 3
  · intro q id h
    rw [(Draft.opened_entry.1 h).2]
    exact Nat.lt_succ_self 3
  · intro q id h
    rw [(Draft.opened_entry.1 h).2]
    rfl
  · intro id st h3 h
    have hlt : id < 4 := (Array.getElem?_eq_some_iff.1 h).1
    obtain rfl : id = 3 := by omega
    cases h
    exact ⟨fun t ht => (by cases ht), show 1 < 4 by decide,
      .of_plain Symbol.plain_wildcard fun _ => rfl⟩

namespace Compilation.Finishes

variable {c : Compilation} {p : Program} {sites : CallSites} {σ : Stage} {τ : Phased}

/-- The states of a compiled machine have phases. -/
theorem exists_phased (hf : c.Finishes p sites σ) : ∃ τ : Phased, τ.draft = σ.draft := by
  have hbuild := hf.build_eq
  rw [Draft.build_apply, DraftM.bind_apply] at hbuild
  cases hemit : Draft.emitFrom sites 0 p (Draft.opened sites) with
  | error fault d =>
    rw [hemit] at hbuild
    cases hbuild
  | ok _ d =>
    rw [hemit] at hbuild
    cases hbuild
    obtain ⟨υ, hυ⟩ := Phased.exists_opened sites
    rw [← hυ] at hemit
    obtain ⟨τ, hτ, -⟩ := Phased.emitFrom_safe sites 0 p () σ.draft hemit
    exact ⟨τ, hτ⟩

/-- A step keeps the markers in order. -/
theorem orderly_step (hf : c.Finishes p sites σ) (hτ : τ.draft = σ.draft)
    (hd : d.Orderly τ.phase) (hstart : d.state ≠ c.machine.start)
    (hstep : c.machine.step d = .ok e) :
    e.Orderly τ.phase ∧ e.state ≠ c.machine.start := by
  have hm := hf.wellFormed
  obtain ⟨st, hst, he⟩ := Machine.exists_of_step hstep
  have hwf := hm.state _ _ hst
  refine ⟨?_, he ▸ (hwf.lookup_leads d.scanned).2⟩
  by_cases h3 : 3 ≤ d.state
  · have hstate : τ.draft.states[d.state]? = some st := by
      rw [hτ, ← hst, hf.machine_eq]
    have hallowed := τ.allowed h3 hstate
    have ht : (st.lookup d.scanned).Disciplined (τ.phase d.state)
        (τ.phase (st.lookup d.scanned).next) := by
      rcases st.lookup_cases d.scanned with ⟨h, -⟩ | h
      · exact (hallowed.rules _ h).2
      · rw [h]
        exact hallowed.fallback.2
    rw [he]
    rcases hwf.lookup_output d.scanned with hout | hout
    · exact hd.write ht (hwf.lookup_input d.scanned) hout
    · exact hd.skip ht hout
  · have hsink : d.state = Sink.accept ∨ d.state = Sink.reject := by
      have h2 : d.state ≠ 2 := by
        rw [hf.machine_eq] at hstart
        exact hstart
      simp only [Sink.accept, Sink.reject]
      omega
    rw [hf.step_of_halted hsink hstep]
    exact hd

theorem orderly_after (hf : c.Finishes p sites σ) (hτ : τ.draft = σ.draft) (n : Nat)
    (hd : d.Orderly τ.phase) (hstart : d.state ≠ c.machine.start)
    (h : c.machine.after n d = .ok e) : e.Orderly τ.phase := by
  induction n generalizing d with
  | zero =>
    cases h
    exact hd
  | succ n ih =>
    rw [Machine.after] at h
    cases hstep : c.machine.step d with
    | error fault =>
      rw [hstep] at h
      cases h
    | ok d' =>
      rw [hstep] at h
      obtain ⟨hd', hstart'⟩ := hf.orderly_step hτ hd hstart hstep
      exact ih hd' hstart' h

end Compilation.Finishes

/-- After the first step the only marker is in cell 0. -/
theorem Config.orderly_initial (phase : Nat → Phase) :
    Config.Orderly phase ⟨3, Reference.initial.head, Reference.initial.tape⟩ := by
  have hno : Unmarked Reference.initial.tape := Reference.unmarked_initial
  have htape : ∀ x, Reference.initial.tape x = if x = 0 then Symbol.globalPointer else 0 :=
    Function.update_apply _ _ _
  refine ⟨fun x => ?_, fun x hx => ?_, fun x _ hx => absurd hx (hno x), fun _ => hno⟩
  · change Reference.initial.tape x ≤ _
    rw [htape]
    split
    · exact Nat.le_refl _
    · exact Nat.zero_le _
  · change Reference.initial.tape x = _ at hx
    rw [htape] at hx
    split at hx
    · next h => exact h
    · cases hx

theorem Compilation.keepsMarkers_initial (c : Compilation) : c.KeepsMarkers c.machine.initial := by
  have hread : ∀ x, c.machine.initial.tape.read x = 0 := Tape.read_blank
  have hne : ∀ x {v : Nat}, v ≠ 0 → c.machine.initial.tape.read x ≠ v := by
    intro x v hv h
    exact hv (h.symm.trans (hread x))
  refine ⟨fun x => ?_, fun x hx => ?_, fun x _ hx => ?_, fun _ x => hne x (by decide)⟩
  · rw [hread]
    exact Nat.zero_le _
  · exact absurd hx (hne x (by decide))
  · exact absurd hx (hne x (by decide))

/-- Compiled machines keep the markers in order. A run from the start state on the blank tape is
never at fault, and after every number of steps the tape is as it should be. -/
theorem compile_keepsMarkers {o : Options} {p : Program} {c : Compilation}
    (h : compile o p = .ok c) (n : Nat) :
    ∃ d, c.machine.after n c.machine.initial = .ok d ∧ c.KeepsMarkers d := by
  obtain ⟨-, sites, σ, hf⟩ := exists_finishes h
  obtain ⟨τ, hτ⟩ := hf.exists_phased
  obtain ⟨d, hd, -⟩ := hf.wellFormed.after_ok n (c := c.machine.initial) hf.wellFormed.start_lt
  refine ⟨d, hd, ?_⟩
  cases n with
  | zero =>
    cases hd
    exact c.keepsMarkers_initial
  | succ n =>
    have hrun : c.machine.after (n + 1) c.machine.initial.toFun = .ok d.toFun := by
      rw [Machine.after_toFun, hd]
      rfl
    rw [Machine.after_succ hf.step_initial] at hrun
    have hthree : 3 ≠ c.machine.start := by
      rw [hf.machine_eq]
      exact Nat.succ_ne_self 2
    have horder := hf.orderly_after hτ n (Config.orderly_initial τ.phase) hthree hrun
    refine ⟨horder.symbol_le, horder.global, horder.bookmark, fun hstate => horder.home ?_⟩
    rcases hstate with ⟨q, hq⟩ | haccept
    · rw [hf.entries_eq, ← hτ] at hq
      exact τ.entry_home hq
    · rw [hf.wellFormed.accept_eq] at haccept
      rw [Config.state_toFun, haccept]
      exact τ.accept_home

theorem callOnce_keepsMarkers : ∃ c, compile {} Program.callOnce = .ok c ∧
    ∀ n, ∃ d, c.machine.after n c.machine.initial = .ok d ∧ c.KeepsMarkers d := by
  obtain ⟨c, hc⟩ := callOnce_compiles
  exact ⟨c, hc, compile_keepsMarkers hc⟩

end StackTape
