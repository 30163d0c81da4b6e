import StackTape.Proofs.Meaning
import StackTape.Proofs.WellFormed

/-!
# Compiled machines simulate the reference interpreter

From the entry state of a position a compiled machine does one step of the reference interpreter and
ends in the entry state of the next position (`Compilation.Follows`). So the machine passes every
state of the reference run, and since its halting states are sinks it halts as the reference run
ends, in acceptance with the same head and tape, and never if that run does not end
(`compile_simulates`).
-/

namespace StackTape

/-! ## Machines that stay where they have halted -/

namespace Machine

section After

variable {τ : Type} [TapeLike τ] {m : Machine} {c d e : Config τ}

theorem after_of_fixed (h : m.step d = .ok d) (n : Nat) : m.after n d = .ok d := by
  induction n with
  | zero => rfl
  | succ n ih => rw [after_succ h, ih]

/-- On the way to a configuration that is never left, every other one is passed before it. -/
theorem after_split {n k : Nat} (hd : m.after n c = .ok d) (he : m.after k c = .ok e)
    (hfix : m.step e = .ok e) : d = e ∨ ∃ j, k = n + j ∧ m.after j d = .ok e := by
  rcases Nat.le_total n k with hle | hle
  · obtain ⟨j, rfl⟩ := Nat.exists_eq_add_of_le hle
    rw [after_add hd] at he
    exact .inr ⟨j, rfl, he⟩
  · obtain ⟨j, rfl⟩ := Nat.exists_eq_add_of_le hle
    rw [after_add he, after_of_fixed hfix] at hd
    exact .inl (Except.ok.inj hd).symm

theorem eq_of_fixed {n k : Nat} (hd : m.after n c = .ok d) (hd' : m.step d = .ok d)
    (he : m.after k c = .ok e) (he' : m.step e = .ok e) : d = e := by
  rcases after_split hd he he' with h | ⟨j, -, h⟩
  · exact h
  · rw [after_of_fixed hd'] at h
    exact Except.ok.inj h

theorem after_toFun (m : Machine) (n : Nat) (c : Config Tape) :
    m.after n c.toFun = (m.after n c).map Config.toFun := by
  induction n generalizing c with
  | zero => rfl
  | succ n ih =>
    rw [after, after, step_toFun]
    cases m.step c with
    | error fault => rfl
    | ok d => exact ih d

end After

/-! ## Bounded runs -/

section Runs

variable {τ : Type} [TapeLike τ] {m : Machine} {c d : Config τ}

theorem runFrom_eq_limit_or {limit steps : Nat} {out : Outcome τ}
    (h : m.runFrom limit c steps = .ok out) :
    out.verdict = .limit ∨
      m.Reaches c out.final ∧ m.verdict? out.final.state = some out.verdict := by
  fun_induction m.runFrom limit c steps with
  | case1 _ c _ v hv =>
    cases h
    exact .inr ⟨.refl m c, hv⟩
  | case2 =>
    cases h
    exact .inl rfl
  | case3 => cases h
  | case4 c _ _ _ d hs ih =>
    rcases ih h with hlimit | ⟨⟨n, hn⟩, hverdict⟩
    · exact .inl hlimit
    · exact .inr ⟨⟨n + 1, by rw [after_succ hs, hn]⟩, hverdict⟩

theorem runFrom_of_after (hfix : ∀ (d : Config τ) v, m.verdict? d.state = some v → m.step d = .ok d)
    {n : Nat} {v : Verdict} (hd : m.after n c = .ok d) (hv : m.verdict? d.state = some v)
    (steps : Nat) : ∃ k, m.runFrom n c steps = .ok ⟨v, d, k⟩ := by
  fun_induction m.runFrom n c steps with
  | case1 n c steps v' hv' =>
    rw [after_of_fixed (hfix c v' hv')] at hd
    cases hd
    cases hv'.symm.trans hv
    exact ⟨steps, rfl⟩
  | case2 c steps hnone =>
    cases hd
    cases hnone.symm.trans hv
  | case3 c steps _ n fault hs =>
    rw [after, hs] at hd
    cases hd
  | case4 c steps _ n d' hs ih =>
    rw [after_succ hs] at hd
    exact ih hd

theorem WellFormed.step_halted (hm : m.WellFormed) {v : Verdict}
    (hv : m.verdict? d.state = some v) : m.step d = .ok d := by
  have hsink : m.states[d.state]? = some (.sink d.state) := by
    unfold verdict? at hv
    split at hv
    · next h =>
      rw [h, hm.accept_eq]
      exact hm.accept_sink
    · split at hv
      · next h =>
        rw [h, hm.reject_eq]
        exact hm.reject_sink
      · cases hv
  rw [step, hsink]
  change Except.ok (Config.mk _ (d.head + 0) _) = _
  rw [add_zero]
  rfl

end Runs

end Machine

/-! ## One instruction -/

theorem Program.violation?_eq_none {o : Options} {p : Program} {position : Nat} {i : Instruction}
    (hv : p.violation? o = none) (hi : p[position]? = some i) :
    i.violation? o p.length = none := by
  have := List.findSome?_eq_none_iff.1 hv (i, position) (List.mem_zipIdx_iff_getElem?.2 hi)
  simpa using this

theorem Reference.unmarked_initial : Unmarked Reference.initial.tape :=
  unmarked_update (fun _ => by decide) (by decide)

theorem Reference.unmarked_step {p : Program} {s : Reference.State} {e : Exit} {h : Int}
    {t : Int → Nat} (hno : Unmarked s.tape) (hstep : Reference.step p s = .leave e h t) :
    Unmarked t := by
  unfold Reference.step at hstep
  split at hstep
  · next i _ =>
    have htidy := Instruction.tidy_effect p s.position i s.head s.tape hno
    rw [hstep] at htidy
    exact htidy
  · cases hstep

namespace Compilation

/-- What a machine does from a configuration on, if it follows one step of the reference
interpreter. -/
def Follows (c : Compilation) (d : Config (Int → Nat)) : Ending Exit → Prop
  | .leave (.goto q) h t => ∃ id, c.entries[q]? = some id ∧ c.machine.Reaches d ⟨id, h, t⟩
  | .leave .accept h t => c.machine.Reaches d ⟨Sink.accept, h, t⟩
  | .reject => ∃ h t, c.machine.Reaches d ⟨Sink.reject, h, t⟩
  | .hang => ∀ n, ∃ e, c.machine.after n d = .ok e ∧ c.machine.verdict? e.state = none

namespace Finishes

variable {c : Compilation} {p : Program} {sites : CallSites} {σ : Stage} {o : Options}
  {s : Reference.State} {id q : Nat}

theorem two_le_entry (hf : c.Finishes p sites σ) (hq : c.entries[q]? = some id) : 2 ≤ id := by
  rw [hf.entries_eq] at hq
  exact σ.two_le_entry hq

theorem entry_lt (hf : c.Finishes p sites σ) (hq : c.entries[q]? = some id) :
    id < c.machine.states.size := by
  rw [hf.entries_eq] at hq
  rw [hf.machine_eq]
  exact σ.entry_lt hq

theorem verdict?_eq_none (hf : c.Finishes p sites σ) (hid : 2 ≤ id) :
    c.machine.verdict? id = none := by
  have hm := hf.wellFormed
  have ha : id ≠ c.machine.accept := by
    rw [hm.accept_eq, Sink.accept]
    omega
  have hr : id ≠ c.machine.reject := by
    rw [hm.reject_eq, Sink.reject]
    omega
  rw [Machine.verdict?, if_neg ha, if_neg hr]

theorem verdict?_accept (hf : c.Finishes p sites σ) :
    c.machine.verdict? Sink.accept = some .accept := by
  rw [Machine.verdict?, hf.wellFormed.accept_eq, if_pos rfl]

theorem verdict?_reject (hf : c.Finishes p sites σ) :
    c.machine.verdict? Sink.reject = some .reject := by
  rw [Machine.verdict?, hf.wellFormed.accept_eq, if_neg (by decide), hf.wellFormed.reject_eq,
    if_pos rfl]

theorem step_of_halted (hf : c.Finishes p sites σ) {d e : Config (Int → Nat)}
    (hd : d.state = Sink.accept ∨ d.state = Sink.reject) (hstep : c.machine.step d = .ok e) :
    e = d := by
  have hfixed : c.machine.step d = .ok d := by
    rcases hd with h | h
    · exact hf.wellFormed.step_halted (v := .accept) (h ▸ hf.verdict?_accept)
    · exact hf.wellFormed.step_halted (v := .reject) (h ▸ hf.verdict?_reject)
  exact Except.ok.inj (hstep.symm.trans hfixed)

/-- A position whose entry state a run gets to has one. -/
theorem exists_entry (hf : c.Finishes p sites σ) {d e : Config (Int → Nat)}
    (hd : d.state < c.machine.states.size) (hr : c.machine.Reaches d e)
    (he : e.state = c.entryOf q) : c.entries[q]? = some (c.entryOf q) := by
  obtain ⟨n, hn⟩ := hr
  obtain ⟨e', he', hlt⟩ := hf.wellFormed.after_ok n hd
  obtain rfl : e = e' := Except.ok.inj (hn.symm.trans he')
  rw [he] at hlt
  unfold entryOf at hlt ⊢
  cases hq : c.entries[q]? with
  | some id => rfl
  | none =>
    rw [hq, Option.getD_none] at hlt
    exact absurd hlt (Nat.lt_irrefl _)

theorem meets_step (hf : c.Finishes p sites σ) (hv : p.violation? o = none)
    (hno : Unmarked s.tape) (hid : c.entries[s.position]? = some id) :
    c.machine.Meets (fun x => c.Inner x ∨ x = id) c.exitState ⟨id, s.head, s.tape⟩
      (Reference.step p s) := by
  have hentry : c.entryOf s.position = id := by rw [entryOf, hid, Option.getD_some]
  unfold Reference.step
  cases hi : p[s.position]? with
  | some i =>
    have hp := hf.performs s.position i hi
    rw [PerformsAt, hentry] at hp
    have happly := Instruction.action_apply (h := s.head) hf.sites_eq hi
      (Program.violation?_eq_none hv hi) hno
    dsimp only
    rw [← happly]
    exact (hp s.head s.tape).mono fun x hx => hx.imp_right fun hx => hx.2.trans hentry
  | none =>
    -- past the end there is an entry state that has never been wired
    have hle : p.length ≤ s.position := List.getElem?_eq_none_iff.1 hi
    have hstate : c.machine.states[id]? = some .unwired := by
      rw [hf.machine_eq]
      exact hf.ready.unwired s.position id hle (by rw [← hid, hf.entries_eq]; rfl)
    have hp : c.machine.Performs (fun x => c.Inner x ∨ x = id) id (fun _ => Sink.reject)
        (.take (.skip .stay Sink.reject)) := Machine.performs_take hstate
    rw [Action.take_skip, Action.walk_stay] at hp
    exact ⟨s.head, s.tape, hp s.head s.tape⟩

theorem follows_step (hf : c.Finishes p sites σ) (hv : p.violation? o = none)
    (hno : Unmarked s.tape) (hid : c.entries[s.position]? = some id) :
    c.Follows ⟨id, s.head, s.tape⟩ (Reference.step p s) := by
  have hmeets := hf.meets_step hv hno hid
  cases hstep : Reference.step p s with
  | leave e h t =>
    rw [hstep] at hmeets
    have hreach : c.machine.Reaches ⟨id, s.head, s.tape⟩ ⟨c.exitState e, h, t⟩ := hmeets.reaches
    cases e with
    | goto q => exact ⟨_, hf.exists_entry (hf.entry_lt hid) hreach rfl, hreach⟩
    | accept => exact hreach
  | reject =>
    rw [hstep] at hmeets
    obtain ⟨h, t, hleads⟩ := hmeets
    exact ⟨h, t, hleads.reaches⟩
  | hang =>
    rw [hstep] at hmeets
    intro n
    have h2 := hf.two_le_entry hid
    cases n with
    | zero => exact ⟨_, rfl, hf.verdict?_eq_none h2⟩
    | succ n =>
      obtain ⟨e, he, hvia⟩ := hmeets n
      refine ⟨e, he, hf.verdict?_eq_none ?_⟩
      rcases hvia with hin | rfl
      · exact hin.1
      · exact h2

/-! ## Whole runs -/

theorem start_state (hf : c.Finishes p sites σ) :
    c.machine.states[2]? = some ⟨[], .write Symbol.globalPointer .right 3⟩ := by
  rw [hf.machine_eq]
  exact hf.wiring_of_lt (by decide)

/-- The first step marks cell 0 and leads to the first entry state. -/
theorem step_initial (hf : c.Finishes p sites σ) : c.machine.step c.machine.initial.toFun =
    .ok ⟨3, Reference.initial.head, Reference.initial.tape⟩ := by
  have hblank : Tape.blank.read = fun _ => 0 := funext Tape.read_blank
  have hinit : c.machine.initial.toFun = ⟨2, 0, fun _ => 0⟩ := by
    rw [hf.machine_eq, Machine.initial, Config.toFun, hblank]
  rw [hinit, Machine.step_of_state hf.start_state 0 fun _ => 0]
  rfl

theorem reaches_initial (hf : c.Finishes p sites σ) : c.entries[0]? = some 3 ∧
    c.machine.Reaches c.machine.initial.toFun
      ⟨3, Reference.initial.head, Reference.initial.tape⟩ := by
  refine ⟨?_, 1, Machine.after_succ hf.step_initial 0⟩
  rw [hf.entries_eq]
  exact hf.evolves.entry 0 3 (Draft.opened_entry.2 ⟨rfl, rfl⟩)

/-- The machine passes the states of every reference run, from wherever it begins. -/
theorem reaches_of_steps (hf : c.Finishes p sites σ) (hv : p.violation? o = none)
    {s' : Reference.State} (hno : Unmarked s.tape) (hid : c.entries[s.position]? = some id)
    (hs : Relation.ReflTransGen (Reference.Steps p) s s') :
    Unmarked s'.tape ∧ ∃ id', c.entries[s'.position]? = some id' ∧
      c.machine.Reaches ⟨id, s.head, s.tape⟩ ⟨id', s'.head, s'.tape⟩ := by
  induction hs with
  | refl => exact ⟨hno, id, hid, .refl _ _⟩
  | tail _ hstep ih =>
    obtain ⟨hno', id', hid', hreach⟩ := ih
    have hfollows := hf.follows_step hv hno' hid'
    rw [hstep] at hfollows
    obtain ⟨id'', hid'', hreach'⟩ := hfollows
    exact ⟨Reference.unmarked_step hno' hstep, id'', hid'', hreach.trans hreach'⟩

theorem reaches_of_reachable (hf : c.Finishes p sites σ) (hv : p.violation? o = none)
    (hs : Reference.Reachable p s) : Unmarked s.tape ∧ ∃ id, c.entries[s.position]? = some id ∧
      c.machine.Reaches c.machine.initial.toFun ⟨id, s.head, s.tape⟩ := by
  obtain ⟨hentry, hstart⟩ := hf.reaches_initial
  obtain ⟨hno, id, hid, hreach⟩ := hf.reaches_of_steps (s := Reference.initial) hv
    Reference.unmarked_initial hentry (Reference.reachable_iff.1 hs)
  exact ⟨hno, id, hid, hstart.trans hreach⟩

/-- If the machine halts, the reference run has ended likewise. The induction is on the number of
steps of the machine, of which every instruction takes at least one. -/
theorem ends_of_after (hf : c.Finishes p sites σ) (hv : p.violation? o = none) {k : Nat}
    {e : Config (Int → Nat)} {v : Machine.Verdict} (hno : Unmarked s.tape)
    (hid : c.entries[s.position]? = some id)
    (he : c.machine.after k ⟨id, s.head, s.tape⟩ = .ok e)
    (hverdict : c.machine.verdict? e.state = some v) :
    ∃ s', Relation.ReflTransGen (Reference.Steps p) s s' ∧
      ((v = .accept ∧ Reference.step p s' = .leave .accept e.head e.tape) ∨
        (v = .reject ∧ Reference.step p s' = .reject)) := by
  have hm := hf.wellFormed
  have hfix : ∀ {d : Config (Int → Nat)} {v}, c.machine.verdict? d.state = some v →
      c.machine.step d = .ok d := hm.step_halted
  induction k using Nat.strong_induction_on generalizing s id with
  | _ k ih =>
    have hmeets := hf.meets_step hv hno hid
    cases hstep : Reference.step p s with
    | leave exit h t =>
      rw [hstep] at hmeets
      obtain ⟨n, hn⟩ := Machine.Leads.exists_after hmeets
      cases exit with
      | goto q =>
        have hq := hf.exists_entry (hf.entry_lt hid) ⟨_, hn⟩ rfl
        rcases Machine.after_split hn he (hfix hverdict) with rfl | ⟨j, hj, hrest⟩
        · cases (hf.verdict?_eq_none (hf.two_le_entry hq)).symm.trans hverdict
        · obtain ⟨s', hs', hend⟩ := ih j (by omega) (s := ⟨q, h, t⟩)
            (Reference.unmarked_step hno hstep) hq hrest
          have hfirst : Reference.Steps p s ⟨q, h, t⟩ := hstep
          exact ⟨s', .head hfirst hs', hend⟩
      | accept =>
        have hhalt := hf.verdict?_accept
        obtain rfl := Machine.eq_of_fixed hn (hfix hhalt) he (hfix hverdict)
        cases hhalt.symm.trans hverdict
        exact ⟨s, .refl, .inl ⟨rfl, hstep⟩⟩
    | reject =>
      rw [hstep] at hmeets
      obtain ⟨h, t, hleads⟩ := hmeets
      obtain ⟨n, hn⟩ := hleads.exists_after
      have hhalt := hf.verdict?_reject
      obtain rfl := Machine.eq_of_fixed hn (hfix hhalt) he (hfix hverdict)
      cases hhalt.symm.trans hverdict
      exact ⟨s, .refl, .inr ⟨rfl, hstep⟩⟩
    | hang =>
      have hfollows := hf.follows_step hv hno hid
      rw [hstep] at hfollows
      obtain ⟨e', he', hnone⟩ := hfollows k
      obtain rfl : e = e' := Except.ok.inj (he.symm.trans he')
      cases hnone.symm.trans hverdict

/-- A bounded run that has halted tells how the reference run ends. -/
theorem ends_of_run (hf : c.Finishes p sites σ) (hv : p.violation? o = none) {limit : Nat}
    {out : Machine.Outcome Tape} (hrun : c.machine.run limit = .ok out)
    (hhalt : out.verdict ≠ .limit) :
    (out.verdict = .accept ∧ Reference.Accepts p out.final.head out.final.tape.read) ∨
      (out.verdict = .reject ∧ Reference.Rejects p) := by
  rcases Machine.runFrom_eq_limit_or hrun with hlimit | ⟨⟨n, hn⟩, hverdict⟩
  · exact absurd hlimit hhalt
  obtain ⟨hentry, k, hk⟩ := hf.reaches_initial
  have hfinal : c.machine.after n c.machine.initial.toFun = .ok out.final.toFun := by
    rw [Machine.after_toFun, hn]
    rfl
  have hfix := hf.wellFormed.step_halted (d := out.final.toFun) hverdict
  rcases Machine.after_split hk hfinal hfix with heq | ⟨j, -, hj⟩
  · have hthree : c.machine.verdict? out.final.toFun.state = none := by
      rw [← heq]
      exact hf.verdict?_eq_none (by decide)
    cases hthree.symm.trans hverdict
  · obtain ⟨s, hs, hend⟩ := hf.ends_of_after (s := Reference.initial) hv
      Reference.unmarked_initial hentry hj hverdict
    have hs := Reference.reachable_iff.2 hs
    exact hend.imp (fun h => ⟨h.1, s, hs, h.2⟩) fun h => ⟨h.1, s, hs, h.2⟩

/-- If the reference run ends, a bounded run halts likewise. -/
theorem exists_run (hf : c.Finishes p sites σ) (hv : p.violation? o = none)
    (hs : Reference.Reachable p s) {e : Config (Int → Nat)} {v : Machine.Verdict}
    (hreach : ∀ id, c.entries[s.position]? = some id →
      c.machine.Reaches ⟨id, s.head, s.tape⟩ e)
    (hverdict : c.machine.verdict? e.state = some v) :
    ∃ limit out, c.machine.run limit = .ok out ∧ out.verdict = v ∧ out.final.toFun = e := by
  obtain ⟨-, id, hid, hstart⟩ := hf.reaches_of_reachable hv hs
  obtain ⟨n, hn⟩ := hstart.trans (hreach id hid)
  rw [Machine.after_toFun] at hn
  cases hafter : c.machine.after n c.machine.initial with
  | error fault =>
    rw [hafter] at hn
    cases hn
  | ok d =>
    rw [hafter] at hn
    obtain rfl : d.toFun = e := Except.ok.inj hn
    obtain ⟨k, hrun⟩ := Machine.runFrom_of_after (fun d v => hf.wellFormed.step_halted) hafter
      hverdict 0
    exact ⟨n, _, hrun, rfl, rfl⟩

theorem exists_run_of_accepts (hf : c.Finishes p sites σ) (hv : p.violation? o = none) {h : Int}
    {t : Int → Nat} (ha : Reference.Accepts p h t) :
    ∃ limit out, c.machine.run limit = .ok out ∧ out.verdict = .accept ∧
      out.final.toFun = ⟨Sink.accept, h, t⟩ := by
  obtain ⟨s, hs, hstep⟩ := ha
  refine hf.exists_run hv hs (fun id hid => ?_) hf.verdict?_accept
  have hfollows := hf.follows_step hv (hf.reaches_of_reachable hv hs).1 hid
  rwa [hstep] at hfollows

theorem exists_run_of_rejects (hf : c.Finishes p sites σ) (hv : p.violation? o = none)
    (hr : Reference.Rejects p) :
    ∃ limit out, c.machine.run limit = .ok out ∧ out.verdict = .reject := by
  obtain ⟨s, hs, hstep⟩ := hr
  obtain ⟨hno, id, hid, -⟩ := hf.reaches_of_reachable hv hs
  have hfollows := hf.follows_step hv hno hid
  rw [hstep] at hfollows
  obtain ⟨h, t, hreach⟩ := hfollows
  obtain ⟨limit, out, hrun, hverdict, -⟩ := hf.exists_run hv hs (e := ⟨Sink.reject, h, t⟩)
    (fun id' hid' => by cases hid.symm.trans hid'; exact hreach) hf.verdict?_reject
  exact ⟨limit, out, hrun, hverdict⟩

end Finishes

/-- The machine of a compilation does what the reference interpreter does. -/
structure Simulates (c : Compilation) (p : Program) : Prop where
  /-- From the entry state of a position, one step is one instruction. -/
  follows : ∀ (s : Reference.State) (id : Nat), Unmarked s.tape →
    c.entries[s.position]? = some id → c.Follows ⟨id, s.head, s.tape⟩ (Reference.step p s)
  /-- The machine passes every state of the reference run. -/
  reaches : ∀ s, Reference.Reachable p s → ∃ id, c.entries[s.position]? = some id ∧
    c.machine.Reaches c.machine.initial.toFun ⟨id, s.head, s.tape⟩
  /-- It accepts if and only if the reference run does, with the same head and tape. -/
  accept_iff : ∀ h t, (∃ limit out, c.machine.run limit = .ok out ∧ out.verdict = .accept ∧
    out.final.head = h ∧ out.final.tape.read = t) ↔ Reference.Accepts p h t
  /-- It rejects if and only if the reference run does. -/
  reject_iff : (∃ limit out, c.machine.run limit = .ok out ∧ out.verdict = .reject) ↔
    Reference.Rejects p
  /-- It runs for ever if and only if the reference run does. -/
  limit_iff : (∀ limit, ∃ out, c.machine.run limit = .ok out ∧ out.verdict = .limit) ↔
    Reference.Diverges p

end Compilation

/-- Every program that can be compiled is simulated by its machine. -/
theorem compile_simulates {o : Options} {p : Program} {c : Compilation}
    (h : compile o p = .ok c) : c.Simulates p := by
  obtain ⟨hv, sites, σ, hf⟩ := exists_finishes h
  refine ⟨fun s id hno hid => hf.follows_step hv hno hid,
    fun s hs => (hf.reaches_of_reachable hv hs).2, fun h t => ⟨?_, fun ha => ?_⟩,
    ⟨?_, hf.exists_run_of_rejects hv⟩, ⟨fun hlimit s hs => ?_, fun hd limit => ?_⟩⟩
  · rintro ⟨limit, out, hrun, hverdict, rfl, rfl⟩
    rcases hf.ends_of_run hv hrun (by rw [hverdict]; decide) with ⟨-, ha⟩ | ⟨hr, -⟩
    · exact ha
    · cases hverdict.symm.trans hr
  · obtain ⟨limit, out, hrun, hverdict, hfinal⟩ := hf.exists_run_of_accepts hv ha
    exact ⟨limit, out, hrun, hverdict, congrArg Config.head hfinal, congrArg Config.tape hfinal⟩
  · rintro ⟨limit, out, hrun, hverdict⟩
    rcases hf.ends_of_run hv hrun (by rw [hverdict]; decide) with ⟨ha, -⟩ | ⟨-, hr⟩
    · cases hverdict.symm.trans ha
    · exact hr
  · -- a step that ends the reference run would let the machine halt
    cases hstep : Reference.step p s with
    | leave e h t =>
      cases e with
      | goto q => exact .inl ⟨q, h, t, rfl⟩
      | accept =>
        obtain ⟨limit, out, hrun, hverdict, -⟩ := hf.exists_run_of_accepts hv ⟨s, hs, hstep⟩
        obtain ⟨out', hrun', hverdict'⟩ := hlimit limit
        cases hrun.symm.trans hrun'
        cases hverdict.symm.trans hverdict'
    | reject =>
      obtain ⟨limit, out, hrun, hverdict⟩ := hf.exists_run_of_rejects hv ⟨s, hs, hstep⟩
      obtain ⟨out', hrun', hverdict'⟩ := hlimit limit
      cases hrun.symm.trans hrun'
      cases hverdict.symm.trans hverdict'
    | hang => exact .inr rfl
  · obtain ⟨out, hrun, -⟩ := hf.wellFormed.runFrom_ok limit (c := c.machine.initial)
      hf.wellFormed.start_lt 0
    refine ⟨out, hrun, ?_⟩
    by_contra hhalt
    rcases hf.ends_of_run hv hrun hhalt with ⟨-, s, hs, hstep⟩ | ⟨-, s, hs, hstep⟩
    all_goals
      rcases hd s hs with ⟨q, h, t, hgoto⟩ | hhang
      · cases hstep.symm.trans hgoto
      · cases hstep.symm.trans hhang

theorem callOnce_simulated : ∃ c, compile {} Program.callOnce = .ok c ∧
    c.Simulates Program.callOnce := by
  obtain ⟨c, hc⟩ := callOnce_compiles
  exact ⟨c, hc, compile_simulates hc⟩

end StackTape
