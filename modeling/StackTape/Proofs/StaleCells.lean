import StackTape.Proofs.Simulation

/-!
# Cells above the stack do not count

Popping does not always clear the free cell, so in the course of a run the cells above the stack
hold what earlier values have left there. Two tapes with the `SameStack` are told apart by no
instruction (`Instruction.blind_effect`): a cell that is crossed to the right is overwritten first,
and only a return looks at the free cell, for the argument marker. Hence whether a program accepts,
and what is on its stack then, does not depend on stale cells.
-/

namespace StackTape

/-- Two tapes that agree below the free cell `h`. From it on they may differ, but not about the
places of argument markers. -/
structure SameStack (h : Int) (t u : Int → Nat) : Prop where
  below : ∀ x, x < h → t x = u x
  above : ∀ x, h ≤ x → t x = u x ∨ (t x ≠ Symbol.argPointer ∧ u x ≠ Symbol.argPointer)

namespace SameStack

variable {h h' a b : Int} {t u f g : Int → Nat}

theorem symm (hs : SameStack h t u) : SameStack h u t :=
  ⟨fun x hx => (hs.below x hx).symm, fun x hx => (hs.above x hx).imp Eq.symm And.symm⟩

theorem eq_or (hs : SameStack h t u) (x : Int) :
    t x = u x ∨ (t x ≠ Symbol.argPointer ∧ u x ≠ Symbol.argPointer) := by
  rcases lt_or_ge x h with hx | hx
  · exact .inl (hs.below x hx)
  · exact hs.above x hx

theorem argPointer_iff (hs : SameStack h t u) (x : Int) :
    t x = Symbol.argPointer ↔ u x = Symbol.argPointer := by
  rcases hs.eq_or x with heq | ⟨ht, hu⟩
  · rw [heq]
  · exact iff_of_false ht hu

theorem data_iff (hs : SameStack h t u) (hb : b ≤ h) : Data t a b ↔ Data u a b :=
  data_congr fun x _ hx => hs.below x (by omega)

theorem value_eq (hs : SameStack h t u) {n : Nat} (hb : a + n ≤ h) : value t a n = value u a n :=
  value_congr fun x _ hx => hs.below x (by omega)

theorem nearest?_eq (hs : SameStack h t u) (symbol : Nat) :
    nearest? t symbol h = nearest? u symbol h :=
  nearest?_congr fun x hx => by rw [hs.below x hx]

/-- The same cells are replaced alike, among them those that the stack gains. -/
protected theorem overlay (hs : SameStack h t u) (hfg : ∀ x, a ≤ x → x < b → f x = g x)
    (hgain : ∀ x, h ≤ x → x < h' → a ≤ x ∧ x < b) :
    SameStack h' (overlay t a b f) (overlay u a b g) := by
  refine ⟨fun x hx => ?_, fun x _ => ?_⟩
  · rw [overlay_apply, overlay_apply]
    split
    · next hab => exact hfg x hab.1 hab.2
    · next hab => exact hs.below x (Int.not_le.1 fun hle => hab (hgain x hle hx))
  · rw [overlay_apply, overlay_apply]
    split
    · next hab => exact .inl (hfg x hab.1 hab.2)
    · exact hs.eq_or x

/-- The same cells are replaced alike, and the head stays. -/
theorem overlay_below (hs : SameStack h t u) (hfg : ∀ x, a ≤ x → x < b → f x = g x) :
    SameStack h (overlay t a b f) (overlay u a b g) :=
  hs.overlay hfg fun _ hle hlt => absurd hlt (Int.not_lt.2 hle)

/-- One cell is written alike, the one that the stack gains if it gains any. -/
protected theorem update (hs : SameStack h t u) (c : Int) (v : Nat)
    (hgain : ∀ x, h ≤ x → x < h' → x = c) :
    SameStack h' (Function.update t c v) (Function.update u c v) := by
  refine ⟨fun x hx => ?_, fun x _ => ?_⟩
  · rw [Function.update_apply, Function.update_apply]
    split
    · rfl
    · next hne => exact hs.below x (Int.not_le.1 fun hle => hne (hgain x hle hx))
  · rw [Function.update_apply, Function.update_apply]
    split
    · exact .inl rfl
    · exact hs.eq_or x

protected theorem copyBytes {src : Int} (hs : SameStack h t u) (hsrc : src < h) (n : Nat) :
    SameStack (h + n) (copyBytes t src h n) (copyBytes u src h n) := by
  induction n with
  | zero =>
    rw [Nat.cast_zero, add_zero]
    exact hs
  | succ n ih =>
    rw [copyBytes, copyBytes, ih.below (src + n) (by omega)]
    refine ih.update _ _ fun x hle hlt => ?_
    push_cast at hlt
    omega

protected theorem popBytes (hs : SameStack h t u) (dst : Nat → Int) (n : Nat) :
    SameStack (h - n) (popBytes t dst h n) (popBytes u dst h n) := by
  induction n with
  | zero =>
    rw [Nat.cast_zero, sub_zero]
    exact hs
  | succ n ih =>
    rw [popBytes, popBytes, ih.below (h - n - 1) (by omega)]
    have hkeep : ∀ {k c : Int}, ∀ x, k ≤ x → x < k → x = c := fun x hle hlt => by omega
    refine ((ih.update _ _ hkeep).update _ _ hkeep).update _ _ fun x hle hlt => ?_
    push_cast at hlt
    omega

end SameStack

/-! ## Actions that do not look above the stack -/

/-- Two endings that are the same up to stale cells. Rejection and going on for ever count as one:
neither leads to acceptance. -/
def Ending.Alike {ε : Type} : Ending ε → Ending ε → Prop
  | .leave e h t, .leave e' h' u => e = e' ∧ h = h' ∧ SameStack h t u
  | .leave .., _ => False
  | _, .leave .. => False
  | _, _ => True

theorem Ending.alike_ite {ε : Type} {c c' : Prop} [Decidable c] [Decidable c'] {r s : Ending ε}
    (hc : c ↔ c') (h : c → Alike r s) :
    Alike (if c then r else .reject) (if c' then s else .reject) := by
  by_cases hx : c
  · rw [if_pos hx, if_pos (hc.1 hx)]
    exact h hx
  · rw [if_neg hx, if_neg fun hx' => hx (hc.2 hx')]
    trivial

/-- An action that does the same on tapes with the same stack. -/
def Action.Blind {ε : Type} (a : Action ε) : Prop :=
  ∀ h t u, SameStack h t u → (a h t).Alike (a h u)

namespace Action

variable {α β : Type}

theorem blind_pure (e : α) : Blind (pure e : Action α) := fun _ _ _ hs => ⟨rfl, rfl, hs⟩

theorem blind_reject : Blind (fun _ _ => .reject : Action α) := fun _ _ _ _ => trivial

theorem Blind.bind {a : Action α} {f : α → Action β} (ha : Blind a) (hf : ∀ e, Blind (f e)) :
    Blind (a >>= f) := by
  intro h t u hs
  have hax := ha h t u hs
  rw [bind_apply, bind_apply]
  cases ht : a h t with
  | leave e h' t' =>
    rw [ht] at hax
    cases hu : a h u with
    | leave e' h'' u' =>
      rw [hu] at hax
      obtain ⟨rfl, rfl, hs'⟩ := hax
      exact hf e h' t' u' hs'
    | reject | hang =>
      rw [hu] at hax
      exact hax.elim
  | reject | hang =>
    rw [ht] at hax
    cases hu : a h u with
    | leave e' h'' u' =>
      rw [hu] at hax
      exact hax.elim
    | reject | hang => trivial

end Action

namespace Reference

open Ending

theorem blind_load (w : Width) (marker offset : Nat) : Action.Blind (load w marker offset) := by
  intro h t u hs
  rw [load, load, hs.nearest?_eq]
  cases nearest? u marker h with
  | none => trivial
  | some m =>
    dsimp only
    by_cases hsrc : m + 1 + offset < h
    · rw [if_pos hsrc, if_pos hsrc]
      refine alike_ite (forall₂_congr fun j _ => ?_) fun _ => ⟨rfl, rfl, hs.copyBytes hsrc _⟩
      rw [(hs.copyBytes hsrc j).below _ (by omega)]
    · -- beyond the stack an access ends one way or the other, but does not go on
      rw [if_neg hsrc, if_neg hsrc]
      split <;> split <;> trivial

theorem blind_store (w : Width) (marker offset : Nat) : Action.Blind (store w marker offset) := by
  intro h t u hs
  rw [store, store, hs.nearest?_eq, hs.below (h - 1) (by omega)]
  refine alike_ite .rfl fun _ => ?_
  cases nearest? u marker h with
  | none => trivial
  | some m =>
    dsimp only
    split
    · refine alike_ite (forall₂_congr fun j _ => ?_) fun _ => ⟨rfl, rfl, hs.popBytes _ _⟩
      rw [(hs.popBytes _ j).below _ (by omega)]
    · trivial

theorem blind_popIndex (bound : Nat) : Action.Blind (popIndex bound) := by
  intro h t u hs
  have hvalue : value t (h - 4) 4 = value u (h - 4) 4 := hs.value_eq (by omega)
  rw [popIndex, popIndex, hvalue]
  refine alike_ite (and_congr_left fun _ => hs.data_iff le_rfl) fun _ => ⟨rfl, rfl, ?_⟩
  exact hs.overlay (fun _ _ _ => rfl) fun x hle hlt => by omega

theorem blind_popFlag : Action.Blind popFlag := by
  intro h t u hs
  rw [popFlag, popFlag, hs.below (h - 1) (by omega)]
  refine alike_ite .rfl fun _ => ⟨rfl, rfl, ?_⟩
  exact hs.update _ _ fun x hle hlt => by omega

theorem blind_call (id : Nat) : Action.Blind (call id) := by
  intro h t u hs
  rw [call, call, hs.nearest?_eq]
  cases hn : nearest? u Symbol.argPointer h with
  | none => trivial
  | some a =>
    have hah := (nearest?_eq_some_iff.1 hn).lt
    refine alike_ite (hs.data_iff le_rfl) fun _ => ⟨rfl, rfl, ?_⟩
    refine hs.overlay (fun x _ hx => ?_) fun x hle hlt => by omega
    rw [hs.below (x - 2) (by omega)]

/-- A return looks at the free cell, where the two tapes agree about the argument marker. -/
theorem blind_ret : Action.Blind ret := by
  intro h t u hs
  have hnear : nearest? t Symbol.argPointer (h + 1) = nearest? u Symbol.argPointer (h + 1) :=
    nearest?_congr fun x _ => hs.argPointer_iff x
  rw [ret, ret, hnear]
  cases hn : nearest? u Symbol.argPointer (h + 1) with
  | none => trivial
  | some a =>
    have hah := (nearest?_eq_some_iff.1 hn).lt
    refine alike_ite (hs.data_iff (by omega)) fun _ => ⟨?_, rfl, ?_⟩
    · exact hs.value_eq (by omega)
    · exact hs.overlay (fun _ _ _ => rfl) fun x hle hlt => by omega

theorem blind_setReturn (w : Width) : Action.Blind (setReturn w) := by
  intro h t u hs
  rw [setReturn, setReturn, hs.nearest?_eq, hs.below (h - 1) (by omega)]
  refine alike_ite .rfl fun _ => ?_
  cases hn : nearest? u Symbol.argPointer h with
  | none => trivial
  | some a =>
    refine alike_ite (hs.data_iff le_rfl) fun _ => ⟨rfl, rfl, ?_⟩
    have hclear : SameStack (h - w.bytes) (overlay t (h - w.bytes) (h + 1) fun _ => 0)
        (overlay u (h - w.bytes) (h + 1) fun _ => 0) :=
      hs.overlay (fun _ _ _ => rfl) fun x hle hlt => by omega
    refine hclear.overlay (fun x _ hx => ?_) fun x hle hlt => by omega
    exact hs.below _ (by omega)

end Reference

open Reference in
/-- No instruction tells apart two tapes with the same stack. -/
theorem Instruction.blind_effect (p : Program) (position : Nat) (i : Instruction) :
    Action.Blind (i.effect p position) := by
  have hnext : ∀ {a : Action Unit}, a.Blind → Action.Blind (effect.next position a) :=
    fun ha => ha.bind fun _ => Action.blind_pure _
  obtain ⟨opcode, operand1, operand2, target⟩ := i
  cases opcode with
  | push w | pop w | alloc | free =>
    refine hnext fun h t u hs => ⟨rfl, rfl, hs.overlay (fun _ _ _ => rfl) fun x hle hlt => ?_⟩
    omega
  | enter =>
    refine hnext fun h t u hs => ⟨rfl, rfl, hs.update _ _ fun x hle hlt => ?_⟩
    omega
  | dup w =>
    refine hnext fun h t u hs => Ending.alike_ite (hs.data_iff le_rfl) fun _ => ⟨rfl, rfl, ?_⟩
    exact hs.overlay (fun x _ hx => hs.below _ (by omega)) fun x hle hlt => by omega
  | swap w =>
    refine hnext fun h t u hs => Ending.alike_ite
      (and_congr (hs.data_iff le_rfl) (hs.data_iff (by omega))) fun _ => ⟨rfl, rfl, ?_⟩
    refine (hs.overlay_below fun x _ hx => hs.below _ (by omega)).overlay_below
      fun x _ hx => hs.below _ ?_
    push_cast at hx ⊢
    omega
  | makeArgs =>
    refine hnext fun h t u hs => Ending.alike_ite (hs.data_iff le_rfl) fun _ => ⟨rfl, rfl, ?_⟩
    refine hs.overlay (fun x _ hx => ?_) fun x hle hlt => by omega
    rw [hs.below (x - 1) (by omega)]
  | binary op w =>
    refine hnext fun h t u hs => Ending.alike_ite (hs.data_iff le_rfl) fun _ => ⟨rfl, rfl, ?_⟩
    have hlower : value t (h - (2 * w.bytes : Nat)) w.bytes =
        value u (h - (2 * w.bytes : Nat)) w.bytes := hs.value_eq (by push_cast; omega)
    have htop : value t (h - w.bytes) w.bytes = value u (h - w.bytes) w.bytes :=
      hs.value_eq (by omega)
    rw [hlower, htop]
    exact (hs.overlay_below fun _ _ _ => rfl).overlay (fun _ _ _ => rfl) fun x hle hlt => by omega
  | indexShift =>
    refine hnext fun h t u hs => Ending.alike_ite (hs.data_iff le_rfl) fun _ => ⟨rfl, rfl, ?_⟩
    have hvalue : value t (h - 4) 4 = value u (h - 4) 4 := hs.value_eq (by omega)
    rw [hvalue]
    exact hs.overlay (fun _ _ _ => rfl) fun x hle hlt => by omega
  | load f w => exact hnext (blind_load w f.marker operand1)
  | loadIndirect f w => exact hnext ((blind_popIndex _).bind fun _ => blind_load w f.marker _)
  | store f w => exact hnext (blind_store w f.marker operand1)
  | storeIndirect f w => exact hnext ((blind_popIndex _).bind fun _ => blind_store w f.marker _)
  | setReturn w => exact hnext (blind_setReturn w)
  | jump | accept => exact Action.blind_pure _
  | jumpIfZero | jumpIfNonzero => exact blind_popFlag.bind fun _ => Action.blind_pure _
  | call => exact (blind_call _).bind fun _ => Action.blind_pure _
  | ret =>
    refine blind_ret.bind fun id => ?_
    split
    · exact Action.blind_pure _
    · exact Action.blind_reject
  | reject => exact Action.blind_reject

/-! ## Runs -/

namespace Reference

variable {p : Program} {s s' r : State}

/-- A step from one of two states with the same stack can be taken from the other one. -/
theorem alike_step (hs : SameStack s.head s.tape r.tape) (hp : r.position = s.position)
    (hh : r.head = s.head) : (step p s).Alike (step p r) := by
  unfold step
  rw [hp, hh]
  cases p[s.position]? with
  | some i => exact i.blind_effect p s.position s.head s.tape r.tape hs
  | none => trivial

theorem exists_step {e : Exit} {h : Int} {t : Int → Nat}
    (hs : SameStack s.head s.tape r.tape) (hp : r.position = s.position) (hh : r.head = s.head)
    (hstep : step p s = .leave e h t) :
    ∃ u, step p r = .leave e h u ∧ SameStack h t u := by
  have halike := alike_step (p := p) hs hp hh
  rw [hstep] at halike
  cases hr : step p r with
  | leave e' h' u =>
    rw [hr] at halike
    obtain ⟨rfl, rfl, hu⟩ := halike
    exact ⟨u, rfl, hu⟩
  | reject | hang =>
    rw [hr] at halike
    exact halike.elim

/-- A run from one of two states with the same stack is matched by a run from the other one. -/
theorem exists_steps (hs : SameStack s.head s.tape r.tape) (hp : r.position = s.position)
    (hh : r.head = s.head) (hrun : Relation.ReflTransGen (Steps p) s s') :
    ∃ r', Relation.ReflTransGen (Steps p) r r' ∧ SameStack s'.head s'.tape r'.tape ∧
      r'.position = s'.position ∧ r'.head = s'.head := by
  induction hrun with
  | refl => exact ⟨r, .refl, hs, hp, hh⟩
  | tail _ hstep ih =>
    obtain ⟨r', hrun', hs', hp', hh'⟩ := ih
    obtain ⟨u, hstep', hu⟩ := exists_step hs' hp' hh' hstep
    have hlast : Steps p r' ⟨_, _, u⟩ := hstep'
    exact ⟨_, hrun'.tail hlast, hu, rfl, rfl⟩

end Reference

/-- A bounded run from the first configuration ends in the second one, with the verdict. -/
def Machine.HaltsIn (m : Machine) (v : Machine.Verdict) (d e : Config (Int → Nat)) : Prop :=
  ∃ limit steps, m.runFrom limit d 0 = .ok ⟨v, e, steps⟩

/-- A halting state that is reached ends the run. -/
theorem Machine.WellFormed.haltsIn {m : Machine} (hm : m.WellFormed) {d e : Config (Int → Nat)}
    {v : Machine.Verdict} (hr : m.Reaches d e) (hv : m.verdict? e.state = some v) :
    m.HaltsIn v d e := by
  obtain ⟨n, hn⟩ := hr
  obtain ⟨k, hrun⟩ := Machine.runFrom_of_after (fun d v => hm.step_halted) hn hv 0
  exact ⟨n, k, hrun⟩

namespace Compilation.Finishes

variable {c : Compilation} {p : Program} {sites : CallSites} {σ : Stage} {o : Options}
  {q id : Nat} {h h' : Int} {t t' u : Int → Nat}

theorem haltsIn_accept_iff (hf : c.Finishes p sites σ) {d e : Config (Int → Nat)} :
    c.machine.HaltsIn .accept d e ↔ e.state = Sink.accept ∧ c.machine.Reaches d e := by
  constructor
  · rintro ⟨limit, steps, hrun⟩
    rcases Machine.runFrom_eq_limit_or hrun with hlimit | ⟨hreach, hverdict⟩
    · cases hlimit
    · refine ⟨?_, hreach⟩
      have heq : e.state = c.machine.accept := by
        unfold Machine.verdict? at hverdict
        split at hverdict
        · assumption
        · split at hverdict <;> cases hverdict
      rw [heq, hf.wellFormed.accept_eq]
  · rintro ⟨hstate, hreach⟩
    refine hf.wellFormed.haltsIn hreach ?_
    rw [hstate]
    exact hf.verdict?_accept

/-- A run ends in one configuration at most. -/
theorem haltsIn_unique (hf : c.Finishes p sites σ) {d e e' : Config (Int → Nat)}
    (he : c.machine.HaltsIn .accept d e) (he' : c.machine.HaltsIn .accept d e') : e = e' := by
  obtain ⟨hstate, n, hn⟩ := hf.haltsIn_accept_iff.1 he
  obtain ⟨hstate', n', hn'⟩ := hf.haltsIn_accept_iff.1 he'
  have hfix : ∀ {e : Config (Int → Nat)}, e.state = Sink.accept → c.machine.step e = .ok e :=
    fun h => hf.wellFormed.step_halted (v := .accept) (by rw [h]; exact hf.verdict?_accept)
  exact Machine.eq_of_fixed hn (hfix hstate) hn' (hfix hstate')

/-- Acceptance on one tape is acceptance on every tape with the same stack. -/
theorem exists_haltsIn (hf : c.Finishes p sites σ) (hv : p.violation? o = none)
    (hid : c.entries[q]? = some id) (ht : Unmarked t) (hu : Unmarked u) (hs : SameStack h t u)
    {d : Config (Int → Nat)} (hd : c.machine.HaltsIn .accept ⟨id, h, t⟩ d) :
    ∃ e, c.machine.HaltsIn .accept ⟨id, h, u⟩ e ∧ d.head = e.head ∧
      ∀ x, x < d.head → d.tape x = e.tape x := by
  obtain ⟨hstate, n, hn⟩ := hf.haltsIn_accept_iff.1 hd
  have hverdict : c.machine.verdict? d.state = some .accept := by
    rw [hstate]
    exact hf.verdict?_accept
  obtain ⟨s', hsteps, hend⟩ := hf.ends_of_after (s := ⟨q, h, t⟩) hv ht hid hn hverdict
  obtain ⟨-, haccept⟩ := hend.resolve_right fun hr => by cases hr.1
  -- the same instructions, on the other tape
  obtain ⟨r', hsteps', hs', hp', hh'⟩ :=
    Reference.exists_steps (s := ⟨q, h, t⟩) (r := ⟨q, h, u⟩) hs rfl rfl hsteps
  obtain ⟨u', haccept', hsame⟩ := Reference.exists_step hs' hp' hh' haccept
  obtain ⟨hu', id', hid', hreach⟩ := hf.reaches_of_steps (s := ⟨q, h, u⟩) hv hu hid hsteps'
  have hfollows := hf.follows_step hv hu' hid'
  rw [haccept'] at hfollows
  exact ⟨⟨Sink.accept, d.head, u'⟩, hf.haltsIn_accept_iff.2 ⟨rfl, hreach.trans hfollows⟩, rfl,
    hsame.below⟩

end Compilation.Finishes

/-- Stale cells are not observed. Take two configurations in the entry state of a position, with the
same head and tapes that have the same stack below it, may differ above it but not in the places of
argument markers, and hold no bookmark. The run from one of them accepts if and only if the run from
the other one does, and then both end with the same head and the same stack. -/
theorem compile_ignores_staleCells {o : Options} {p : Program} {c : Compilation}
    (hc : compile o p = .ok c) {q id : Nat} (hid : c.entries[q]? = some id) {h : Int}
    {t u : Int → Nat} (ht : Unmarked t) (hu : Unmarked u) (hs : SameStack h t u) :
    ((∃ d, c.machine.HaltsIn .accept ⟨id, h, t⟩ d) ↔
      ∃ e, c.machine.HaltsIn .accept ⟨id, h, u⟩ e) ∧
    ∀ d e, c.machine.HaltsIn .accept ⟨id, h, t⟩ d → c.machine.HaltsIn .accept ⟨id, h, u⟩ e →
      d.head = e.head ∧ ∀ x, x < d.head → d.tape x = e.tape x := by
  obtain ⟨hv, sites, σ, hf⟩ := exists_finishes hc
  refine ⟨⟨?_, ?_⟩, fun d e hd he => ?_⟩
  · rintro ⟨d, hd⟩
    obtain ⟨e, he, -⟩ := hf.exists_haltsIn hv hid ht hu hs hd
    exact ⟨e, he⟩
  · rintro ⟨e, he⟩
    obtain ⟨d, hd, -⟩ := hf.exists_haltsIn hv hid hu ht hs.symm he
    exact ⟨d, hd⟩
  · obtain ⟨e', he', hsame⟩ := hf.exists_haltsIn hv hid ht hu hs hd
    rwa [hf.haltsIn_unique he he']

/-- The tape when the procedure of `Program.callOnce` has been called and the cell 4 is free: the id
of the call, the marker, and the argument. -/
def calledTape : Int → Nat :=
  Function.update (Function.update (fun _ => 0) 2 Symbol.argPointer) 3 7

theorem calledTape_returns :
    Reference.step Program.callOnce ⟨4, 4, calledTape⟩ =
      .leave (.goto 3) 0 (overlay calledTape 0 5 fun _ => 0) := by
  have hn : IsNearest calledTape Symbol.argPointer 5 2 := by
    refine ⟨by decide, rfl, fun x hx hx' => ?_⟩
    rw [calledTape, Function.update_apply, Function.update_of_ne (by omega)]
    split <;> decide
  have hret : Reference.ret 4 calledTape = .leave 0 0 (overlay calledTape 0 5 fun _ => 0) := by
    have hnearest : nearest? calledTape Symbol.argPointer (4 + 1) = some 2 :=
      nearest?_eq_some_iff.2 hn
    have hdata : Data calledTape (2 - 2) 2 := by decide
    rw [Reference.ret, hnearest]
    simp only [if_pos hdata]
    rfl
  exact Action.bind_apply_of_leave hret

/-- The procedure returns to its caller across a free cell that is stale. -/
theorem callOnce_ignores_staleCell : ∃ c id, compile {} Program.callOnce = .ok c ∧
    c.entries[4]? = some id ∧ (∃ d, c.machine.HaltsIn .accept ⟨id, 4, calledTape⟩ d) ∧
      ∃ e, c.machine.HaltsIn .accept ⟨id, 4, Function.update calledTape 4 9⟩ e ∧ e.head = 0 := by
  obtain ⟨c, hc⟩ := callOnce_compiles
  obtain ⟨hv, sites, σ, hf⟩ := exists_finishes hc
  obtain ⟨id, hσ⟩ := hf.ready.entered 4 (by decide)
  have hid : c.entries[4]? = some id := hf.completes.entry 4 id hσ
  have ht : Unmarked calledTape := by
    refine unmarked_update (unmarked_update (fun _ => ?_) ?_) ?_ <;> decide
  have hs : SameStack 4 calledTape (Function.update calledTape 4 9) := by
    refine ⟨fun x hx => ?_, fun x _ => ?_⟩
    · rw [Function.update_of_ne (by omega)]
    · rw [Function.update_apply]
      split
      · next heq =>
        rw [heq]
        exact .inr (by decide)
      · exact .inl rfl
  have hd : c.machine.HaltsIn .accept ⟨id, 4, calledTape⟩
      ⟨Sink.accept, 0, overlay calledTape 0 5 fun _ => 0⟩ := by
    have hsteps : Reference.Steps Program.callOnce ⟨4, 4, calledTape⟩
        ⟨3, 0, overlay calledTape 0 5 fun _ => 0⟩ := calledTape_returns
    obtain ⟨hno, id', hid', hreach⟩ :=
      hf.reaches_of_steps (s := ⟨4, 4, calledTape⟩) hv ht hid (.single hsteps)
    exact hf.haltsIn_accept_iff.2 ⟨rfl, hreach.trans (hf.follows_step hv hno hid')⟩
  obtain ⟨hiff, hsame⟩ :=
    compile_ignores_staleCells hc hid ht (unmarked_update ht (by decide)) hs
  obtain ⟨e, he⟩ := hiff.1 ⟨_, hd⟩
  exact ⟨c, id, hc, hid, ⟨_, hd⟩, e, he, (hsame _ e hd he).1.symm⟩

end StackTape
