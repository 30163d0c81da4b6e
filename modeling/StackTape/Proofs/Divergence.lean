import StackTape.Proofs.CallReturn
import StackTape.Proofs.Placement

/-!
# Instructions that never end

A tape has no ends, so a search for a marker that is not there goes on for ever. The same happens to
the way back to a bookmark that has been passed or overwritten: a load whose byte lies above the
free cell never comes back, and neither does a store whose byte is put down on its bookmark or above
it.
`Instruction.Ends` says of every instruction on which tapes this does not happen, and
`compile_ends_iff` that the machine does just that: it gets to a sink or to a control successor if
the instruction ends, and otherwise it neither halts nor comes to the entry state of any position
again. A return looks for its marker in its own entry state, so it stays there.
-/

namespace StackTape

variable {t : Int → Nat} {h m : Int} {symbol marker offset bound : Nat}

/-! ## When an instruction ends -/

/-- A load finds its marker, and it does not take a byte from above the free cell. -/
def LoadEnds (marker offset : Nat) (h : Int) (t : Int → Nat) : Prop :=
  ∃ m, IsNearest t marker h m ∧ ¬(h < m + 1 + offset ∧ t (m + 1 + offset) < 256)

/-- A store of `n` bytes has no byte to put down, or it finds its marker and the last byte of the
variable lies below the byte that is put there. -/
def StoreEnds (n marker offset : Nat) (h : Int) (t : Int → Nat) : Prop :=
  ¬t (h - 1) < 256 ∨ ∃ m, IsNearest t marker h m ∧ m + offset + n ≤ h - 2

/-- An indirect access has no index below `bound`, or the direct access for its index ends from
where the index has been popped. -/
def IndirectEnds (bound : Nat) (direct : Nat → Int → (Int → Nat) → Prop) (h : Int)
    (t : Int → Nat) : Prop :=
  ¬Data t (h - 4) h ∨ bound ≤ value t (h - 4) 4 ∨
    direct (value t (h - 4) 4) (h - 4) (overlay t (h - 4) (h + 1) fun _ => 0)

/-- The instruction ends, with the free cell and the tape as given. -/
def Instruction.Ends (i : Instruction) (h : Int) (t : Int → Nat) : Prop :=
  match i.opcode with
  | .load f _ => LoadEnds f.marker i.operand1 h t
  | .loadIndirect f _ =>
    IndirectEnds i.operand2 (fun index => LoadEnds f.marker (i.operand1 + index)) h t
  | .store f w => StoreEnds w.bytes f.marker i.operand1 h t
  | .storeIndirect f w =>
    IndirectEnds i.operand2 (fun index => StoreEnds w.bytes f.marker (i.operand1 + index)) h t
  | .setReturn _ => ¬t (h - 1) < 256 ∨ ∃ x, x < h ∧ t x = Symbol.argPointer
  | .call => ∃ x, x < h ∧ t x = Symbol.argPointer
  | .ret => ∃ x, x ≤ h ∧ t x = Symbol.argPointer
  | .push _ | .pop _ | .dup _ | .swap _ | .enter | .alloc | .free | .makeArgs | .binary _ _
  | .indexShift | .jump | .jumpIfZero | .jumpIfNonzero | .accept | .reject => True

/-! ## The reference interpreter -/

theorem IsNearest.exists_iff (hn : IsNearest t symbol h m) {P : Int → Prop} :
    (∃ m', IsNearest t symbol h m' ∧ P m') ↔ P m := by
  constructor
  · rintro ⟨m', hm', hP⟩
    rwa [hn.unique hm']
  · intro hP
    exact ⟨m, hn, hP⟩

theorem nearest?_eq_none_iff_not_exists :
    nearest? t symbol h = none ↔ ¬∃ x, x < h ∧ t x = symbol := by
  simp only [nearest?_eq_none_iff, not_exists, not_and, ne_eq]

theorem not_exists_isNearest (hn : nearest? t symbol h = none) {P : Int → Prop} :
    ¬∃ m, IsNearest t symbol h m ∧ P m := by
  rintro ⟨m, hm, -⟩
  exact nearest?_eq_none_iff.1 hn m hm.lt hm.holds

namespace Reference

theorem load_eq_hang_iff (w : Width) :
    load w marker offset h t = .hang ↔ ¬LoadEnds marker offset h t := by
  unfold load LoadEnds
  cases hn : nearest? t marker h with
  | none => exact iff_of_true rfl (not_exists_isNearest hn)
  | some m =>
    rw [(nearest?_eq_some_iff.1 hn).exists_iff, not_not]
    dsimp only
    by_cases hlt : m + 1 + offset < h
    · rw [if_pos hlt]
      refine iff_of_false ?_ (by omega)
      split <;> simp
    · rw [if_neg hlt]
      split
      · next hx => exact iff_of_true rfl ⟨by omega, hx.1⟩
      · next hx => exact iff_of_false (by simp) fun hc => hx ⟨hc.2, by omega⟩

theorem store_eq_hang_iff (w : Width) :
    store w marker offset h t = .hang ↔ ¬StoreEnds w.bytes marker offset h t := by
  unfold store StoreEnds
  by_cases hb : t (h - 1) < 256
  swap
  · rw [if_neg hb]
    exact iff_of_false (by simp) (not_not_intro (.inl hb))
  rw [if_pos hb, or_iff_right (not_not_intro hb)]
  cases hn : nearest? t marker h with
  | none => exact iff_of_true rfl (not_exists_isNearest hn)
  | some m =>
    rw [(nearest?_eq_some_iff.1 hn).exists_iff]
    dsimp only
    by_cases hlt : m + offset + w.bytes < h - 1
    · rw [if_pos hlt]
      refine iff_of_false ?_ (by omega)
      split <;> simp
    · rw [if_neg hlt]
      exact iff_of_true rfl (by omega)

theorem setReturn_eq_hang_iff (w : Width) : setReturn w h t = .hang ↔
    ¬(¬t (h - 1) < 256 ∨ ∃ x, x < h ∧ t x = Symbol.argPointer) := by
  unfold setReturn
  by_cases hb : t (h - 1) < 256
  swap
  · rw [if_neg hb]
    exact iff_of_false (by simp) (not_not_intro (.inl hb))
  rw [if_pos hb, or_iff_right (not_not_intro hb), ← nearest?_eq_none_iff_not_exists]
  cases nearest? t Symbol.argPointer h with
  | none => simp
  | some a =>
    dsimp only
    split <;> simp

theorem call_eq_hang_iff (id : Nat) :
    call id h t = .hang ↔ ¬∃ x, x < h ∧ t x = Symbol.argPointer := by
  unfold call
  rw [← nearest?_eq_none_iff_not_exists]
  cases nearest? t Symbol.argPointer h with
  | none => simp
  | some a =>
    dsimp only
    split <;> simp

theorem ret_eq_hang_iff : ret h t = .hang ↔ ¬∃ x, x ≤ h ∧ t x = Symbol.argPointer := by
  unfold ret
  simp only [← Int.lt_add_one_iff]
  rw [← nearest?_eq_none_iff_not_exists]
  cases nearest? t Symbol.argPointer (h + 1) with
  | none => simp
  | some a =>
    dsimp only
    split <;> simp

theorem popIndex_bind_eq_hang_iff {access : Nat → Action Unit}
    {direct : Nat → Int → (Int → Nat) → Prop}
    (hd : ∀ index h t, access index h t = .hang ↔ ¬direct index h t) :
    (popIndex bound >>= access) h t = .hang ↔ ¬IndirectEnds bound direct h t := by
  unfold IndirectEnds
  rw [Action.bind_apply, popIndex]
  by_cases hx : Data t (h - 4) h ∧ value t (h - 4) 4 < bound
  · rw [if_pos hx]
    dsimp only
    rw [hd, or_iff_right (not_not_intro hx.1), or_iff_right (Nat.not_le.2 hx.2)]
  · rw [if_neg hx]
    refine iff_of_false (by simp) ?_
    rw [not_and_or, Nat.not_lt] at hx
    tauto

end Reference

/-! ## Instructions -/

theorem Action.bind_pure_eq_hang_iff {α β : Type} {a : Action α} {f : α → β} :
    (a >>= fun e => pure (f e)) h t = .hang ↔ a h t = .hang := by
  rw [bind_apply]
  cases a h t with
  | leave e h' t' => simp
  | reject | hang => simp

theorem Action.exists_of_bind_eq_leave {α β : Type} {a : Action α} {f : α → Action β} {e : β}
    {h' : Int} {t' : Int → Nat} (hb : (a >>= f) h t = .leave e h' t') :
    ∃ e₁ h₁ t₁, a h t = .leave e₁ h₁ t₁ ∧ f e₁ h₁ t₁ = .leave e h' t' := by
  rw [bind_apply] at hb
  cases ha : a h t with
  | leave e₁ h₁ t₁ =>
    rw [ha] at hb
    exact ⟨e₁, h₁, t₁, rfl, hb⟩
  | reject | hang =>
    rw [ha] at hb
    cases hb

namespace Instruction

variable {p : Program} {position : Nat} {i : Instruction}

theorem effect_eq_hang_iff : i.effect p position h t = .hang ↔ ¬i.Ends h t := by
  have hnext : ∀ {a : Action Unit} {P : Prop}, (a h t = .hang ↔ ¬P) →
      (effect.next position a h t = .hang ↔ ¬P) :=
    fun ha => Action.bind_pure_eq_hang_iff.trans ha
  obtain ⟨opcode, operand1, operand2, target⟩ := i
  cases opcode with
  | push w | pop w | enter | alloc | free =>
    exact hnext (iff_of_false (by simp) (not_not_intro trivial))
  | dup w | swap w | makeArgs | binary op w | indexShift =>
    refine hnext (iff_of_false ?_ (not_not_intro trivial))
    split <;> simp
  | jump | accept | reject => exact iff_of_false (by simp [effect]) (not_not_intro trivial)
  | jumpIfZero | jumpIfNonzero =>
    refine Action.bind_pure_eq_hang_iff.trans (iff_of_false ?_ (not_not_intro trivial))
    unfold Reference.popFlag
    split <;> simp
  | load f w => exact hnext (Reference.load_eq_hang_iff w)
  | store f w => exact hnext (Reference.store_eq_hang_iff w)
  | loadIndirect f w =>
    exact hnext (Reference.popIndex_bind_eq_hang_iff fun _ _ _ => Reference.load_eq_hang_iff w)
  | storeIndirect f w =>
    exact hnext (Reference.popIndex_bind_eq_hang_iff fun _ _ _ => Reference.store_eq_hang_iff w)
  | setReturn w => exact hnext (Reference.setReturn_eq_hang_iff w)
  | call => exact Action.bind_pure_eq_hang_iff.trans (Reference.call_eq_hang_iff _)
  | ret =>
    refine Iff.trans ?_ Reference.ret_eq_hang_iff
    simp only [effect, Action.bind_apply]
    cases Reference.ret h t with
    | leave id h' t' =>
      dsimp only
      cases p.returnAddresses[id]? <;> simp
    | reject | hang => simp

/-- An instruction hands over to its control successors only. -/
theorem successor_of_effect (hi : p[position]? = some i) {q : Nat} {h' : Int} {t' : Int → Nat}
    (he : i.effect p position h t = .leave (.goto q) h' t') : p.Successor position q := by
  have hnext : ∀ {a : Action Unit}, effect.next position a h t = .leave (.goto q) h' t' →
      q = position + 1 := by
    intro a ha
    obtain ⟨_, _, _, -, hpure⟩ := Action.exists_of_bind_eq_leave ha
    cases hpure
    rfl
  refine ⟨i, hi, ?_⟩
  obtain ⟨opcode, operand1, operand2, target⟩ := i
  cases opcode with
  | jump =>
    cases he
    rfl
  | call =>
    obtain ⟨_, _, _, -, hpure⟩ := Action.exists_of_bind_eq_leave he
    cases hpure
    rfl
  | jumpIfZero | jumpIfNonzero =>
    obtain ⟨zero, _, _, -, hpure⟩ := Action.exists_of_bind_eq_leave he
    cases hpure
    cases zero <;> simp
  | ret =>
    obtain ⟨id, _, _, -, hgo⟩ := Action.exists_of_bind_eq_leave he
    cases hr : p.returnAddresses[id]? with
    | none => simp only [hr, reduceCtorEq] at hgo
    | some r =>
      simp only [hr] at hgo
      cases hgo
      exact Program.exists_call_of_mem (List.mem_of_getElem? hr)
  | accept | reject => cases he
  | _ => exact hnext he

end Instruction

/-! ## The machine -/

namespace Compilation

/-- From the entry state of position `j` the machine gets, in at least one step, to a sink or to the
entry state of a control successor. -/
def GoesOn (c : Compilation) (p : Program) (j : Nat) (h : Int) (t : Int → Nat) : Prop :=
  ∃ s n e, c.entries[j]? = some s ∧ c.machine.after (n + 1) ⟨s, h, t⟩ = .ok e ∧
    (e.state = c.machine.accept ∨ e.state = c.machine.reject ∨
      ∃ q, p.Successor j q ∧ c.entries[q]? = some e.state)

/-- From the entry state of position `j` the machine goes on for ever, and it never comes to a sink
nor again to the entry state of a position. -/
def RunsAway (c : Compilation) (j : Nat) (h : Int) (t : Int → Nat) : Prop :=
  ∃ s, c.entries[j]? = some s ∧ ∀ n, ∃ e, c.machine.after (n + 1) ⟨s, h, t⟩ = .ok e ∧
    c.machine.verdict? e.state = none ∧ ∀ q : Nat, c.entries[q]? ≠ some e.state

/-- From the entry state of position `j` the machine goes on for ever and never leaves that
state. -/
def Stays (c : Compilation) (j : Nat) (h : Int) (t : Int → Nat) : Prop :=
  ∃ s, c.entries[j]? = some s ∧ c.machine.verdict? s = none ∧
    ∀ n, ∃ e, c.machine.after n ⟨s, h, t⟩ = .ok e ∧ e.state = s

/-- In the entry state of position `j` the machine clears cell after cell to the left until it finds
an argument marker; it passes no other state before that. -/
def Searches (c : Compilation) (j : Nat) : Prop :=
  ∃ high, c.machine.Performs (· = c.entryOf j) (c.entryOf j) (fun _ => high)
    (.search Symbol.argPointer (.write 0 .left) (.write 0 .left))

variable {c : Compilation} {p : Program} {sites : CallSites} {σ : Stage} {j : Nat}
  {i : Instruction} {o : Options}

/-- What runs away does not go on. -/
theorem RunsAway.not_goesOn (hr : c.RunsAway j h t) : ¬c.GoesOn p j h t := by
  rintro ⟨s, n, e, hs, he, hend⟩
  obtain ⟨s', hs', haway⟩ := hr
  obtain rfl : s = s' := Option.some.inj (hs.symm.trans hs')
  obtain ⟨e', he', hverdict, hentry⟩ := haway n
  obtain rfl : e = e' := Except.ok.inj (he.symm.trans he')
  rcases hend with haccept | hreject | ⟨q, -, hq⟩
  · rw [Machine.verdict?, if_pos haccept] at hverdict
    cases hverdict
  · unfold Machine.verdict? at hverdict
    split_ifs at hverdict
  · exact hentry q hq

namespace Finishes

theorem meets_effect (hf : c.Finishes p sites σ) (hv : p.violation? o = none)
    (hi : p[j]? = some i) (hno : Unmarked t) :
    c.machine.Meets (c.PassedBy j i.opcode) c.exitState ⟨c.entryOf j, h, t⟩ (i.effect p j h t) := by
  have happly := Instruction.action_apply (h := h) hf.sites_eq hi
    (Program.violation?_eq_none hv hi) hno
  rw [← happly]
  exact hf.performs j i hi h t

theorem goesOn_of_ends (hf : c.Finishes p sites σ) (hv : p.violation? o = none)
    (hi : p[j]? = some i) (hno : Unmarked t) (hends : i.Ends h t) : c.GoesOn p j h t := by
  obtain ⟨s, hs, hentry⟩ := hf.exists_entry_of_lt hi
  have hmeets := hf.meets_effect (h := h) hv hi hno
  rw [hentry] at hmeets
  cases he : i.effect p j h t with
  | leave e h' t' =>
    rw [he] at hmeets
    obtain ⟨n, hn⟩ := Machine.Leads.exists_after hmeets
    cases e with
    | goto q =>
      have hq := hf.exists_entry (hf.entry_lt hs) (Machine.Leads.reaches hmeets) rfl
      exact ⟨s, n, _, hs, hn, .inr (.inr ⟨q, Instruction.successor_of_effect hi he, hq⟩)⟩
    | accept => exact ⟨s, n, _, hs, hn, .inl hf.wellFormed.accept_eq.symm⟩
  | reject =>
    rw [he] at hmeets
    obtain ⟨h', t', hleads⟩ := hmeets
    obtain ⟨n, hn⟩ := hleads.exists_after
    exact ⟨s, n, _, hs, hn, .inr (.inl hf.wellFormed.reject_eq.symm)⟩
  | hang => exact absurd hends (Instruction.effect_eq_hang_iff.1 he)

theorem runsAway_of_not_ends (hf : c.Finishes p sites σ) (hv : p.violation? o = none)
    (hi : p[j]? = some i) (hop : i.opcode ≠ .ret) (hno : Unmarked t) (hends : ¬i.Ends h t) :
    c.RunsAway j h t := by
  obtain ⟨s, hs, hentry⟩ := hf.exists_entry_of_lt hi
  have hmeets := hf.meets_effect (h := h) hv hi hno
  rw [hentry, Instruction.effect_eq_hang_iff.2 hends] at hmeets
  refine ⟨s, hs, fun n => ?_⟩
  obtain ⟨e, he, hpassed⟩ := hmeets n
  have hinner : c.Inner e.state := hpassed.resolve_right fun hret => hop hret.1
  exact ⟨e, he, hf.verdict?_eq_none hinner.1, hinner.2⟩

theorem searches (hf : c.Finishes p sites σ) (hi : p[j]? = some i) (hop : i.opcode = .ret) :
    c.Searches j := by
  have hlen := CallSites.length_le hf.sites_eq
  refine Finishes.ensures (·.Searches j) hf hi fun σ hr => ?_
  unfold Draft.emit
  rw [hop]
  refine (entryAt_builds j).bind fun entry σ₁ he₁ h₁ => ?_
  have hr₁ := hr.enter h₁ he₁
  obtain ⟨hl, hw⟩ := hr₁.entry_live h₁.entry_self
  refine (Gadget.ret_builds (.inr trivial) hl hw (.goal j trivial h₁.entry_self)
    (fun _ _ => trivial) hlen).imp fun _ σ₂ he₂ ⟨hx, hp⟩ =>
      ⟨hr₁.close h₁.entry_self hx he₂, fun c h => ?_⟩
  change c.Searches j
  rw [Searches, (h.of_evolves he₂).entryOf h₁.entry_self]
  exact (hp c h).2

theorem stays_of_not_ends (hf : c.Finishes p sites σ) (hi : p[j]? = some i)
    (hop : i.opcode = .ret) (hends : ¬i.Ends h t) : c.Stays j h t := by
  obtain ⟨s, hs, hentry⟩ := hf.exists_entry_of_lt hi
  obtain ⟨high, hsearch⟩ := hf.searches hi hop
  simp only [Instruction.Ends, hop, not_exists, not_and] at hends
  have hhang := hsearch h t
  rw [hentry, Action.search_clear_hang fun x hx => hends x (Int.lt_add_one_iff.1 hx)] at hhang
  refine ⟨s, hs, hf.verdict?_eq_none (hf.two_le_entry hs), fun n => ?_⟩
  cases n with
  | zero => exact ⟨_, rfl, rfl⟩
  | succ n => exact hhang n

end Finishes

end Compilation

/-- When an instruction can hang, exactly. On a tape without a bookmark, from the entry state of the
position of an instruction, the machine gets to a sink or to a control successor in at least one
step if and only if the instruction ends, and otherwise it runs away. A return that finds its marker
gets to a sink or to a control successor as well; one that does not find it stays in its entry
state. -/
theorem compile_ends_iff {o : Options} {p : Program} {c : Compilation}
    (hc : compile o p = .ok c) {j : Nat} {i : Instruction} (hi : p[j]? = some i) (h : Int)
    {t : Int → Nat} (hno : Unmarked t) :
    (i.opcode ≠ .ret →
      (c.GoesOn p j h t ↔ i.Ends h t) ∧ (¬i.Ends h t → c.RunsAway j h t)) ∧
    (i.opcode = .ret →
      (i.Ends h t → c.GoesOn p j h t) ∧ (¬i.Ends h t → c.Stays j h t)) := by
  obtain ⟨hv, sites, σ, hf⟩ := exists_finishes hc
  have hgoes : i.Ends h t → c.GoesOn p j h t := hf.goesOn_of_ends hv hi hno
  constructor
  · intro hop
    have haway : ¬i.Ends h t → c.RunsAway j h t := hf.runsAway_of_not_ends hv hi hop hno
    refine ⟨⟨fun hgo => ?_, hgoes⟩, haway⟩
    by_contra hends
    exact (haway hends).not_goesOn hgo
  · intro hop
    exact ⟨hgoes, hf.stays_of_not_ends hi hop⟩

/-- The boundary cases: with a marker in cell 0 and the free cell 3, a load from the free cell
rejects, whereas a store to the cell below it loses its bookmark; and a return finds no marker. -/
theorem bookmark_at_variable : ∃ c, compile {}
      [⟨.load .locals .w8, 2, 0, 0⟩, ⟨.store .locals .w8, 1, 0, 0⟩, ⟨.ret, 0, 0, 0⟩] = .ok c ∧
    c.GoesOn [⟨.load .locals .w8, 2, 0, 0⟩, ⟨.store .locals .w8, 1, 0, 0⟩, ⟨.ret, 0, 0, 0⟩] 0 3
      (Function.update (fun _ => 0) 0 Symbol.basePointer) ∧
    c.RunsAway 1 3 (Function.update (fun _ => 0) 0 Symbol.basePointer) ∧
    c.Stays 2 3 (Function.update (fun _ => 0) 0 Symbol.basePointer) := by
  obtain ⟨c, hc⟩ := exists_compile (o := {})
    (p := [⟨.load .locals .w8, 2, 0, 0⟩, ⟨.store .locals .w8, 1, 0, 0⟩, ⟨.ret, 0, 0, 0⟩]) rfl rfl
  have hno : Unmarked (Function.update (fun _ => 0) 0 Symbol.basePointer) :=
    unmarked_update (fun _ => by decide) (by decide)
  have hn : IsNearest (Function.update (fun _ => 0) 0 Symbol.basePointer) Frame.locals.marker 3
      0 := by
    refine ⟨by decide, rfl, fun x hx _ => ?_⟩
    rw [Function.update_of_ne (by omega)]
    decide
  refine ⟨c, hc, ?_, ?_, ?_⟩
  · apply ((compile_ends_iff hc (j := 0) rfl 3 hno).1 (by decide)).1.2
    exact ⟨0, hn, fun hc => absurd hc.1 (by decide)⟩
  · apply ((compile_ends_iff hc (j := 1) rfl 3 hno).1 (by decide)).2
    rintro (hbyte | hstore)
    · exact hbyte (by decide)
    · exact absurd (hn.exists_iff.1 hstore) (by decide)
  · apply ((compile_ends_iff hc (j := 2) rfl 3 hno).2 rfl).2
    rintro ⟨x, -, hx⟩
    rw [Function.update_apply] at hx
    split at hx <;> cases hx

end StackTape
