import StackTape.Proofs.Simulation

/-!
# Calls and returns match

A call leaves its id, in two bytes, below the argument marker and the arguments. Whatever happens
above the marker, a return finds the marker and takes the id, and goes on after the very call: the
byte order, the numbering of the calls and the two tables of a return agree for every call of every
program. A return that finds no id of a call there rejects.
-/

namespace StackTape

namespace Compilation

/-- What a compiled program does with the ids of its calls. -/
structure CallsMatchReturns (c : Compilation) (p : Program) (sites : CallSites) : Prop where
  /-- Every call has an id. -/
  idAt : ∀ (j : Nat) (i : Instruction), p[j]? = some i → i.opcode = .call →
    ∃ id, sites.idAt? j = some id ∧ id < sites.count
  /-- A call puts its id in the place of the marker, moves the marker and the arguments two cells up
  and goes on at its target. -/
  call : ∀ (j : Nat) (i : Instruction) (id : Nat) (h a : Int) (t : Int → Nat),
    p[j]? = some i → i.opcode = .call → sites.idAt? j = some id →
    Unmarked t → IsNearest t Symbol.argPointer h a → Data t (a + 1) h →
    ∃ s s' t', c.entries[j]? = some s ∧ c.entries[i.target]? = some s' ∧
      c.machine.Reaches ⟨s, h, t⟩ ⟨s', h + 2, t'⟩ ∧
      t' a = id % 256 ∧ t' (a + 1) = id / 256 ∧ t' (a + 2) = Symbol.argPointer ∧
      (∀ x, a < x → x < h → t' (x + 2) = t x) ∧ ∀ x, x < a ∨ h + 2 ≤ x → t' x = t x
  /-- A call with something else than bytes above the marker rejects. -/
  call_reject : ∀ (j : Nat) (i : Instruction) (h a : Int) (t : Int → Nat),
    p[j]? = some i → i.opcode = .call →
    Unmarked t → IsNearest t Symbol.argPointer h a → ¬Data t (a + 1) h →
    ∃ s h' t', c.entries[j]? = some s ∧ c.machine.Reaches ⟨s, h, t⟩ ⟨Sink.reject, h', t'⟩
  /-- A return that finds the id of a call, whatever is above the marker, clears everything from the
  id on and goes on after the call. -/
  ret : ∀ (j k : Nat) (i l : Instruction) (id : Nat) (a r : Int) (t : Int → Nat),
    p[j]? = some i → i.opcode = .call → sites.idAt? j = some id →
    p[k]? = some l → l.opcode = .ret → a + 2 ≤ r →
    t a = id % 256 → t (a + 1) = id / 256 → t (a + 2) = Symbol.argPointer →
    (∀ x, a + 2 < x → x ≤ r → t x ≠ Symbol.argPointer) →
    ∃ s s' t', c.entries[k]? = some s ∧ c.entries[j + 1]? = some s' ∧
      c.machine.Reaches ⟨s, r, t⟩ ⟨s', a, t'⟩ ∧
      (∀ x, a ≤ x → x ≤ r → t' x = 0) ∧ ∀ x, x < a ∨ r < x → t' x = t x
  /-- A return that does not find the id of a call rejects. -/
  ret_reject : ∀ (k : Nat) (l : Instruction) (h a : Int) (t : Int → Nat),
    p[k]? = some l → l.opcode = .ret → IsNearest t Symbol.argPointer (h + 1) a →
    (∀ id < sites.count, t (a - 2) = id % 256 → t (a - 1) ≠ id / 256) →
    ∃ s h' t', c.entries[k]? = some s ∧ c.machine.Reaches ⟨s, h, t⟩ ⟨Sink.reject, h', t'⟩

namespace Finishes

variable {c : Compilation} {p : Program} {sites : CallSites} {σ : Stage} {j q id : Nat}
  {i : Instruction} {h h' a : Int} {t t' : Int → Nat}

theorem exists_entry_of_lt (hf : c.Finishes p sites σ) (hi : p[j]? = some i) :
    ∃ s, c.entries[j]? = some s ∧ c.entryOf j = s := by
  obtain ⟨hlt, -⟩ := List.getElem?_eq_some_iff.1 hi
  obtain ⟨s, hs⟩ := hf.ready.entered j hlt
  exact ⟨s, hf.completes.entry j s hs, hf.completes.entryOf hs⟩

theorem reaches_of_action (hf : c.Finishes p sites σ) (hi : p[j]? = some i)
    (ha : i.action sites j h t = .leave (.goto q) h' t') :
    ∃ s s', c.entries[j]? = some s ∧ c.entries[q]? = some s' ∧
      c.machine.Reaches ⟨s, h, t⟩ ⟨s', h', t'⟩ := by
  obtain ⟨s, hs, hentry⟩ := hf.exists_entry_of_lt hi
  have hmeets := hf.performs j i hi h t
  rw [hentry, ha] at hmeets
  have hreach : c.machine.Reaches ⟨s, h, t⟩ ⟨c.entryOf q, h', t'⟩ := hmeets.reaches
  exact ⟨s, _, hs, hf.exists_entry (hf.entry_lt hs) hreach rfl, hreach⟩

theorem rejects_of_action (hf : c.Finishes p sites σ) (hi : p[j]? = some i)
    (ha : i.action sites j h t = .reject) :
    ∃ s h' t', c.entries[j]? = some s ∧ c.machine.Reaches ⟨s, h, t⟩ ⟨Sink.reject, h', t'⟩ := by
  obtain ⟨s, hs, hentry⟩ := hf.exists_entry_of_lt hi
  have hmeets := hf.performs j i hi h t
  rw [hentry, ha] at hmeets
  obtain ⟨h', t', hleads⟩ := hmeets
  exact ⟨s, h', t', hs, hleads.reaches⟩

/-! ## Calls -/

theorem exists_idAt (hf : c.Finishes p sites σ) (hi : p[j]? = some i) (hop : i.opcode = .call) :
    ∃ id, sites.idAt? j = some id ∧ id < sites.count := by
  refine ⟨_, CallSites.idAt?_eq hf.sites_eq hi hop, ?_⟩
  rw [CallSites.count, CallSites.addresses_eq hf.sites_eq]
  exact (List.getElem?_eq_some_iff.1 (Program.getElem?_returnAddresses hi hop)).1

/-- The id of a call fits its two bytes. -/
theorem id_lt (hf : c.Finishes p sites σ) (hid : id < sites.count) : id < 65536 :=
  Nat.lt_of_lt_of_le hid (CallSites.length_le hf.sites_eq)

theorem call_action (hop : i.opcode = .call) (hid : sites.idAt? j = some id) (hno : Unmarked t)
    (hn : IsNearest t Symbol.argPointer h a) :
    i.action sites j h t =
      if Data t (a + 1) h then
        .leave (.goto i.target) (h + 2) (overlay t a (h + 2) fun x =>
          if x = a then Draft.byteAt id 0 else if x = a + 1 then Draft.byteAt id 1
          else if x = a + 2 then Symbol.argPointer else t (x - 2))
      else .reject := by
  have hcall := Action.call_apply (h := h) hno id
  rw [Reference.call, nearest?_eq_some_iff.2 hn] at hcall
  simp only [Instruction.action, hop, hid, Option.getD_some]
  dsimp only at hcall
  split_ifs at hcall ⊢
  · rw [Action.bind_apply_of_leave hcall]
    rfl
  · rw [Action.bind_apply_of_reject hcall]

/-! ## Returns -/

theorem ret_action (hf : c.Finishes p sites σ) (hop : i.opcode = .ret)
    (hn : IsNearest t Symbol.argPointer (h + 1) a) :
    i.action sites j h t =
      if Data t (a - 2) a then
        match p.returnAddresses[value t (a - 2) 2]? with
        | some q => .leave (.goto q) (a - 2) (overlay t (a - 2) (h + 1) fun _ => 0)
        | none => .reject
      else .reject := by
  have hret : Reference.ret h t = if Data t (a - 2) a then
      .leave (value t (a - 2) 2) (a - 2) (overlay t (a - 2) (h + 1) fun _ => 0) else .reject := by
    rw [Reference.ret, nearest?_eq_some_iff.2 hn]
  rw [← CallSites.addresses_eq hf.sites_eq]
  simp only [Instruction.action, hop]
  refine (Action.ret_bind sites.addresses).trans ?_
  split_ifs at hret ⊢
  · rw [Action.bind_apply_of_leave hret]
    cases sites.addresses[value t (a - 2) 2]? <;> rfl
  · rw [Action.bind_apply_of_reject hret]

theorem value_two (t : Int → Nat) (a : Int) : value t a 2 = t a + 256 * t (a + 1) := by
  simp [value]

/-- The two bytes of an id lead back to the call that it belongs to. -/
theorem ret_action_of_id (hf : c.Finishes p sites σ) {l : Instruction} {k : Nat}
    (hi : p[j]? = some i) (hop : i.opcode = .call) (hid : sites.idAt? j = some id)
    (hop' : l.opcode = .ret) (hle : a + 2 ≤ h) (hlow : t a = id % 256)
    (hhigh : t (a + 1) = id / 256) (hmark : t (a + 2) = Symbol.argPointer)
    (hfree : ∀ x, a + 2 < x → x ≤ h → t x ≠ Symbol.argPointer) :
    l.action sites k h t = .leave (.goto (j + 1)) a (overlay t a (h + 1) fun _ => 0) := by
  have hn : IsNearest t Symbol.argPointer (h + 1) (a + 2) :=
    ⟨by omega, hmark, fun x h1 h2 => hfree x h1 (by omega)⟩
  obtain ⟨id', hid', hlt⟩ := hf.exists_idAt hi hop
  obtain rfl : id = id' := Option.some.inj (hid.symm.trans hid')
  have hfits := hf.id_lt hlt
  have hvalue : value t a 2 = id := by
    rw [value_two, hlow, hhigh]
    omega
  have hdata : Data t a (a + 2) := by
    intro x h1 h2
    obtain rfl | rfl : x = a ∨ x = a + 1 := by omega
    · omega
    · omega
  have haddress : p.returnAddresses[id]? = some (j + 1) := by
    obtain rfl : id = p.callId j :=
      Option.some.inj (hid.symm.trans (CallSites.idAt?_eq hf.sites_eq hi hop))
    exact Program.getElem?_returnAddresses hi hop
  have haction := hf.ret_action (j := k) hop' hn
  rw [add_sub_cancel_right, if_pos hdata, hvalue, haddress] at haction
  exact haction

theorem ret_action_of_not_id (hf : c.Finishes p sites σ) (hop : i.opcode = .ret)
    (hn : IsNearest t Symbol.argPointer (h + 1) a)
    (hbad : ∀ id < sites.count, t (a - 2) = id % 256 → t (a - 1) ≠ id / 256) :
    i.action sites j h t = .reject := by
  have hcell : a - 2 + 1 = a - 1 := by omega
  rw [hf.ret_action hop hn, value_two, hcell]
  split
  · next hd =>
    have hlow : t (a - 2) < 256 := hd _ le_rfl (by omega)
    have hout : p.returnAddresses.length ≤ t (a - 2) + 256 * t (a - 1) := by
      rw [← CallSites.addresses_eq hf.sites_eq]
      by_contra hlt
      exact hbad _ (Nat.not_le.1 hlt) (by omega) (by omega)
    rw [List.getElem?_eq_none hout]
  · rfl

end Finishes

end Compilation

/-- A compiled program does not have too many calls for their ids, and its calls and its returns
match. -/
theorem compile_callsMatchReturns {o : Options} {p : Program} {c : Compilation}
    (h : compile o p = .ok c) :
    ∃ sites, CallSites.ofProgram? p = some sites ∧ c.CallsMatchReturns p sites := by
  obtain ⟨-, sites, σ, hf⟩ := exists_finishes h
  refine ⟨sites, hf.sites_eq, fun j i hi hop => hf.exists_idAt hi hop, ?_, ?_, ?_, ?_⟩
  · intro j i id h a t hi hop hid hno hn hd
    have haction := Compilation.Finishes.call_action hop hid hno hn
    rw [if_pos hd] at haction
    obtain ⟨s, s', hs, hs', hreach⟩ := hf.reaches_of_action hi haction
    obtain ⟨id', hid', hlt⟩ := hf.exists_idAt hi hop
    obtain rfl : id = id' := Option.some.inj (hid.symm.trans hid')
    have hfits := hf.id_lt hlt
    have hah := hn.lt
    refine ⟨s, s', _, hs, hs', hreach, ?_, ?_, ?_, fun x h1 h2 => ?_, fun x hx => ?_⟩
    · rw [overlay_apply, if_pos (by omega), if_pos rfl, byteAt_eq, pow_zero, Nat.div_one]
    · rw [overlay_apply, if_pos (by omega), if_neg (by omega), if_pos rfl, byteAt_eq, pow_one]
      omega
    · rw [overlay_apply, if_pos (by omega), if_neg (by omega), if_neg (by omega), if_pos rfl]
    · rw [overlay_apply, if_pos (by omega), if_neg (by omega), if_neg (by omega),
        if_neg (by omega), add_sub_cancel_right]
    · rw [overlay_apply, if_neg (by omega)]
  · intro j i h a t hi hop hno hn hd
    obtain ⟨id, hid, -⟩ := hf.exists_idAt hi hop
    have haction := Compilation.Finishes.call_action hop hid hno hn
    rw [if_neg hd] at haction
    exact hf.rejects_of_action hi haction
  · intro j k i l id a r t hi hop hid hl hop' hle hlow hhigh hmark hfree
    have haction := hf.ret_action_of_id (k := k) hi hop hid hop' hle hlow hhigh hmark hfree
    obtain ⟨s, s', hs, hs', hreach⟩ := hf.reaches_of_action hl haction
    refine ⟨s, s', _, hs, hs', hreach, fun x h1 h2 => ?_, fun x hx => ?_⟩
    · rw [overlay_apply, if_pos (by omega)]
    · rw [overlay_apply, if_neg (by omega)]
  · intro k l h a t hl hop hn hbad
    exact hf.rejects_of_action hl (hf.ret_action_of_not_id hop hn hbad)

theorem callOnce_matches : ∃ c, compile {} Program.callOnce = .ok c ∧
    c.CallsMatchReturns Program.callOnce ⟨[3]⟩ := by
  obtain ⟨c, hc⟩ := callOnce_compiles
  obtain ⟨sites, hs, hmatch⟩ := compile_callsMatchReturns hc
  obtain rfl : ⟨[3]⟩ = sites := Option.some.inj (callOnce_sites.symm.trans hs)
  exact ⟨c, hc, hmatch⟩

end StackTape
