import StackTape.Proofs.Execution

/-!
# Operations on the topmost values

An operation puts its result in the place of the value below the top one and clears the top value.
It looks at the cells of its two operands and at no others, so what follows holds on every tape,
whatever markers lie around them. A sum and a difference are exact modulo the range of the width
(`compile_adds_and_subtracts`); the bitwise operations work cell by cell
(`compile_combines_cells`). A shift works on the top value alone and in its place
(`compile_shifts_index`). If a cell of an operand is not a byte, the machine rejects.
-/

namespace StackTape

/-- From the entry state of position `j` the machine replaces the two topmost values, of `n` bytes
each, by one value of `n` bytes and goes on at the next position. The byte `k` of the new value is
given by `result`, from the tape and the first free cell as they were before. -/
structure Compilation.ReplacesTwo (c : Compilation) (j n : Nat)
    (result : (Int → Nat) → Int → Nat → Nat) : Prop where
  passes : ∀ (h : Int) (t : Int → Nat), Data t (h - 2 * n) h →
    ∃ t', c.Passes j h t (j + 1) (h - n) t' ∧
      (∀ k < n, t' (h - 2 * n + k) = result t h k) ∧
      (∀ x, h - n ≤ x → x < h → t' x = 0) ∧ ∀ x, x < h - 2 * n ∨ h ≤ x → t' x = t x
  rejects : ∀ (h : Int) (t : Int → Nat), ¬Data t (h - 2 * n) h → c.RejectsAt j h t

namespace Compilation

variable {c : Compilation} {p : Program} {sites : CallSites} {σ : Stage} {j n : Nat}
  {i : Instruction} {op : BinOp} {w : Width}

/-- Only the result on bytes counts. -/
theorem ReplacesTwo.congr {f g : (Int → Nat) → Int → Nat → Nat} (hr : c.ReplacesTwo j n f)
    (hfg : ∀ h t, Data t (h - 2 * n) (h - n) → Data t (h - n) h → ∀ k < n, f t h k = g t h k) :
    c.ReplacesTwo j n g where
  passes h t hd := by
    obtain ⟨t', hpass, hresult, hzero, hsame⟩ := hr.passes h t hd
    obtain ⟨hlower, htop⟩ := (data_split (m := h - n) (by omega) (by omega)).1 hd
    refine ⟨t', hpass, fun k hk => ?_, hzero, hsame⟩
    rw [hresult k hk]
    exact hfg h t hlower htop k hk
  rejects := hr.rejects

theorem Finishes.replacesTwo (hf : c.Finishes p sites σ) (hi : p[j]? = some i)
    (hop : i.opcode = .binary op w) :
    c.ReplacesTwo j w.bytes fun t h k => Draft.byteAt (op.eval w.bytes
      (value t (h - 2 * w.bytes) w.bytes) (value t (h - w.bytes) w.bytes)) k := by
  have hnext : i.action sites j = Instruction.action.next j (.binary op w) := by
    simp only [Instruction.action, hop]
  have happly := fun (h : Int) (t : Int → Nat) => Action.binary_apply (h := h) (t := t) op w
  simp only [Nat.cast_mul, Nat.cast_ofNat] at happly
  refine ⟨fun h t hd => ?_, fun h t => (hf.decides_of_next hi hnext (happly h t)).2⟩
  refine ⟨_, (hf.decides_of_next hi hnext (happly h t)).1 hd, fun k hk => ?_, fun x h1 h2 => ?_,
    fun x hx => ?_⟩
  all_goals simp only [replaceTwo, overlay_apply, Nat.cast_mul, Nat.cast_ofNat]
  · rw [if_pos (by omega), add_sub_cancel_left, Int.toNat_natCast]
  · rw [if_neg (by omega), if_pos (by omega)]
  · rw [if_neg (by omega), if_neg (by omega)]

end Compilation

/-! ## Sums and differences -/

/-- A difference that is kept from falling below zero is the difference of the integers. -/
theorem BinOp.eval_sub {lower top n : Nat} (ht : top < 256 ^ n) :
    BinOp.sub.eval n lower top = (((lower : Int) - top) % 256 ^ n).toNat := by
  have hcast : (((lower + 256 ^ n - top : Nat) : Int)) = lower - top + 256 ^ n := by
    rw [Nat.cast_sub (by omega)]
    push_cast
    ring
  have hmod : ((BinOp.sub.eval n lower top : Nat) : Int) = ((lower : Int) - top) % 256 ^ n := by
    rw [BinOp.eval, Int.natCast_emod, hcast]
    push_cast
    rw [Int.add_emod_right]
  rw [← hmod, Int.toNat_natCast]

/-- Sums and differences are exact. With `a` the value below the top value `b`, both of the width of
the operation, the new value is `a + b` or `a - b` modulo the number of values of that width, least
significant byte first. -/
theorem compile_adds_and_subtracts {o : Options} {p : Program} {c : Compilation}
    (hc : compile o p = .ok c) {j : Nat} {i : Instruction} (hi : p[j]? = some i) (w : Width) :
    (i.opcode = .binary .add w → c.ReplacesTwo j w.bytes fun t h k =>
      (value t (h - 2 * w.bytes) w.bytes + value t (h - w.bytes) w.bytes) % 256 ^ w.bytes /
        256 ^ k % 256) ∧
    (i.opcode = .binary .sub w → c.ReplacesTwo j w.bytes fun t h k =>
      ((value t (h - 2 * w.bytes) w.bytes - value t (h - w.bytes) w.bytes : Int) %
        256 ^ w.bytes).toNat / 256 ^ k % 256) := by
  obtain ⟨-, sites, σ, hf⟩ := exists_finishes hc
  constructor
  · intro hop
    apply (hf.replacesTwo hi hop).congr
    intro h t _ _ k _
    rw [byteAt_eq, BinOp.eval]
  · intro hop
    apply (hf.replacesTwo hi hop).congr
    intro h t _ htop k _
    have hlt : value t (h - w.bytes) w.bytes < 256 ^ w.bytes :=
      value_lt (by rwa [sub_add_cancel])
    rw [byteAt_eq, BinOp.eval_sub hlt]

/-- The difference `0 - 0xFF01` of two values of two bytes: the borrow of the first column meets a
full byte in the second one. -/
theorem difference_borrows : ∃ c t', compile {} [⟨.binary .sub .w16, 0, 0, 0⟩] = .ok c ∧
    c.Passes 0 4 (fun x => if x = 2 then 1 else if x = 3 then 255 else 0) 1 2 t' ∧
      t' 0 = 255 ∧ t' 1 = 0 ∧ t' 2 = 0 ∧ t' 3 = 0 := by
  obtain ⟨c, hc⟩ := exists_compile (o := {}) (p := [⟨.binary .sub .w16, 0, 0, 0⟩]) rfl rfl
  have hd : Data (fun x => if x = 2 then 1 else if x = 3 then 255 else 0)
      (4 - 2 * (2 : Nat)) 4 := by
    decide
  obtain ⟨t', hpass, hresult, hzero, -⟩ :=
    ((compile_adds_and_subtracts hc (j := 0) rfl .w16).2 rfl).passes 4 _ hd
  exact ⟨c, t', hc, hpass, hresult 0 (by decide), hresult 1 (by decide),
    hzero 2 (by decide) (by decide), hzero 3 (by decide) (by decide)⟩

/-! ## Bitwise operations -/

theorem Compilation.ReplacesTwo.cells {c : Compilation} {j : Nat} {op : BinOp} {w : Width}
    {f : Bool → Bool → Bool} (hff : f false false = false)
    (heval : ∀ lower top, op.eval w.bytes lower top = Nat.bitwise f lower top)
    (hr : c.ReplacesTwo j w.bytes fun t h k => Draft.byteAt (op.eval w.bytes
      (value t (h - 2 * w.bytes) w.bytes) (value t (h - w.bytes) w.bytes)) k) :
    c.ReplacesTwo j w.bytes fun t h k =>
      Nat.bitwise f (t (h - 2 * w.bytes + k)) (t (h - w.bytes + k)) := by
  apply hr.congr
  intro h t hlower htop k hk
  have hlower : Data t (h - 2 * w.bytes) (h - 2 * w.bytes + w.bytes) := by
    rwa [(by ring : h - 2 * w.bytes + w.bytes = h - w.bytes)]
  have htop : Data t (h - w.bytes) (h - w.bytes + w.bytes) := by rwa [sub_add_cancel]
  rw [heval, byteAt_bitwise hff, byteAt_value hlower hk, byteAt_value htop hk]

/-- The bitwise operations are exact. Each cell of the value below the top one takes the bitwise
combination of what it held and what the cell of the same weight in the top value held. -/
theorem compile_combines_cells {o : Options} {p : Program} {c : Compilation}
    (hc : compile o p = .ok c) {j : Nat} {i : Instruction} (hi : p[j]? = some i) (w : Width) :
    (i.opcode = .binary .and w → c.ReplacesTwo j w.bytes fun t h k =>
      t (h - 2 * w.bytes + k) &&& t (h - w.bytes + k)) ∧
    (i.opcode = .binary .or w → c.ReplacesTwo j w.bytes fun t h k =>
      t (h - 2 * w.bytes + k) ||| t (h - w.bytes + k)) ∧
    (i.opcode = .binary .xor w → c.ReplacesTwo j w.bytes fun t h k =>
      t (h - 2 * w.bytes + k) ^^^ t (h - w.bytes + k)) := by
  obtain ⟨-, sites, σ, hf⟩ := exists_finishes hc
  refine ⟨fun hop => ?_, fun hop => ?_, fun hop => ?_⟩
  · exact (hf.replacesTwo hi hop).cells (f := and) rfl fun _ _ => rfl
  · exact (hf.replacesTwo hi hop).cells (f := or) rfl fun _ _ => rfl
  · exact (hf.replacesTwo hi hop).cells (f := bne) rfl fun _ _ => rfl

/-- An exclusive disjunction of four bytes, on a tape with a marker right below the operands. -/
theorem combination_of_four_cells : ∃ c t', compile {} [⟨.binary .xor .w32, 0, 0, 0⟩] = .ok c ∧
    c.Passes 0 8 (fun x => if x = -1 then Symbol.argPointer else if x = 0 then 5 else
      if x = 4 then 3 else if x = 7 then 255 else 0) 1 4 t' ∧
      t' (-1) = Symbol.argPointer ∧ t' 0 = 6 ∧ t' 3 = 255 ∧ t' 7 = 0 := by
  obtain ⟨c, hc⟩ := exists_compile (o := {}) (p := [⟨.binary .xor .w32, 0, 0, 0⟩]) rfl rfl
  have hd : Data (fun x => if x = -1 then Symbol.argPointer else if x = 0 then 5 else
      if x = 4 then 3 else if x = 7 then 255 else 0) (8 - 2 * (4 : Nat)) 8 := by
    decide
  obtain ⟨t', hpass, hresult, hzero, hsame⟩ :=
    ((compile_combines_cells hc (j := 0) rfl .w32).2.2 rfl).passes 8 _ hd
  exact ⟨c, t', hc, hpass, hsame (-1) (.inl (by decide)), hresult 0 (by decide),
    hresult 3 (by decide), hzero 7 (by decide) (by decide)⟩

/-! ## Shifts -/

/-- A shift is exact. The value `x` of four bytes on top of the stack becomes `x * 2 ^ s` modulo the
number of values of four bytes, where `s` is any amount that the compiler accepts, and the free cell
stays where it is. -/
theorem compile_shifts_index {o : Options} {p : Program} {c : Compilation}
    (hc : compile o p = .ok c) {j : Nat} {i : Instruction} (hi : p[j]? = some i)
    (hop : i.opcode = .indexShift) (h : Int) (t : Int → Nat) :
    (Data t (h - 4) h → ∃ t', c.Passes j h t (j + 1) h t' ∧
      (∀ k : Nat, k < 4 →
        t' (h - 4 + k) = value t (h - 4) 4 * 2 ^ i.operand1 % 2 ^ 32 / 256 ^ k % 256) ∧
        ∀ x, x < h - 4 ∨ h ≤ x → t' x = t x) ∧
    (¬Data t (h - 4) h → c.RejectsAt j h t) := by
  obtain ⟨hv, sites, σ, hf⟩ := exists_finishes hc
  have hle : i.operand1 ≤ 8 := Instruction.shift_le hop (Program.violation?_eq_none hv hi)
  have hnext : i.action sites j = Instruction.action.next j (.indexShift i.operand1) := by
    simp only [Instruction.action, hop]
  have hdecides := hf.decides_of_next hi hnext (Action.indexShift_apply (h := h) (t := t) hle)
  constructor
  · intro hd
    refine ⟨_, hdecides.1 hd, fun k hk => ?_, fun x hx => ?_⟩
    · rw [overlay_apply, if_pos (by omega), add_sub_cancel_left, Int.toNat_natCast, byteAt_eq]
    · rw [overlay_apply, if_neg (by omega)]
  · exact hdecides.2

/-- The largest shift moves each byte up by one cell, and the topmost one is lost. -/
theorem shifted_by_one_cell : ∃ c t', compile {} [⟨.indexShift, 8, 0, 0⟩] = .ok c ∧
    c.Passes 0 4 (fun x => if x = 0 then 1 else if x = 2 then 2 else if x = 3 then 255 else 0)
      1 4 t' ∧ t' 0 = 0 ∧ t' 1 = 1 ∧ t' 2 = 0 ∧ t' 3 = 2 := by
  obtain ⟨c, hc⟩ := exists_compile (o := {}) (p := [⟨.indexShift, 8, 0, 0⟩]) rfl rfl
  have hd : Data (fun x => if x = 0 then 1 else if x = 2 then 2 else if x = 3 then 255 else 0)
      (4 - 4) 4 := by
    decide
  obtain ⟨t', hpass, hbyte, -⟩ := (compile_shifts_index hc (j := 0) rfl rfl 4 _).1 hd
  exact ⟨c, t', hc, hpass, hbyte 0 (by decide), hbyte 1 (by decide), hbyte 2 (by decide),
    hbyte 3 (by decide)⟩

end StackTape
