import StackTape.Proofs.Execution

/-!
# Bytes that change places

An exchange swaps the value on top with one further down and looks at nothing in between; done twice
it gives the tape back (`compile_exchanges_values`). A block of arguments of any size goes one cell
up, so that the argument marker gets its place below it (`compile_inserts_argPointer`). Neither
depends on anything but the bytes that it moves, and if one of them is not a byte, the machine
rejects.
-/

namespace StackTape

/-! ## Exchanges -/

/-- On the tape `t'` the `n` cells below `h` have changed places with the `n` cells that lie below
them with `offset` cells in between. -/
structure Exchanged (n offset : Nat) (h : Int) (t t' : Int → Nat) : Prop where
  upper : ∀ k < n, t' (h - n + k) = t (h - 2 * n - offset + k)
  lower : ∀ k < n, t' (h - 2 * n - offset + k) = t (h - n + k)
  same : ∀ x, x < h - n ∨ h ≤ x → x < h - 2 * n - offset ∨ h - n - offset ≤ x → t' x = t x

/-- The two values that an exchange takes are made of bytes. -/
def Exchangeable (n offset : Nat) (h : Int) (t : Int → Nat) : Prop :=
  Data t (h - n) h ∧ Data t (h - 2 * n - offset) (h - n - offset)

section Exchanged

variable {n offset : Nat} {h : Int} {t t' t'' : Int → Nat}

theorem exchangeable_iff : Exchangeable n offset h t ↔
    (∀ k < n, t (h - n + k) < 256) ∧ ∀ k < n, t (h - 2 * n - offset + k) < 256 := by
  have htop : h - n + n = h := by ring
  have hlow : h - 2 * n - offset + n = h - n - offset := by ring
  rw [← data_iff_forall, ← data_iff_forall, htop, hlow, Exchangeable]

theorem Exchanged.exchangeable (he : Exchanged n offset h t t') (ht : Exchangeable n offset h t) :
    Exchangeable n offset h t' := by
  obtain ⟨htop, hlow⟩ := exchangeable_iff.1 ht
  refine exchangeable_iff.2 ⟨fun k hk => ?_, fun k hk => ?_⟩
  · rw [he.upper k hk]
    exact hlow k hk
  · rw [he.lower k hk]
    exact htop k hk

theorem Exchanged.twice (h₁ : Exchanged n offset h t t') (h₂ : Exchanged n offset h t' t'') :
    t'' = t := by
  funext x
  -- the ranges do not meet, so a cell is in the upper one, in the lower one or in neither
  by_cases htop : h - n ≤ x ∧ x < h
  · obtain ⟨k, rfl⟩ : ∃ k : Nat, x = h - n + k := ⟨(x - (h - n)).toNat, by omega⟩
    rw [h₂.upper k (by omega), h₁.lower k (by omega)]
  · by_cases hlow : h - 2 * n - offset ≤ x ∧ x < h - n - offset
    · obtain ⟨k, rfl⟩ : ∃ k : Nat, x = h - 2 * n - offset + k :=
        ⟨(x - (h - 2 * n - offset)).toNat, by omega⟩
      rw [h₂.lower k (by omega), h₁.upper k (by omega)]
    · rw [h₂.same x (by omega) (by omega), h₁.same x (by omega) (by omega)]

end Exchanged

namespace Compilation

/-- From the entry state of position `j` the machine exchanges two values of `n` bytes that are
`offset` cells apart, and goes on at the next position. -/
structure Exchanges (c : Compilation) (j n offset : Nat) : Prop where
  passes : ∀ (h : Int) (t : Int → Nat), Exchangeable n offset h t →
    ∃ t', c.Passes j h t (j + 1) h t' ∧ Exchanged n offset h t t'
  rejects : ∀ (h : Int) (t : Int → Nat), ¬Exchangeable n offset h t → c.RejectsAt j h t

variable {c : Compilation} {j n offset : Nat}

/-- The second of two equal exchanges undoes the first one. -/
theorem Exchanges.restores (h₁ : c.Exchanges j n offset) (h₂ : c.Exchanges (j + 1) n offset)
    {h : Int} {t : Int → Nat} (ht : Exchangeable n offset h t) : c.Passes j h t (j + 2) h t := by
  obtain ⟨t', hpass, he⟩ := h₁.passes h t ht
  obtain ⟨t'', hpass', he'⟩ := h₂.passes h t' (he.exchangeable ht)
  obtain rfl : t'' = t := he.twice he'
  exact hpass.trans hpass'

theorem Finishes.exchanges {p : Program} {sites : CallSites} {σ : Stage} {i : Instruction}
    {w : Width} (hf : c.Finishes p sites σ) (hi : p[j]? = some i) (hop : i.opcode = .swap w) :
    c.Exchanges j w.bytes i.operand1 := by
  have hnext : i.action sites j = Instruction.action.next j (.swap w i.operand1) := by
    simp only [Instruction.action, hop]
  have hlow : ∀ h : Int, h - (2 * w.bytes + i.operand1 : Nat) = h - 2 * w.bytes - i.operand1 := by
    intro h
    push_cast
    ring
  have htop : ∀ h : Int, h - (w.bytes + i.operand1 : Nat) = h - w.bytes - i.operand1 := by
    intro h
    push_cast
    ring
  have happly := fun (h : Int) (t : Int → Nat) => Action.swap_apply (h := h) (t := t) w i.operand1
  simp only [hlow, htop] at happly
  refine ⟨fun h t ht => ?_, fun h t => (hf.decides_of_next hi hnext (happly h t)).2⟩
  refine ⟨_, (hf.decides_of_next hi hnext (happly h t)).1 ht, fun k hk => ?_, fun k hk => ?_,
    fun x h1 h2 => ?_⟩
  · rw [overlay_apply, if_neg (by omega), overlay_apply, if_pos (by omega)]
    congr 1
    omega
  · rw [overlay_apply, if_pos (by omega)]
    congr 1
    omega
  · rw [overlay_apply, if_neg (by omega), overlay_apply, if_neg (by omega)]

end Compilation

/-- An exchange is exact: it swaps two values, byte by byte, and leaves every other cell as it is.
So two equal exchanges in a row give the tape back. -/
theorem compile_exchanges_values {o : Options} {p : Program} {c : Compilation}
    (hc : compile o p = .ok c) {j : Nat} {i : Instruction} (hi : p[j]? = some i) {w : Width}
    (hop : i.opcode = .swap w) :
    c.Exchanges j w.bytes i.operand1 ∧
      ∀ l, p[j + 1]? = some l → l.opcode = .swap w → l.operand1 = i.operand1 →
        ∀ h t, Exchangeable w.bytes i.operand1 h t → c.Passes j h t (j + 2) h t := by
  obtain ⟨-, sites, σ, hf⟩ := exists_finishes hc
  have hfirst := hf.exchanges hi hop
  refine ⟨hfirst, fun l hl hop' heq h t ht => ?_⟩
  have hsecond := hf.exchanges hl hop'
  rw [heq] at hsecond
  exact hfirst.restores hsecond ht

/-- Two values of two bytes with a marker between them. -/
def valuesApart (x : Int) : Nat :=
  if x = 0 then 1 else if x = 1 then 2 else if x = 2 then Symbol.basePointer else
    if x = 3 then 3 else if x = 4 then 4 else 0

/-- The marker between the values stays, and a second exchange gives the tape back. -/
theorem exchanged_past_marker : ∃ c t',
    compile {} [⟨.swap .w16, 1, 0, 0⟩, ⟨.swap .w16, 1, 0, 0⟩] = .ok c ∧
    c.Passes 0 5 valuesApart 1 5 t' ∧ t' 0 = 3 ∧ t' 1 = 4 ∧ t' 2 = Symbol.basePointer ∧ t' 3 = 1 ∧
    t' 4 = 2 ∧ c.Passes 0 5 valuesApart 2 5 valuesApart := by
  obtain ⟨c, hc⟩ := exists_compile (o := {})
    (p := [⟨.swap .w16, 1, 0, 0⟩, ⟨.swap .w16, 1, 0, 0⟩]) rfl rfl
  have ht : Exchangeable Width.w16.bytes 1 5 valuesApart := ⟨by decide, by decide⟩
  obtain ⟨hexchanges, htwice⟩ := compile_exchanges_values hc (j := 0) rfl rfl
  obtain ⟨t', hpass, he⟩ := hexchanges.passes 5 valuesApart ht
  exact ⟨c, t', hc, hpass, he.lower 0 Nat.zero_lt_two, he.lower 1 Nat.one_lt_two,
    he.same 2 (.inl (by decide)) (.inr (by decide)), he.upper 0 Nat.zero_lt_two,
    he.upper 1 Nat.one_lt_two, htwice _ rfl rfl rfl 5 valuesApart ht⟩

/-! ## Argument markers -/

/-- The argument marker is inserted below a block of bytes, which goes one cell up, whatever the
free cell has held. -/
theorem compile_inserts_argPointer {o : Options} {p : Program} {c : Compilation}
    (hc : compile o p = .ok c) {j : Nat} {i : Instruction} (hi : p[j]? = some i)
    (hop : i.opcode = .makeArgs) (h : Int) (t : Int → Nat) :
    (Data t (h - i.operand1) h →
      ∃ t', c.Passes j h t (j + 1) (h + 1) t' ∧ t' (h - i.operand1) = Symbol.argPointer ∧
        (∀ k < i.operand1, t' (h - i.operand1 + 1 + k) = t (h - i.operand1 + k)) ∧
          ∀ x, x < h - i.operand1 ∨ h < x → t' x = t x) ∧
    (¬Data t (h - i.operand1) h → c.RejectsAt j h t) := by
  obtain ⟨-, sites, σ, hf⟩ := exists_finishes hc
  have hnext : i.action sites j = Instruction.action.next j (.makeArgs i.operand1) := by
    simp only [Instruction.action, hop]
  obtain ⟨hpasses, hrejects⟩ :=
    hf.decides_of_next hi hnext (Action.makeArgs_apply (h := h) (t := t) i.operand1)
  refine ⟨fun hd => ⟨_, hpasses hd, ?_, fun k hk => ?_, fun x hx => ?_⟩, hrejects⟩
  · rw [overlay_apply, if_pos (by omega), if_pos rfl]
  · rw [overlay_apply, if_pos (by omega), if_neg (by omega)]
    congr 1
    omega
  · rw [overlay_apply, if_neg (by omega)]

/-- Two bytes make room for the marker, the upper one on a free cell that holds a marker itself. -/
theorem marker_below_two_bytes : ∃ c t', compile {} [⟨.makeArgs, 2, 0, 0⟩] = .ok c ∧
    c.Passes 0 2 (fun x => if x = 0 then 8 else if x = 1 then 9 else Symbol.basePointer) 1 3 t' ∧
      t' 0 = Symbol.argPointer ∧ t' 1 = 8 ∧ t' 2 = 9 ∧ t' 3 = Symbol.basePointer := by
  obtain ⟨c, hc⟩ := exists_compile (o := {}) (p := [⟨.makeArgs, 2, 0, 0⟩]) rfl rfl
  obtain ⟨t', hpass, hmark, hmoved, hsame⟩ :=
    (compile_inserts_argPointer hc (j := 0) rfl rfl 2 fun x =>
      if x = 0 then 8 else if x = 1 then 9 else Symbol.basePointer).1 (by decide)
  exact ⟨c, t', hc, hpass, hmark, hmoved 0 Nat.zero_lt_two, hmoved 1 Nat.one_lt_two,
    hsame 3 (.inr (by decide))⟩

end StackTape
