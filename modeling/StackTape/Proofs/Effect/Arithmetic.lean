import Mathlib.Data.Nat.Bitwise
import StackTape.Proofs.Gadget.Arithmetic
import StackTape.Proofs.Reference

/-!
# What the operations on numbers do to the tape

Values are read with the least significant byte first. A sum or a difference is formed column by
column; `ChainsTo` relates the columns to the number that they are the bytes of, and `columns_apply`
carries the relation through the chain. A shift is such a chain, too, with the bits that leave a
byte as its carry.
-/

namespace StackTape

variable {h a : Int} {t t' : Int → Nat}

/-! ## Bytes of numbers -/

section Bytes

open Draft

variable {v low x y n i : Nat}

theorem byteAt_eq (v i : Nat) : byteAt v i = v / 256 ^ i % 256 := by
  rw [byteAt, Nat.shiftRight_eq_div_pow, pow_mul]
  rfl

theorem byteAt_zero (hl : low < 256) : byteAt (low + 256 * v) 0 = low := by
  rw [byteAt_eq, pow_zero, Nat.div_one]
  omega

theorem byteAt_succ (hl : low < 256) : byteAt (low + 256 * v) (i + 1) = byteAt v i := by
  have hdiv : (low + 256 * v) / 256 = v := by omega
  rw [byteAt_eq, byteAt_eq, pow_succ', ← Nat.div_div_eq_div_mul, hdiv]

theorem byteAt_mod (hi : i < n) : byteAt (v % 256 ^ n) i = byteAt v i := by
  obtain ⟨d, rfl⟩ := Nat.exists_eq_add_of_lt hi
  have hdvd : 256 ∣ 256 ^ (d + 1) := Dvd.intro_left (256 ^ d) rfl
  rw [byteAt_eq, byteAt_eq, Nat.add_assoc, pow_add, Nat.mod_mul_right_div_self,
    Nat.mod_mod_of_dvd _ hdvd]

theorem byteAt_bitwise {f : Bool → Bool → Bool} (hf : f false false = false) :
    byteAt (Nat.bitwise f x y) i = Nat.bitwise f (byteAt x i) (byteAt y i) := by
  simp only [byteAt, Nat.shiftRight_eq_div_pow, Nat.bitwise_div_two_pow hf]
  exact Nat.bitwise_mod_two_pow (n := 8) hf

theorem value_congr (hc : ∀ c, a ≤ c → c < a + n → t' c = t c) : value t' a n = value t a n := by
  induction n generalizing a with
  | zero => rfl
  | succ n ih =>
    rw [value, value, hc a le_rfl (by omega), ih fun c hac hcn => hc c (by omega) (by omega)]

theorem value_lt (hd : Data t a (a + n)) : value t a n < 256 ^ n := by
  induction n generalizing a with
  | zero => simp [value]
  | succ n ih =>
    have hfirst := hd a le_rfl (by omega)
    have hrest := ih (a := a + 1) fun c hac hcn => hd c (by omega) (by omega)
    rw [value, pow_succ]
    omega

theorem byteAt_value (hd : Data t a (a + n)) (hi : i < n) : byteAt (value t a n) i = t (a + i) := by
  induction n generalizing a i with
  | zero => omega
  | succ n ih =>
    have hfirst := hd a le_rfl (by omega)
    rw [value]
    cases i with
    | zero => rw [byteAt_zero hfirst, Nat.cast_zero, add_zero]
    | succ i =>
      rw [byteAt_succ hfirst, ih (fun c hac hcn => hd c (by omega) (by omega)) (by omega)]
      congr 1
      push_cast
      ring

/-- Writing a number is writing its first byte and then the rest of it. -/
theorem overlay_byteAt_succ (hl : low < 256) :
    overlay t a (a + (n + 1 : Nat)) (fun c => byteAt (low + 256 * v) (c - a).toNat) =
      overlay (Function.update t a low) (a + 1) (a + 1 + n) fun c =>
        byteAt v (c - (a + 1)).toNat := by
  funext c
  rcases lt_trichotomy c a with hc | rfl | hc
  · rw [overlay_apply, overlay_apply, if_neg (by omega), if_neg (by omega),
      Function.update_of_ne (by omega)]
  · rw [overlay_apply, overlay_apply, if_pos (by omega), if_neg (by omega), Function.update_self,
      sub_self]
    exact byteAt_zero hl
  · have hindex : (c - a).toNat = (c - (a + 1)).toNat + 1 := by omega
    rw [overlay_apply, overlay_apply, hindex, byteAt_succ hl, Function.update_of_ne (by omega)]
    congr 1
    apply propext
    omega

end Bytes

/-! ## Sums and differences -/

/-- The columns of two values form the bytes of a number. -/
def ChainsTo (f : Nat → Nat → Nat → Gadget.Column) (R : Nat → Nat → Nat → Nat → Nat) : Prop :=
  ∀ n top lower carry tops lowers, top < 256 → lower < 256 → carry ≤ 1 → tops < 256 ^ n →
    (f top lower carry).result < 256 ∧
      R (n + 1) (lower + 256 * lowers) (top + 256 * tops) carry =
        (f top lower carry).result + 256 * R n lowers tops (f top lower carry).carries.toNat

theorem addColumn_chainsTo :
    ChainsTo Gadget.addColumn fun _ lower top carry => lower + top + carry := by
  intro n top lower carry tops lowers htop hlower hcarry _
  refine ⟨Nat.mod_lt _ (by decide), ?_⟩
  by_cases hx : 256 ≤ top + lower + carry
  all_goals
    simp only [Gadget.addColumn, hx, decide_true, decide_false, Bool.toNat_true, Bool.toNat_false]
    omega

theorem subColumn_chainsTo :
    ChainsTo Gadget.subColumn fun n lower top borrow => lower + 256 ^ n - (top + borrow) := by
  intro n top lower borrow tops lowers htop hlower hborrow htops
  refine ⟨Nat.mod_lt _ (by decide), ?_⟩
  by_cases hx : lower < top + borrow
  all_goals
    simp only [Gadget.subColumn, hx, decide_true, decide_false, Bool.toNat_true, Bool.toNat_false,
      pow_succ]
    omega

namespace Action

theorem column_apply {n : Nat} (hn : 0 < n) (f : Nat → Nat → Nat → Gadget.Column) (carry : Nat) :
    column n f carry h t =
      if t h < 256 ∧ t (h - n) < 256 then
        .leave (f (t h) (t (h - n)) carry).carries (h - n + 1)
          (Function.update (Function.update t h 0) (h - n) (f (t h) (t (h - n)) carry).result)
      else .reject := by
  have hleft : h + Direction.left.offset - (n - 1 : Nat) = h - n := by
    simp only [Direction.offset]
    omega
  have hcell : Function.update t h 0 (h - n) = t (h - n) := Function.update_of_ne (by omega) _ _
  rw [column, byte_bind]
  split
  · rw [walk_left, hleft, byte_bind, hcell]
    split
    · rw [if_pos (by constructor <;> assumption)]
      rfl
    · rw [if_neg (by tauto)]
  · rw [if_neg (by tauto)]

section Columns

variable {f : Nat → Nat → Nat → Gadget.Column} {R : Nat → Nat → Nat → Nat → Nat}

/-- The tape after `r` columns, of values whose lowest bytes are `n` cells apart. -/
def summed (R : Nat → Nat → Nat → Nat → Nat) (n r carry : Nat) (h : Int) (t : Int → Nat) :
    Int → Nat :=
  overlay (overlay t h (h + r) fun _ => 0) (h - n) (h - n + r) fun c =>
    Draft.byteAt (R r (value t (h - n) r) (value t h r) carry) (c - (h - n)).toNat

/-- The first column and the others. -/
theorem summed_succ (hf : ChainsTo f R) {n r carry : Nat} (hr : r < n) (hc : carry ≤ 1)
    (hlow : t (h - n) < 256) (htop : Data t h (h + (r + 1 : Nat))) :
    summed R n (r + 1) carry h t =
      summed R n r (f (t h) (t (h - n)) carry).carries.toNat (h + 1)
        (Function.update (Function.update t h 0) (h - n) (f (t h) (t (h - n)) carry).result) := by
  obtain ⟨hbyte, hchain⟩ := hf r (t h) (t (h - n)) carry (value t (h + 1) r)
    (value t (h - n + 1) r) (data_succ.1 htop).1 hlow hc (value_lt (data_succ.1 htop).2)
  have hnext : h + 1 - n = h - n + 1 := by omega
  let u := Function.update (Function.update t h 0) (h - n) (f (t h) (t (h - n)) carry).result
  have hu : ∀ c, c ≠ h → c ≠ h - n → u c = t c := fun c h1 h2 => by
    simp only [u]
    rw [Function.update_of_ne h2, Function.update_of_ne h1]
  have hlows : value u (h - n + 1) r = value t (h - n + 1) r :=
    value_congr fun c h1 h2 => hu c (by omega) (by omega)
  have htops : value u (h + 1) r = value t (h + 1) r :=
    value_congr fun c h1 h2 => hu c (by omega) (by omega)
  change _ = summed R n r _ (h + 1) u
  unfold summed
  rw [value, value, hchain, hnext, hlows, htops, overlay_byteAt_succ hbyte]
  congr 1
  funext c
  simp only [overlay_apply, u, Function.update_apply]
  grind

theorem columns_apply (hf : ChainsTo f R) {n r : Nat} (hr : r < n) {carry : Nat} (hc : carry ≤ 1) :
    columns n f (r + 1) carry h t =
      if Data t (h - n) (h - n + (r + 1 : Nat)) ∧ Data t h (h + (r + 1 : Nat)) then
        .leave () (h - n + (r + 1 : Nat)) (summed R n (r + 1) carry h t)
      else .reject := by
  have hdata : ∀ (r : Nat) (h : Int) (t : Int → Nat),
      Data t (h - n) (h - n + (r + 1 : Nat)) ∧ Data t h (h + (r + 1 : Nat)) ↔
        (t h < 256 ∧ t (h - n) < 256) ∧
          Data t (h - n + 1) (h - n + 1 + r) ∧ Data t (h + 1) (h + 1 + r) := fun r h t => by
    rw [data_succ, data_succ]
    tauto
  induction r generalizing carry h t with
  | zero =>
    have hcol := column_apply (h := h) (t := t) hr f carry
    rw [columns]
    by_cases hok : t h < 256 ∧ t (h - n) < 256
    · have hall := (hdata 0 h t).2 ⟨hok, data_of_le (by simp), data_of_le (by simp)⟩
      rw [if_pos hok] at hcol
      rw [bind_apply_of_leave hcol, if_pos hall, summed_succ hf hr hc hok.2 hall.2]
      simp [summed, overlay_of_le]
    · rw [if_neg hok] at hcol
      rw [bind_apply_of_reject hcol, if_neg fun hd => hok ((hdata 0 h t).1 hd).1]
  | succ r ih =>
    have hcol := column_apply (h := h) (t := t) (by omega : 0 < n) f carry
    have hback : h - n + 1 + n = h + 1 := by omega
    have hnext : h + 1 - n = h - n + 1 := by omega
    rw [columns]
    by_cases hok : t h < 256 ∧ t (h - n) < 256
    · rw [if_pos hok] at hcol
      rw [bind_apply_of_leave hcol, walk_right, hback, ih (by omega) (Bool.toNat_le _), hnext]
      -- the other columns have not been touched
      have hrest : Data (Function.update (Function.update t h 0) (h - n)
            (f (t h) (t (h - n)) carry).result) (h - n + 1) (h - n + 1 + (r + 1 : Nat)) ∧
          Data (Function.update (Function.update t h 0) (h - n)
            (f (t h) (t (h - n)) carry).result) (h + 1) (h + 1 + (r + 1 : Nat)) ↔
          Data t (h - n) (h - n + (r + 1 + 1 : Nat)) ∧ Data t h (h + (r + 1 + 1 : Nat)) := by
        rw [hdata, and_iff_right hok]
        refine and_congr (data_congr fun c h1 h2 => ?_) (data_congr fun c h1 h2 => ?_)
        all_goals rw [Function.update_of_ne (by omega), Function.update_of_ne (by omega)]
      by_cases hall : Data t (h - n) (h - n + (r + 1 + 1 : Nat)) ∧ Data t h (h + (r + 1 + 1 : Nat))
      · rw [if_pos (hrest.2 hall), if_pos hall, summed_succ hf hr hc hok.2 hall.2]
        congr 1
        push_cast
        ring
      · rw [if_neg fun hd => hall (hrest.1 hd), if_neg hall]
    · rw [if_neg hok] at hcol
      rw [bind_apply_of_reject hcol, if_neg fun hd => hok ((hdata _ h t).1 hd).1]

theorem carryChain_apply (hf : ChainsTo f R) {w : Width} {op : BinOp}
    (hop : ∀ lower top, R w.bytes lower top 0 % 256 ^ w.bytes = op.eval w.bytes lower top) :
    carryChain w f h t =
      if Data t (h - (2 * w.bytes : Nat)) h then
        .leave () (h - w.bytes) (replaceTwo t h w.bytes (op.eval w.bytes
          (value t (h - (2 * w.bytes : Nat)) w.bytes) (value t (h - w.bytes) w.bytes)))
      else .reject := by
  have hlow : h - w.bytes - w.bytes = h - (2 * w.bytes : Nat) := by omega
  have hdata : Data t (h - (2 * w.bytes : Nat)) (h - w.bytes) ∧ Data t (h - w.bytes) h ↔
      Data t (h - (2 * w.bytes : Nat)) h := by
    constructor
    · rintro ⟨hlow, htop⟩ c h1 h2
      rcases lt_or_ge c (h - w.bytes) with hc | hc
      · exact hlow c h1 hc
      · exact htop c hc h2
    · intro hd
      exact ⟨fun c h1 h2 => hd c h1 (by omega), fun c h1 h2 => hd c (by omega) h2⟩
  have hcols := columns_apply (h := h - w.bytes) (t := t) hf (n := w.bytes) (r := w.bytes - 1)
    (by have := w.bytes_pos; omega) (Nat.zero_le 1)
  rw [Nat.sub_add_cancel w.bytes_pos, summed, sub_add_cancel, sub_add_cancel, hlow] at hcols
  rw [carryChain, walk_left, hcols]
  simp only [hdata]
  split
  · -- the bytes of a number that does not fit are those of its remainder
    congr 1
    refine overlay_congr fun c h1 h2 => ?_
    rw [← hop, byteAt_mod (by omega)]
  · rfl

end Columns

/-! ## Bitwise operations -/

section Bitwise

variable {op : Nat → Nat → Nat}

theorem combineByte_apply (w : Width) :
    combineByte w op h t =
      if t h < 256 ∧ t (h - w.bytes) < 256 then
        .leave () (h - w.bytes + 1) (Function.update (Function.update t h 0) (h - w.bytes)
          (op (t h) (t (h - w.bytes))))
      else .reject := by
  -- a column that never carries
  have hcol : combineByte w op = do
      let _ ← column w.bytes (fun top lower _ => ⟨op top lower, false⟩) 0
      return () := by
    simp only [combineByte, column, bind_assoc, pure_bind]
  have happly := column_apply (h := h) (t := t) w.bytes_pos
    (fun top lower _ => ⟨op top lower, false⟩) 0
  rw [hcol]
  split_ifs at happly ⊢
  · rw [bind_apply_of_leave happly]
    rfl
  · rw [bind_apply_of_reject happly]

theorem bitwise_apply_cells (w : Width) :
    bitwise w op h t =
      if Data t (h - (2 * w.bytes : Nat)) h then
        .leave () (h - w.bytes)
          (overlay (overlay t (h - w.bytes) h fun _ => 0) (h - (2 * w.bytes : Nat)) (h - w.bytes)
            fun c => op (t (c + w.bytes)) (t c))
      else .reject := by
  have hw := w.bytes_pos
  have hdata : Data t (h - (2 * w.bytes : Nat)) h ↔
      ∀ j < w.bytes, t (h - 1 - j) < 256 ∧ t (h - 1 - j - w.bytes) < 256 := by
    have hlow : h - (2 * w.bytes : Nat) = h - w.bytes - w.bytes := by omega
    have hcells : ∀ j : Nat, h - j - 1 = h - 1 - j ∧ h - w.bytes - j - 1 = h - 1 - j - w.bytes :=
      fun j => ⟨by ring, by ring⟩
    rw [hlow, data_split (m := h - w.bytes) (by omega) (by omega), data_iff_forall_below,
      data_iff_forall_below]
    simp only [hcells, ← forall_and, and_comm]
  -- the tape after `j` bytes from the top
  let tape : Nat → Int → Nat := fun j =>
    overlay (overlay t (h - j) h fun _ => 0) (h - w.bytes - j) (h - w.bytes)
      fun c => op (t (c + w.bytes)) (t c)
  have hcell : ∀ j : Nat, j < w.bytes → tape j (h - 1 - j) = t (h - 1 - j) ∧
      tape j (h - 1 - j - w.bytes) = t (h - 1 - j - w.bytes) := fun j hj => by
    simp only [tape, overlay_apply]
    constructor <;> rw [if_neg (by omega), if_neg (by omega)]
  have hlink : ∀ j : Nat, j < w.bytes → combineByte w op (h - 1 - j) (tape j) =
      if t (h - 1 - j) < 256 ∧ t (h - 1 - j - w.bytes) < 256 then
        .leave () (h - 1 - j - w.bytes + 1) (tape (j + 1))
      else .reject := fun j hj => by
    obtain ⟨htop, hlow⟩ := hcell j hj
    rw [combineByte_apply, htop, hlow]
    congr 2
    funext c
    simp only [tape, overlay_apply, Function.update_apply]
    grind
  have hend : tape w.bytes = overlay (overlay t (h - w.bytes) h fun _ => 0)
      (h - (2 * w.bytes : Nat)) (h - w.bytes) fun c => op (t (c + w.bytes)) (t c) := by
    simp only [tape]
    congr 1
    omega
  have hstart : tape 0 = t := by
    simp [tape, overlay_of_le]
  rw [bitwise, walk_left, ← hend]
  by_cases hw8 : w = .w8
  · have hone : w.bytes = 1 := congrArg Width.bytes hw8
    have hall : (∀ j < w.bytes, t (h - 1 - j) < 256 ∧ t (h - 1 - j - w.bytes) < 256) ↔
        t (h - 1 - (0 : Nat)) < 256 ∧ t (h - 1 - (0 : Nat) - w.bytes) < 256 := by
      simp only [hone, Nat.lt_one_iff, forall_eq]
    have hfirst := hlink 0 hw
    rw [hstart] at hfirst
    simp only [if_pos hw8, hdata, hall]
    have hhead : h - (1 : Nat) = h - 1 - (0 : Nat) := by simp
    rw [hhead, hfirst]
    congr 2
    · omega
    · rw [hone]
  · have htwo : 2 ≤ w.bytes := by
      cases w <;> first | exact absurd rfl hw8 | decide
    have hmove : ∀ j : Nat, h - 1 - j - w.bytes + 1 + (w.bytes - 2 : Nat) = h - 1 - (j + 1 : Nat) :=
      fun j => by omega
    have hall : sequence (fun _ => do combineByte w op; walk .right (w.bytes - 2)) w.bytes 0
        (h - 1) t = if ∀ j < w.bytes, t (h - 1 - j) < 256 ∧ t (h - 1 - j - w.bytes) < 256 then
          .leave () (h - 1 - w.bytes) (tape w.bytes) else .reject := by
      refine sequence_apply (fun j => h - 1 - j) tape _ w.bytes (by simp) hstart ?_ ?_
      · intro j hj _ hok
        have hj' := hlink j hj
        rw [if_pos hok] at hj'
        rw [bind_apply_of_leave hj', walk_apply, ← hmove, Direction.offset, mul_one]
      · intro j hj _ hbad
        have hj' := hlink j hj
        rw [if_neg hbad] at hj'
        rw [bind_apply_of_reject hj']
    rw [sequence_const] at hall
    simp only [if_neg hw8, Nat.cast_one, hdata]
    split_ifs at hall ⊢
    · rw [bind_apply_of_leave hall, walk_apply]
      congr 1
      simp only [Direction.offset]
      omega
    · rw [bind_apply_of_reject hall]

theorem bitwise_apply {f : Bool → Bool → Bool} (hf : f false false = false)
    (hcomm : ∀ a b, f a b = f b a) {w : Width} {op : BinOp}
    (hop : ∀ lower top, Nat.bitwise f lower top = op.eval w.bytes lower top) :
    bitwise w (Nat.bitwise f) h t =
      if Data t (h - (2 * w.bytes : Nat)) h then
        .leave () (h - w.bytes) (replaceTwo t h w.bytes (op.eval w.bytes
          (value t (h - (2 * w.bytes : Nat)) w.bytes) (value t (h - w.bytes) w.bytes)))
      else .reject := by
  rw [bitwise_apply_cells]
  split
  · next hd =>
    congr 1
    refine overlay_congr fun c h1 h2 => ?_
    rw [← hop, byteAt_bitwise hf, byteAt_value (fun c h1 h2 => hd c (by omega) (by omega))
      (by omega), byteAt_value (fun c h1 h2 => hd c (by omega) (by omega)) (by omega),
      Nat.bitwise_comm hcomm]
    congr 2 <;> omega
  · rfl

end Bitwise

theorem binary_apply (op : BinOp) (w : Width) :
    binary op w h t =
      if Data t (h - (2 * w.bytes : Nat)) h then
        .leave () (h - w.bytes) (replaceTwo t h w.bytes (op.eval w.bytes
          (value t (h - (2 * w.bytes : Nat)) w.bytes) (value t (h - w.bytes) w.bytes)))
      else .reject := by
  cases op with
  | add => exact carryChain_apply addColumn_chainsTo fun _ _ => rfl
  | sub => exact carryChain_apply subColumn_chainsTo fun _ _ => rfl
  | and => exact bitwise_apply rfl Bool.and_comm fun _ _ => rfl
  | or => exact bitwise_apply rfl Bool.or_comm fun _ _ => rfl
  | xor => exact bitwise_apply rfl Bool.xor_comm fun _ _ => rfl

/-! ## Shifts -/

section Shift

variable {amount : Nat} (ha : amount ≤ 8)

include ha

theorem shiftByte_eq {below : Nat} (hb : below < 256) (v : Nat) :
    Gadget.shiftByte amount below v = below * 2 ^ amount / 256 + v * 2 ^ amount % 256 := by
  have hpow : 2 ^ amount ≤ 2 ^ 8 := Nat.pow_le_pow_right (by decide) ha
  have hsplit : 256 = 2 ^ (8 - amount) * 2 ^ amount := by
    rw [← pow_add, Nat.sub_add_cancel ha]
    rfl
  -- the bits that come in find only zeros
  have hin : below * 2 ^ amount / 256 < 2 ^ amount := by
    rw [Nat.div_lt_iff_lt_mul (by decide), Nat.mul_comm]
    exact Nat.mul_lt_mul_of_pos_left hb (Nat.two_pow_pos _)
  have hout : v * 2 ^ amount % 256 = 2 ^ amount * (v % 2 ^ (8 - amount)) := by
    conv_lhs => rw [hsplit]
    rw [Nat.mul_mod_mul_right, Nat.mul_comm]
  rw [Gadget.shiftByte, Nat.shiftLeft_eq, Nat.shiftLeft_eq, Nat.mod_eq_of_lt (by omega), hout,
    Nat.or_comm, ← Nat.two_pow_add_eq_or_of_lt hin, Nat.add_comm]

theorem shiftColumns_apply (r : Nat) (below : Fin 256) :
    shiftColumns amount r below h t =
      if Data t h (h + (r + 1 : Nat)) then
        .leave () (h + (r + 1 : Nat)) (overlay t h (h + (r + 1 : Nat)) fun c =>
          Draft.byteAt (value t h (r + 1) * 2 ^ amount + below * 2 ^ amount / 256) (c - h).toNat)
      else .reject := by
  -- a column gives a byte of the number and the bits that go on to the others
  have hnumber : ∀ (below v : Fin 256) (rest : Nat),
      (v + 256 * rest) * 2 ^ amount + below * 2 ^ amount / 256 =
        Gadget.shiftByte amount below v + 256 * (rest * 2 ^ amount + v * 2 ^ amount / 256) := by
    intro below v rest
    rw [shiftByte_eq ha below.isLt, Nat.add_mul, Nat.mul_assoc]
    omega
  have hright : ∀ c : Int, c + Direction.right.offset = c + 1 := fun _ => rfl
  induction r generalizing below h t with
  | zero =>
    rw [shiftColumns, byte_bind, hright]
    split
    · next hv =>
      rw [if_pos (data_succ.2 ⟨hv, data_of_le (by simp)⟩), value, hnumber below ⟨t h, hv⟩,
        overlay_byteAt_succ (Gadget.shiftByte_lt ..), overlay_of_le (by simp)]
      rfl
    · next hv => rw [if_neg fun hd => hv (data_succ.1 hd).1]
  | succ r ih =>
    rw [shiftColumns, byte_bind, hright]
    split
    · next hv =>
      have hrest : ∀ x c, h + 1 ≤ c → Function.update t h x c = t c := fun x c hc =>
        Function.update_of_ne (by omega) _ _
      rw [ih, value_congr fun c hc _ => hrest _ c hc, value.eq_def t h]
      simp only [data_succ (n := r + 1), data_congr fun c hc _ => hrest _ c hc, hv, true_and]
      rw [hnumber below ⟨t h, hv⟩, overlay_byteAt_succ (Gadget.shiftByte_lt ..)]
      split
      · congr 1
        push_cast
        ring
      · rfl
    · next hv => rw [if_neg fun hd => hv (data_succ.1 hd).1]

theorem indexShift_apply :
    indexShift amount h t =
      if Data t (h - 4) h then
        .leave () h (overlay t (h - 4) h fun c =>
          Draft.byteAt (value t (h - 4) 4 * 2 ^ amount % 2 ^ 32) (c - (h - 4)).toNat)
      else .reject := by
  -- nothing comes in from below the lowest byte
  have hfirst : indexShift amount = walk .left 4 >>= fun _ => shiftColumns amount 3 0 := by
    simp [indexShift, shiftColumns, Gadget.shiftByte]
  have hend : h - 4 + (3 + 1 : Nat) = h := by omega
  rw [hfirst, walk_left, Nat.cast_ofNat, shiftColumns_apply ha, hend]
  congr 2
  refine overlay_congr fun c h1 h2 => ?_
  have hbound : (2 ^ 32 : Nat) = 256 ^ 4 := by decide
  rw [hbound, byteAt_mod (by omega), Fin.val_zero, Nat.zero_mul, Nat.zero_div, Nat.add_zero]

end Shift

end Action

end StackTape
