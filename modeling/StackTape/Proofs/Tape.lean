import Mathlib.Data.Int.Range
import StackTape.Proofs.Action

/-!
# Ranges of cells and markers on a tape

Ranges are given by their first cell and the cell after their last one. `Data` says that a range
holds bytes, `overlay` replaces it, `value` reads a number from it. `nearest?` is the marker that a
search to the left finds; the last part evaluates searches and sequences of actions.
-/

namespace StackTape

variable {t : Int → Nat} {a b c h m : Int} {symbol : Nat}

/-- The cells from `a` on, before `b`, hold bytes. -/
def Data (t : Int → Nat) (a b : Int) : Prop := ∀ c, a ≤ c → c < b → t c < 256

instance (t : Int → Nat) (a b : Int) : Decidable (Data t a b) := Int.decidableLELT _ a b

/-- The tape with the cells from `a` on, before `b`, replaced. -/
def overlay (t : Int → Nat) (a b : Int) (f : Int → Nat) : Int → Nat := fun c =>
  if a ≤ c ∧ c < b then f c else t c

/-- The number whose bytes are in the `n` cells from `a` on, least significant first. -/
def value (t : Int → Nat) (a : Int) : (n : Nat) → Nat
  | 0 => 0
  | n + 1 => t a + 256 * value t (a + 1) n

/-- The bookmark is nowhere on the tape. -/
def Unmarked (t : Int → Nat) : Prop := ∀ c, t c ≠ Symbol.bookmark

theorem overlay_apply (t : Int → Nat) (a b : Int) (f : Int → Nat) (c : Int) :
    overlay t a b f c = if a ≤ c ∧ c < b then f c else t c := rfl

theorem overlay_of_le {f : Int → Nat} (h : b ≤ a) : overlay t a b f = t := by
  funext c
  rw [overlay_apply, if_neg (by omega)]

theorem overlay_of_outside {f : Int → Nat} {c : Int} (h : c < a ∨ b ≤ c) :
    overlay t a b f c = t c := by
  rw [overlay_apply, if_neg (by omega)]

/-- Cells that are copied keep their order. -/
theorem overlay_shift {k n : Nat} (hk : k < n) :
    overlay t b (b + n) (fun c => t (c - (b - a))) (b + k) = t (a + k) := by
  rw [overlay_apply, if_pos (by omega)]
  congr 1
  omega

theorem overlay_congr {f g : Int → Nat} (h : ∀ c, a ≤ c → c < b → f c = g c) :
    overlay t a b f = overlay t a b g := by
  funext c
  simp only [overlay_apply]
  split
  · next hc => exact h c hc.1 hc.2
  · rfl

theorem unmarked_overlay {f : Int → Nat} (ht : Unmarked t)
    (hf : ∀ c, a ≤ c → c < b → f c ≠ Symbol.bookmark) : Unmarked (overlay t a b f) := by
  intro c
  rw [overlay_apply]
  split
  · next hc => exact hf c hc.1 hc.2
  · exact ht c

theorem unmarked_update {v : Nat} (ht : Unmarked t) (hv : v ≠ Symbol.bookmark) :
    Unmarked (Function.update t a v) := by
  intro c
  rw [Function.update_apply]
  split
  · exact hv
  · exact ht c

theorem ne_bookmark_of_lt {v : Nat} (hv : v < 256) : v ≠ Symbol.bookmark := by
  simp only [Symbol.bookmark]
  omega

theorem unmarked_of_eq_or_lt {t' : Int → Nat} (ht : Unmarked t)
    (h : ∀ c, t' c = t c ∨ t' c < 256) : Unmarked t' := by
  intro c
  rcases h c with heq | hlt
  · rw [heq]
    exact ht c
  · exact ne_bookmark_of_lt hlt

theorem data_of_le (h : b ≤ a) : Data t a b := fun c hac hcb => by omega

theorem data_iff_forall {n : Nat} : Data t a (a + n) ↔ ∀ j < n, t (a + j) < 256 := by
  constructor
  · intro h j hj
    exact h _ (by omega) (by omega)
  · intro h c hac hcb
    have := h (c - a).toNat (by omega)
    rwa [Int.toNat_of_nonneg (by omega), add_sub_cancel] at this

theorem data_iff_forall_below {n : Nat} : Data t (b - n) b ↔ ∀ j < n, t (b - j - 1) < 256 := by
  constructor
  · intro h j hj
    exact h _ (by omega) (by omega)
  · intro h c hac hcb
    have := h (b - 1 - c).toNat (by omega)
    rwa [Int.toNat_of_nonneg (by omega), (by ring : b - (b - 1 - c) - 1 = c)] at this

theorem data_split {m : Int} (ha : a ≤ m) (hb : m ≤ b) : Data t a b ↔ Data t a m ∧ Data t m b := by
  constructor
  · intro h
    exact ⟨fun c hac hcm => h c hac (by omega), fun c hmc hcb => h c (by omega) hcb⟩
  · rintro ⟨hl, hr⟩ c hac hcb
    rcases lt_or_ge c m with hcm | hmc
    · exact hl c hac hcm
    · exact hr c hmc hcb

theorem data_succ {n : Nat} :
    Data t a (a + (n + 1 : Nat)) ↔ t a < 256 ∧ Data t (a + 1) (a + 1 + n) := by
  constructor
  · intro h
    exact ⟨h a le_rfl (by omega), fun c hac hcb => h c (by omega) (by omega)⟩
  · rintro ⟨ha, h⟩ c hac hcb
    rcases eq_or_lt_of_le hac with rfl | hlt
    · exact ha
    · exact h c hlt (by omega)

theorem data_congr {t' : Int → Nat} (h : ∀ c, a ≤ c → c < b → t' c = t c) :
    Data t' a b ↔ Data t a b := by
  unfold Data
  refine forall_congr' fun c => forall_congr' fun hac => forall_congr' fun hcb => ?_
  rw [h c hac hcb]

/-! ## Markers -/

/-- The cell `m` is the last one before `h` that holds the symbol. -/
structure IsNearest (t : Int → Nat) (symbol : Nat) (h m : Int) : Prop where
  lt : m < h
  holds : t m = symbol
  free : ∀ c, m < c → c < h → t c ≠ symbol

theorem IsNearest.unique {m' : Int} (h₁ : IsNearest t symbol h m) (h₂ : IsNearest t symbol h m') :
    m = m' := by
  rcases lt_trichotomy m m' with hlt | heq | hlt
  · exact absurd h₂.holds (h₁.free m' hlt h₂.lt)
  · exact heq
  · exact absurd h₁.holds (h₂.free m hlt h₁.lt)

/-- Only the cells before the head count. -/
theorem IsNearest.congr {t' : Int → Nat} (hn : IsNearest t symbol h m)
    (hm : t' m = t m) (hc : ∀ c, m < c → c < h → t' c = t c ∨ t' c ≠ symbol) :
    IsNearest t' symbol h m where
  lt := hn.lt
  holds := hm.trans hn.holds
  free c hmc hch := by
    rcases hc c hmc hch with heq | hne
    · rw [heq]
      exact hn.free c hmc hch
    · exact hne

/-- A marker is not among the bytes on top. -/
theorem IsNearest.lt_of_data (hn : IsNearest t symbol h m) (hs : 256 ≤ symbol) (hd : Data t b h) :
    m < b := by
  by_contra hle
  have hbyte := hd m (by omega) hn.lt
  rw [hn.holds] at hbyte
  omega

theorem exists_isNearest (hc : c < h) (hs : t c = symbol) : ∃ m, IsNearest t symbol h m := by
  classical
  have hx : ∃ n : Nat, t (h - 1 - n) = symbol :=
    ⟨(h - 1 - c).toNat, by rwa [Int.toNat_of_nonneg (by omega), Int.sub_sub_self]⟩
  refine ⟨h - 1 - Nat.find hx, by omega, Nat.find_spec hx, fun c hlt hch hs => ?_⟩
  have hmin := Nat.find_min hx (m := (h - 1 - c).toNat) (by omega)
  rw [Int.toNat_of_nonneg (by omega), Int.sub_sub_self] at hmin
  exact hmin hs

open Classical in
/-- The last cell before `h` that holds the symbol, if there is one. -/
noncomputable def nearest? (t : Int → Nat) (symbol : Nat) (h : Int) : Option Int :=
  if hx : ∃ m, IsNearest t symbol h m then some hx.choose else none

theorem nearest?_eq_some_iff : nearest? t symbol h = some m ↔ IsNearest t symbol h m := by
  unfold nearest?
  constructor
  · intro heq
    split at heq
    · next hx =>
      cases heq
      exact hx.choose_spec
    · cases heq
  · intro hn
    have hx : ∃ m, IsNearest t symbol h m := ⟨m, hn⟩
    rw [dif_pos hx, hx.choose_spec.unique hn]

theorem nearest?_eq_none_iff : nearest? t symbol h = none ↔ ∀ c, c < h → t c ≠ symbol := by
  unfold nearest?
  constructor
  · intro heq c hc hs
    rw [dif_pos (exists_isNearest hc hs)] at heq
    cases heq
  · intro hno
    refine dif_neg ?_
    rintro ⟨m, hn⟩
    exact hno m hn.lt hn.holds

theorem nearest?_congr {t' : Int → Nat} (hc : ∀ c, c < h → (t c = symbol ↔ t' c = symbol)) :
    nearest? t symbol h = nearest? t' symbol h := by
  ext m
  rw [nearest?_eq_some_iff, nearest?_eq_some_iff]
  constructor
  · rintro ⟨hlt, hm, hfree⟩
    exact ⟨hlt, (hc m hlt).1 hm, fun c hmc hch heq => hfree c hmc hch ((hc c hch).2 heq)⟩
  · rintro ⟨hlt, hm, hfree⟩
    exact ⟨hlt, (hc m hlt).2 hm, fun c hmc hch heq => hfree c hmc hch ((hc c hch).1 heq)⟩

/-- A byte under the head does not count. -/
theorem nearest?_of_byte (hb : t (h - 1) < 256) (hs : 256 ≤ symbol) :
    nearest? t symbol (h - 1) = nearest? t symbol h := by
  cases hn : nearest? t symbol (h - 1) with
  | some m =>
    have hm := nearest?_eq_some_iff.1 hn
    refine (nearest?_eq_some_iff.2 ⟨?_, hm.holds, fun c hmc hch => ?_⟩).symm
    · have := hm.lt
      omega
    · rcases lt_or_eq_of_le (Int.le_sub_one_of_lt hch) with hlt | rfl
      · exact hm.free c hmc hlt
      · omega
  | none =>
    have hno := nearest?_eq_none_iff.1 hn
    refine (nearest?_eq_none_iff.2 fun c hch => ?_).symm
    rcases lt_or_eq_of_le (Int.le_sub_one_of_lt hch) with hlt | rfl
    · exact hno c hlt
    · omega

namespace Action

/-! ## Single steps -/

section Step

variable {ε : Type}

theorem walk_bind (move : Direction) (n : Nat) (f : Unit → Action ε) :
    (walk move n >>= f) h t = f () (h + n * move.offset) t := rfl

theorem write_bind (s : Nat) (move : Direction) (f : Unit → Action ε) :
    (write s move >>= f) h t = f () (h + move.offset) (Function.update t h s) := rfl

theorem byte_bind (out : Fin 256 → Nat) (move : Direction) (f : Fin 256 → Action ε) :
    (byte out move >>= f) h t =
      if hb : t h < 256 then
        f ⟨t h, hb⟩ (h + move.offset) (Function.update t h (out ⟨t h, hb⟩))
      else .reject := by
  by_cases hb : t h < 256
  · rw [bind_apply_of_leave (byte_apply hb), dif_pos hb]
  · rw [bind_apply_of_reject (byte_apply_of_le (Nat.not_lt.1 hb)), dif_neg hb]

theorem walk_left (n : Nat) (f : Unit → Action ε) :
    (walk .left n >>= f) h t = f () (h - n) t := by
  rw [walk_bind, Direction.offset, mul_neg_one, ← sub_eq_add_neg]

theorem walk_right (n : Nat) (f : Unit → Action ε) :
    (walk .right n >>= f) h t = f () (h + n) t := by
  rw [walk_bind, Direction.offset, mul_one]

end Step

/-! ## Searches -/

section Search

variable {miss hit : Action Unit} {h' : Int} {t' : Int → Nat} {output : Nat} {move : Direction}

theorem search_apply_of_eq (hs : t h = symbol) (hh : hit h t = .leave () h' t') :
    search symbol miss hit h t = .leave () h' t' := by
  refine loop_leave ?_
  rw [if_pos hs, bind_apply_of_leave hh]
  rfl

theorem search_apply_of_ne (hs : t h ≠ symbol) (hm : miss h t = .leave () h' t') :
    search symbol miss hit h t = search symbol miss hit h' t' := by
  refine loop_again ?_
  rw [if_neg hs, bind_apply_of_leave hm]
  rfl

theorem search_apply_of_invariant (inv : Int → (Int → Nat) → Prop)
    (hstep : ∀ h t, inv h t → t h ≠ symbol ∧ ∃ h' t', miss h t = .leave () h' t' ∧ inv h' t')
    (hi : inv h t) : search symbol miss hit h t = .hang := by
  refine loop_apply_of_invariant (fun _ => inv) (fun _ h t hi => ?_) hi
  obtain ⟨hs, h', t', hm, hi'⟩ := hstep h t hi
  refine ⟨(), h', t', ?_, hi'⟩
  rw [if_neg hs, bind_apply_of_leave hm]
  rfl

theorem find_left (hn : IsNearest t symbol (h + 1) m) :
    find .left symbol output move h t =
      .leave () (m + move.offset) (Function.update t m output) := by
  obtain ⟨n, hn'⟩ : ∃ n : Nat, h = m + n := ⟨(h - m).toNat, by have := hn.lt; omega⟩
  induction n generalizing h with
  | zero =>
    obtain rfl : h = m := by simpa using hn'
    exact search_apply_of_eq hn.holds rfl
  | succ n ih =>
    have hne : t h ≠ symbol := hn.free h (by omega) (by omega)
    have hstep : walk .left 1 h t = .leave () (h - 1) t := by
      rw [walk_apply]
      simp [Direction.offset, Int.sub_eq_add_neg]
    rw [find, search_apply_of_ne hne hstep]
    refine ih ⟨by omega, hn.holds, fun c hmc hch => hn.free c hmc (by omega)⟩ (by omega)

theorem find_left_hang (hno : ∀ c, c ≤ h → t c ≠ symbol) :
    find .left symbol output move h t = .hang := by
  refine search_apply_of_invariant (fun h t => ∀ c, c ≤ h → t c ≠ symbol) (fun h t hi => ?_) hno
  refine ⟨hi h le_rfl, _, _, rfl, fun c hc => hi c ?_⟩
  simp only [Direction.offset] at hc
  omega

theorem find_right (hmh : h ≤ m) (hs : t m = symbol) (hfree : ∀ c, h ≤ c → c < m → t c ≠ symbol) :
    find .right symbol output move h t =
      .leave () (m + move.offset) (Function.update t m output) := by
  obtain ⟨n, hn'⟩ : ∃ n : Nat, m = h + n := ⟨(m - h).toNat, by omega⟩
  induction n generalizing h with
  | zero =>
    obtain rfl : m = h := by simpa using hn'
    exact search_apply_of_eq hs rfl
  | succ n ih =>
    have hne : t h ≠ symbol := hfree h le_rfl (by omega)
    have hstep : walk .right 1 h t = .leave () (h + 1) t := by
      rw [walk_apply]
      simp [Direction.offset]
    rw [find, search_apply_of_ne hne hstep]
    exact ih (by omega) (fun c hc hcm => hfree c (by omega) hcm) (by omega)

theorem find_right_hang (hno : ∀ c, h ≤ c → t c ≠ symbol) :
    find .right symbol output move h t = .hang := by
  refine search_apply_of_invariant (fun h t => ∀ c, h ≤ c → t c ≠ symbol) (fun h t hi => ?_) hno
  refine ⟨hi h le_rfl, _, _, rfl, fun c hc => hi c ?_⟩
  simp only [Direction.offset] at hc
  omega

end Search

/-! ## Sequences -/

section Sequence

variable {link : Nat → Action Unit} (head : Nat → Int) (tape : Nat → Int → Nat)

/-- A sequence of actions each of which either goes on from where the one before it has left, or
rejects. -/
theorem sequence_apply (ok : Nat → Prop) [DecidablePred ok] (n : Nat) (hh : head 0 = h)
    (ht : tape 0 = t)
    (hok : ∀ j < n, (∀ i < j, ok i) → ok j →
      link j (head j) (tape j) = .leave () (head (j + 1)) (tape (j + 1)))
    (hbad : ∀ j < n, (∀ i < j, ok i) → ¬ok j → link j (head j) (tape j) = .reject) :
    sequence link n 0 h t = if ∀ j < n, ok j then .leave () (head n) (tape n) else .reject := by
  subst hh ht
  suffices h : ∀ (n i : Nat), (∀ j, j < i + n → (∀ k < j, ok k) → ok j →
        link j (head j) (tape j) = .leave () (head (j + 1)) (tape (j + 1))) →
      (∀ j, j < i + n → (∀ k < j, ok k) → ¬ok j → link j (head j) (tape j) = .reject) →
      (∀ k < i, ok k) → sequence link n i (head i) (tape i) =
        if ∀ j < i + n, ok j then .leave () (head (i + n)) (tape (i + n)) else .reject by
    simpa using h n 0 (by simpa using hok) (by simpa using hbad) (by simp)
  intro n
  induction n with
  | zero =>
    intro i _ _ hi
    rw [if_pos (by simpa using hi)]
    rfl
  | succ n ih =>
    intro i hok hbad hi
    by_cases hoki : ok i
    · have hi' : ∀ k < i + 1, ok k := by
        intro k hk
        rcases Nat.lt_succ_iff_lt_or_eq.1 hk with hlt | rfl
        · exact hi k hlt
        · exact hoki
      rw [sequence, bind_apply_of_leave (hok i (by omega) hi hoki)]
      have := ih (i + 1) (fun j hj => hok j (by omega)) (fun j hj => hbad j (by omega)) hi'
      rwa [Nat.add_right_comm i 1 n] at this
    · rw [sequence, bind_apply_of_reject (hbad i (by omega) hi hoki),
        if_neg fun h => hoki (h i (by omega))]

/-- Where the first action does not go on, the others do not count. -/
theorem sequence_reject {n : Nat} (hn : 0 < n) (hr : link 0 h t = .reject) :
    sequence link n 0 h t = .reject := by
  obtain ⟨m, rfl⟩ := Nat.exists_eq_add_one_of_ne_zero hn.ne'
  exact bind_apply_of_reject hr

theorem sequence_hang {n : Nat} (hn : 0 < n) (hr : link 0 h t = .hang) :
    sequence link n 0 h t = .hang := by
  obtain ⟨m, rfl⟩ := Nat.exists_eq_add_one_of_ne_zero hn.ne'
  exact bind_apply_of_hang hr

/-- The same without rejection. -/
theorem sequence_leave (n : Nat) (hh : head 0 = h) (ht : tape 0 = t)
    (hok : ∀ j < n, link j (head j) (tape j) = .leave () (head (j + 1)) (tape (j + 1))) :
    sequence link n 0 h t = .leave () (head n) (tape n) := by
  rw [sequence_apply head tape (fun _ => True) n hh ht (fun j hj _ _ => hok j hj)
    (fun _ _ _ h => absurd trivial h), if_pos fun _ _ => trivial]

end Sequence

end Action

end StackTape
