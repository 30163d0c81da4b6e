import StackTape.Proofs.Gadget.Variable
import StackTape.Proofs.Reference

/-!
# What accesses to variables do to the tape

A variable is found from the nearest marker of its frame. Its bytes are copied one after the other,
so where the ranges overlap a byte may be taken that has just been put down: `copyBytes` and
`popBytes` are the tapes along the way. A direct access that does not stay below the head loses its
bookmark, and the run never ends.
-/

namespace StackTape

variable {h m : Int} {t : Int → Nat} {marker : Nat}

/-- A marker is not a byte. -/
theorem Frame.le_marker (f : Frame) : 256 ≤ f.marker := by
  cases f <;> decide

/-! ## Tapes along the way -/

section CopyBytes

variable {src dst : Int} {n : Nat}

theorem copyBytes_of_lt {c : Int} (hc : c < dst) : copyBytes t src dst n c = t c := by
  induction n with
  | zero => rfl
  | succ n ih => rw [copyBytes, Function.update_of_ne (by omega), ih]

theorem copyBytes_of_ge {c : Int} (hc : dst + n ≤ c) : copyBytes t src dst n c = t c := by
  induction n with
  | zero => rfl
  | succ n ih =>
    push_cast at hc
    rw [copyBytes, Function.update_of_ne (by omega), ih (by omega)]

theorem data_copyBytes (hok : ∀ j < n, copyBytes t src dst j (src + j) < 256) :
    Data (copyBytes t src dst n) dst (dst + n) := by
  induction n with
  | zero => exact data_of_le (by simp)
  | succ n ih =>
    intro c hdc hcn
    rw [copyBytes, Function.update_apply]
    split
    · exact hok n (Nat.lt_succ_self n)
    · push_cast at hcn
      exact ih (fun j hj => hok j (by omega)) c hdc (by omega)

/-- A copy to cells behind the source is the copy of a range. -/
theorem copyBytes_eq_overlay (hd : src + n ≤ dst) :
    copyBytes t src dst n = overlay t dst (dst + n) fun c => t (c - (dst - src)) := by
  induction n with
  | zero => exact (overlay_of_le (by simp)).symm
  | succ n ih =>
    push_cast at hd
    rw [copyBytes, ih (by omega)]
    funext c
    simp only [overlay_apply, Function.update_apply]
    grind

theorem unmarked_copyBytes (hno : Unmarked t)
    (hok : ∀ j < n, copyBytes t src dst j (src + j) < 256) : Unmarked (copyBytes t src dst n) := by
  intro c
  by_cases hc : dst ≤ c ∧ c < dst + n
  · have := data_copyBytes hok c hc.1 hc.2
    simp only [Symbol.bookmark]
    omega
  · rcases lt_or_ge c dst with hlt | hge
    · rw [copyBytes_of_lt hlt]
      exact hno c
    · rw [copyBytes_of_ge (by omega)]
      exact hno c

end CopyBytes

section PopBytes

variable {dst : Nat → Int} {n : Nat}

/-- Every cell holds what it has held, or a byte. -/
theorem popBytes_eq_or_lt (hok : ∀ j < n, popBytes t dst h j (h - j - 1) < 256) (c : Int) :
    popBytes t dst h n c = t c ∨ popBytes t dst h n c < 256 := by
  induction n with
  | zero => exact .inl rfl
  | succ n ih =>
    simp only [popBytes, Function.update_apply]
    have hn := hok n (Nat.lt_succ_self n)
    have := ih fun j hj => hok j (by omega)
    split_ifs
    · exact .inr (by omega)
    · exact .inr hn
    · exact .inr (by omega)
    · exact this

theorem popBytes_of_lt {c : Int} (hc : c < h - n) (hd : ∀ j < n, dst j ≠ c) :
    popBytes t dst h n c = t c := by
  induction n with
  | zero => rfl
  | succ n ih =>
    push_cast at hc
    have hdn := hd n (Nat.lt_succ_self n)
    simp only [popBytes]
    rw [Function.update_of_ne (by omega), Function.update_of_ne (Ne.symm hdn),
      Function.update_of_ne (by omega), ih (by omega) fun j hj => hd j (by omega)]

theorem unmarked_popBytes (hno : Unmarked t)
    (hok : ∀ j < n, popBytes t dst h j (h - j - 1) < 256) : Unmarked (popBytes t dst h n) :=
  unmarked_of_eq_or_lt hno (popBytes_eq_or_lt hok)

/-- The marker of a frame is found after some bytes have been popped, too. -/
theorem isNearest_popBytes (hn : IsNearest t marker h m) (hs : 256 ≤ marker)
    (hd : ∀ j < n, dst j ≠ m) (hok : ∀ j < n, popBytes t dst h j (h - j - 1) < 256) :
    IsNearest (popBytes t dst h n) marker (h - n) m := by
  have hm : m < h - n := by
    induction n with
    | zero => simpa using hn.lt
    | succ n ih =>
      have hlt := ih (fun j hj => hd j (by omega)) fun j hj => hok j (by omega)
      -- the marker itself is not a byte that can be popped
      have hne : m ≠ h - n - 1 := by
        rintro rfl
        have hlast := hok n (Nat.lt_succ_self n)
        rw [popBytes_of_lt hlt fun j hj => hd j (by omega), hn.holds] at hlast
        omega
      push_cast
      omega
  refine ⟨hm, ?_, fun c hmc hch => ?_⟩
  · rw [popBytes_of_lt hm hd]
    exact hn.holds
  · rcases popBytes_eq_or_lt hok c with heq | hlt
    · rw [heq]
      exact hn.free c hmc (by omega)
    · omega

/-- Bytes that are popped to a range below them keep their order. -/
theorem popBytes_eq_overlay {last : Int} (hn : 0 < n) (hd : last < h - n) :
    popBytes t (fun j => last - j) h n =
      overlay (overlay t (h - n) (h + 1) fun _ => 0) (last + 1 - n) (last + 1)
        fun c => t (c + (h - 1 - last)) := by
  induction n, hn using Nat.le_induction with
  | base =>
    funext c
    simp only [popBytes, overlay_apply, Function.update_apply]
    grind
  | succ n hn ih =>
    push_cast at hd
    rw [popBytes, ih (by omega)]
    funext c
    simp only [overlay_apply, Function.update_apply]
    grind

end PopBytes

/-! ## Variables below the value on top -/

namespace Reference

variable {w : Width} {offset : Nat}

/-- A load of a variable that lies below the free cell copies its cells. -/
theorem load_of_le (hn : IsNearest t marker h m) (hle : m + 1 + offset + w.bytes ≤ h) :
    load w marker offset h t =
      if Data t (m + 1 + offset) (m + 1 + offset + w.bytes) then
        .leave () (h + w.bytes)
          (overlay t h (h + w.bytes) fun c => t (c - (h - (m + 1 + offset))))
      else .reject := by
  have hw := w.bytes_pos
  have hdata : (∀ j < w.bytes,
        copyBytes t (m + 1 + offset) h j (m + 1 + offset + j) < 256) ↔
      Data t (m + 1 + offset) (m + 1 + offset + w.bytes) := by
    rw [data_iff_forall]
    refine forall_congr' fun j => forall_congr' fun hj => ?_
    rw [copyBytes_of_lt (by omega)]
  rw [load, nearest?_eq_some_iff.2 hn]
  dsimp only
  rw [if_pos (by omega)]
  simp only [hdata, copyBytes_eq_overlay hle]

/-- A store to a variable that lies below the value moves its cells. -/
theorem store_of_le (hn : IsNearest t marker h m) (hle : m + 1 + offset + w.bytes ≤ h - w.bytes) :
    store w marker offset h t =
      if Data t (h - w.bytes) h then
        .leave () (h - w.bytes)
          (overlay (overlay t (h - w.bytes) (h + 1) fun _ => 0) (m + 1 + offset)
            (m + 1 + offset + w.bytes) fun c => t (c + (h - w.bytes - (m + 1 + offset))))
      else .reject := by
  have hw := w.bytes_pos
  have hdata : (∀ j < w.bytes,
        popBytes t (fun j => m + offset + w.bytes - j) h j (h - j - 1) < 256) ↔
      Data t (h - w.bytes) h := by
    rw [data_iff_forall_below]
    refine forall_congr' fun j => forall_congr' fun hj => ?_
    rw [popBytes_of_lt (by omega) fun i hi => by omega]
  have hlt : m + offset + w.bytes < h - 1 := by omega
  rw [store, nearest?_eq_some_iff.2 hn]
  simp only [if_pos hlt, hdata]
  by_cases hd : Data t (h - w.bytes) h
  · rw [if_pos hd, if_pos hd, if_pos (hd _ (by omega) (by omega)),
      popBytes_eq_overlay hw (by omega)]
    congr 2
    · ring
    · ring
    · funext c
      congr 1
      ring
  · rw [if_neg hd, if_neg hd, ite_self]

end Reference

theorem Gadget.lt_groups_iff {i count size : Nat} (hs : 0 < size) :
    i < groups count size ↔ i * size < count := by
  rw [groups, Nat.lt_div_iff_mul_lt hs]
  omega

namespace Action

/-! ## Loads -/

section Load

variable (hno : Unmarked t)

include hno

theorem fetchByte_apply (d : Nat) :
    fetchByte marker d h t =
      match nearest? t marker h with
      | none => .hang
      | some m =>
        if m + 1 + d < h then
          if t (m + 1 + d) < 256 then .leave () (h + 1) (Function.update t h (t (m + 1 + d)))
          else .reject
        else if t (m + 1 + d) < 256 ∧ m + 1 + d ≠ h then .hang
        else .reject := by
  have hleft : h + Direction.left.offset = h - 1 := rfl
  rw [fetchByte, write_bind, hleft]
  cases hn : nearest? t marker h with
  | none =>
    have hfree := nearest?_eq_none_iff.1 hn
    refine bind_apply_of_hang (find_left_hang fun c hc => ?_)
    rw [Function.update_of_ne (by omega)]
    exact hfree c (by omega)
  | some m =>
    have hn := nearest?_eq_some_iff.1 hn
    have hmh := hn.lt
    have hn' : IsNearest (Function.update t h Symbol.bookmark) marker (h - 1 + 1) m := by
      rw [sub_add_cancel]
      refine hn.congr (Function.update_of_ne (by omega) _ _) fun c _ hch => .inl ?_
      exact Function.update_of_ne (by omega) _ _
    have hmark : Function.update (Function.update t h Symbol.bookmark) m marker =
        Function.update t h Symbol.bookmark := by
      rw [← hn'.holds, Function.update_eq_self]
    rw [bind_apply_of_leave (find_left hn'), hmark, walk_right, byte_bind]
    have hright : m + Direction.right.offset + d = m + 1 + d := rfl
    have hnext : m + 1 + d + Direction.right.offset = m + 1 + d + 1 := rfl
    simp only [hright, hnext, Function.update_eq_self]
    rcases lt_trichotomy (m + 1 + d : Int) h with hlt | heq | hgt
    · -- the byte is carried up to the bookmark
      rw [if_pos hlt, Function.update_of_ne (by omega)]
      split
      · rw [find_right (m := h) (by omega) (Function.update_self ..) fun c _ hch => ?_,
          Function.update_idem]
        · rfl
        · rw [Function.update_of_ne (by omega)]
          exact hno c
      · rfl
    · rw [heq, Function.update_self, dif_neg (by decide), if_neg (lt_irrefl h),
        if_neg fun hx => hx.2 rfl]
    · -- the bookmark has been passed
      rw [if_neg (by omega), Function.update_of_ne (by omega)]
      split
      · next hv =>
        rw [if_pos ⟨hv, by omega⟩]
        refine find_right_hang fun c hc => ?_
        rw [Function.update_of_ne (by omega)]
        exact hno c
      · next hv => rw [if_neg fun hx => hv hx.1]

theorem load_apply (hs : 256 ≤ marker) (w : Width) (offset : Nat) :
    load w marker offset h t = Reference.load w marker offset h t := by
  have hw := w.bytes_pos
  have hfirst : fetchByte marker (offset + 0) h t = _ := fetchByte_apply hno offset
  rw [load, Reference.load]
  cases hn : nearest? t marker h with
  | none =>
    rw [hn] at hfirst
    exact sequence_hang hw hfirst
  | some m =>
    simp only [hn] at hfirst
    dsimp only
    have hn := nearest?_eq_some_iff.1 hn
    by_cases hlt : m + 1 + offset < h
    · rw [if_pos hlt, sequence_apply (h := h) (t := t) (fun j => h + j)
        (copyBytes t (m + 1 + offset) h)
        (fun j => copyBytes t (m + 1 + offset) h j (m + 1 + offset + j) < 256) w.bytes (by simp)
        rfl]
      all_goals
        intro j _ hi hj
        have hn' : IsNearest (copyBytes t (m + 1 + offset) h j) marker (h + j) m := by
          refine ⟨by have := hn.lt; omega, ?_, fun c hmc hch => ?_⟩
          · rw [copyBytes_of_lt hn.lt]
            exact hn.holds
          · rcases lt_or_ge c h with hc | hc
            · rw [copyBytes_of_lt hc]
              exact hn.free c hmc hc
            · have := data_copyBytes hi c hc hch
              omega
        have hsrc : m + 1 + (offset + j : Nat) = m + 1 + offset + j := by
          push_cast
          ring
        rw [fetchByte_apply (unmarked_copyBytes hno hi), nearest?_eq_some_iff.2 hn']
        simp only [hsrc]
        rw [if_pos (by omega)]
      · rw [if_pos hj]
        congr 1
        push_cast
        ring
      · rw [if_neg hj]
    · rw [if_neg hlt] at hfirst ⊢
      split at hfirst
      · next hx => rw [if_pos hx, sequence_hang hw hfirst]
      · next hx => rw [if_neg hx, sequence_reject hw hfirst]

end Load

/-! ## Stores -/

section Store

variable (hno : Unmarked t) (hs : 256 ≤ marker)

include hno hs

theorem deliverByte_apply (move : Direction) (d : Nat) :
    deliverByte marker move d h t =
      if t (h - 1) < 256 then
        match nearest? t marker h with
        | none => .hang
        | some m =>
          if m + move.offset + d * move.offset < h - 1 then
            .leave () (h - 1) (Function.update (Function.update (Function.update t h 0)
              (m + move.offset + d * move.offset) (t (h - 1))) (h - 1) 0)
          else .hang
      else .reject := by
  have hleft : ∀ c : Int, c + Direction.left.offset = c - 1 := fun _ => rfl
  have hright : ∀ c : Int, c + Direction.right.offset = c + 1 := fun _ => rfl
  have htop : Function.update t h 0 (h - 1) = t (h - 1) := Function.update_of_ne (by omega) _ _
  simp only [deliverByte, carryOff, bind_assoc, write_bind, byte_bind, hleft, htop]
  by_cases hv : t (h - 1) < 256
  swap
  · rw [dif_neg hv, if_neg hv]
  rw [dif_pos hv, if_pos hv]
  -- the tape while the byte is on its way
  let u := Function.update (Function.update t h 0) (h - 1) Symbol.bookmark
  have hu : ∀ c, c < h - 1 → u c = t c := fun c hc => by
    simp only [u]
    rw [Function.update_of_ne (by omega), Function.update_of_ne (by omega)]
  have hfree : ∀ c, h ≤ c → u c ≠ Symbol.bookmark := fun c hc => by
    simp only [u]
    rw [Function.update_of_ne (by omega), Function.update_apply]
    split
    · decide
    · exact hno c
  change (find .left marker marker move >>= _) (h - 1 - 1) u = _
  cases hn : nearest? t marker h with
  | none =>
    have hnone := nearest?_eq_none_iff.1 hn
    refine bind_apply_of_hang (find_left_hang fun c hc => ?_)
    rw [hu c (by omega)]
    exact hnone c (by omega)
  | some m =>
    have hn := nearest?_eq_some_iff.1 ((nearest?_of_byte hv hs).trans hn)
    have hn' : IsNearest u marker (h - 1 - 1 + 1) m := by
      rw [sub_add_cancel]
      exact hn.congr (hu m hn.lt) fun c _ hch => .inl (hu c hch)
    have hmark : Function.update u m marker = u := by
      rw [← hn'.holds, Function.update_eq_self]
    rw [bind_apply_of_leave (find_left hn'), hmark, walk_bind, write_bind, hright]
    dsimp only
    generalize m + move.offset + d * move.offset = dst
    by_cases hlt : dst < h - 1
    · rw [if_pos hlt, find_right (m := h - 1) (by omega)]
      · congr 1
        · simp [Direction.offset]
        · funext c
          simp only [u, Function.update_apply]
          grind
      · rw [Function.update_of_ne (by omega)]
        exact Function.update_self ..
      · intro c hdc hch
        rw [Function.update_of_ne (by omega), hu c hch]
        exact hno c
    · -- the bookmark has been overwritten or passed
      rw [if_neg hlt]
      refine find_right_hang fun c hc => ?_
      rw [Function.update_of_ne (by omega)]
      exact hfree c (by omega)

theorem sequence_deliverByte {move : Direction} {distance : Nat → Nat} {dst : Nat → Int} {n : Nat}
    (hn : IsNearest t marker h m)
    (hdst : ∀ j < n, m + move.offset + distance j * move.offset = dst j)
    (hm : ∀ j < n, dst j ≠ m) (hlt : ∀ j < n, dst j < h - j - 1) :
    sequence (fun i => deliverByte marker move (distance i)) n 0 h t =
      if ∀ j < n, popBytes t dst h j (h - j - 1) < 256 then
        .leave () (h - n) (popBytes t dst h n)
      else .reject := by
  refine sequence_apply (fun j => h - j) (popBytes t dst h)
    (fun j => popBytes t dst h j (h - j - 1) < 256) n (by simp) rfl ?_ ?_
  all_goals
    intro j hj hi hok
    have hn' := isNearest_popBytes hn hs (fun k hk => hm k (by omega)) hi
    rw [deliverByte_apply (unmarked_popBytes hno hi) hs, nearest?_eq_some_iff.2 hn']
    dsimp only
    rw [hdst j hj]
  · rw [if_pos hok, if_pos (hlt j hj)]
    congr 1
    push_cast
    ring
  · rw [if_neg hok]

theorem store_apply (w : Width) (offset : Nat) :
    store w marker offset h t = Reference.store w marker offset h t := by
  have hw := w.bytes_pos
  have hfirst : deliverByte marker .right (offset + w.bytes - 0 - 1) h t = _ :=
    deliverByte_apply hno hs .right _
  rw [store, Reference.store]
  by_cases hv : t (h - 1) < 256
  swap
  · rw [if_neg hv] at hfirst ⊢
    exact sequence_reject hw hfirst
  rw [if_pos hv] at hfirst ⊢
  cases hn : nearest? t marker h with
  | none =>
    rw [hn] at hfirst
    exact sequence_hang hw hfirst
  | some m =>
    simp only [hn] at hfirst
    dsimp only
    have hdst : ∀ j : Nat, j < w.bytes →
        m + Direction.right.offset + (offset + w.bytes - j - 1 : Nat) * Direction.right.offset =
          m + offset + w.bytes - j := by
      intro j hj
      simp only [Direction.offset]
      omega
    by_cases hlt : m + offset + w.bytes < h - 1
    · rw [if_pos hlt]
      exact sequence_deliverByte hno hs (nearest?_eq_some_iff.1 hn) hdst (fun j hj => by omega)
        fun j hj => by omega
    · rw [hdst 0 hw, if_neg (by simpa using hlt)] at hfirst
      rw [if_neg hlt, sequence_hang hw hfirst]

end Store

/-! ## Indices -/

theorem child_bind {ε : Type} (n node : Nat) (move : Direction) (f : Fin n → Action ε) :
    (child n node move >>= f) h t =
      if hc : t h < 256 ∧ 256 * node + t h < n then
        f ⟨256 * node + t h, hc.2⟩ (h + move.offset) (Function.update t h 0)
      else .reject := by
  by_cases hc : t h < 256 ∧ 256 * node + t h < n
  · have hchild : child n node move h t = .leave ⟨256 * node + t h, hc.2⟩ (h + move.offset)
        (Function.update t h 0) := dif_pos hc
    rw [bind_apply_of_leave hchild, dif_pos hc]
  · have hchild : child n node move h t = .reject := dif_neg hc
    rw [bind_apply_of_reject hchild, dif_neg hc]

theorem popIndex_apply (bound : Nat) :
    popIndex bound h t =
      if hc : Data t (h - 4) h ∧ value t (h - 4) 4 < bound then
        .leave ⟨value t (h - 4) 4, hc.2⟩ (h - 4) (overlay t (h - 4) (h + 1) fun _ => 0)
      else .reject := by
  have hvalue : value t (h - 4) 4 =
      256 * (256 * (256 * (256 * 0 + t (h - 1)) + t (h - 2)) + t (h - 3)) + t (h - 4) := by
    have h1 : h - 4 + 1 = h - 3 := by omega
    have h2 : h - 3 + 1 = h - 2 := by omega
    have h3 : h - 2 + 1 = h - 1 := by omega
    simp only [value, h1, h2, h3]
    omega
  have hdata : Data t (h - 4) h ↔
      t (h - 1) < 256 ∧ t (h - 2) < 256 ∧ t (h - 3) < 256 ∧ t (h - 4) < 256 := by
    constructor
    · intro hd
      exact ⟨hd _ (by omega) (by omega), hd _ (by omega) (by omega), hd _ (by omega) (by omega),
        hd _ (by omega) (by omega)⟩
    · rintro ⟨h1, h2, h3, h4⟩ c hc hch
      obtain rfl | rfl | rfl | rfl : c = h - 1 ∨ c = h - 2 ∨ c = h - 3 ∨ c = h - 4 := by omega
      all_goals assumption
  have hleft : ∀ c : Int, c + Direction.left.offset = c - 1 := fun _ => rfl
  have hstay : ∀ c : Int, c + Direction.stay.offset = c := fun c => add_zero c
  have h2 : h - 1 - 1 = h - 2 := by omega
  have h3 : h - 2 - 1 = h - 3 := by omega
  have h4 : h - 3 - 1 = h - 4 := by omega
  have hcell : ∀ {u : Int → Nat} {c c' : Int}, c' < c → Function.update u c 0 c' = u c' :=
    fun hc => Function.update_of_ne (by omega) _ _
  have hclear : Function.update (Function.update (Function.update (Function.update
      (Function.update t h 0) (h - 1) 0) (h - 2) 0) (h - 3) 0) (h - 4) 0 =
        overlay t (h - 4) (h + 1) fun _ => 0 := by
    funext c
    simp only [overlay_apply, Function.update_apply]
    grind
  simp (disch := omega) only [popIndex, write_bind, child_bind, child, hleft, hstay, h2, h3, h4,
    hcell, hclear, Gadget.lt_groups_iff]
  by_cases hc : Data t (h - 4) h ∧ value t (h - 4) 4 < bound
  · obtain ⟨b1, b2, b3, b4⟩ := hdata.1 hc.1
    have hlt := hc.2
    rw [hvalue] at hlt
    rw [dif_pos ⟨b1, by omega⟩, dif_pos ⟨b2, by omega⟩, dif_pos ⟨b3, by omega⟩, dif_pos ⟨b4, hlt⟩,
      dif_pos hc]
    simp only [hvalue]
  · rw [dif_neg hc]
    rw [hdata, hvalue] at hc
    split_ifs
    · tauto
    all_goals rfl

theorem popIndex_bind {ε : Type} (bound : Nat) {f g : Nat → Action ε} (hno : Unmarked t)
    (hfg : ∀ index h t, Unmarked t → f index h t = g index h t) :
    (popIndex bound >>= fun index => f index) h t = (Reference.popIndex bound >>= g) h t := by
  have hclear : Unmarked (overlay t (h - 4) (h + 1) fun _ => 0) :=
    unmarked_overlay hno fun _ _ _ => by decide
  rw [bind_apply, bind_apply, popIndex_apply, Reference.popIndex]
  split_ifs
  · exact hfg _ _ _ hclear
  · rfl

end Action

end StackTape
