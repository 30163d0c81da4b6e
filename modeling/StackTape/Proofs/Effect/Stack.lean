import StackTape.Proofs.Gadget.Stack
import StackTape.Proofs.Reference

/-!
# What stack operations do to the tape

The actions of the gadgets that move values on the stack, lay out frames and test a condition, as
functions of the head and the tape. An operation that takes a value rejects if one of its cells
does not hold a byte.
-/

namespace StackTape.Action

variable {h : Int} {t : Int → Nat}

/-! ## Constants and cleared cells -/

theorem push_apply (w : Width) (v : Nat) :
    push w v h t = .leave () (h + w.bytes)
      (overlay t h (h + w.bytes) fun c => Draft.byteAt v (c - h).toNat) := by
  refine sequence_leave (fun j => h + j)
    (fun j => overlay t h (h + j) fun c => Draft.byteAt v (c - h).toNat) w.bytes (by simp)
    (by simp [overlay_of_le]) fun j _ => ?_
  rw [write_apply]
  congr 1
  · simp [Direction.offset, add_assoc]
  · funext c
    simp only [overlay_apply, Function.update_apply]
    grind

theorem pop_apply (w : Width) :
    pop w h t = .leave () (h - w.bytes) (overlay t (h - w.bytes + 1) (h + 1) fun _ => 0) := by
  refine sequence_leave (fun j => h - j) (fun j => overlay t (h - j + 1) (h + 1) fun _ => 0)
    w.bytes (by simp) (by simp [overlay_of_le]) fun j _ => ?_
  rw [write_apply]
  congr 1
  · simp only [Direction.offset]
    omega
  · funext c
    simp only [overlay_apply, Function.update_apply]
    grind

theorem alloc_apply (cells : Nat) :
    alloc cells h t = .leave () (h + cells) (overlay t h (h + cells) fun _ => 0) := by
  refine sequence_leave (fun j => h + j) (fun j => overlay t h (h + j) fun _ => 0) cells (by simp)
    (by simp [overlay_of_le]) fun j _ => ?_
  rw [write_apply]
  congr 1
  · simp [Direction.offset, add_assoc]
  · funext c
    simp only [overlay_apply, Function.update_apply]
    grind

theorem iterate_clear (cells : Nat) :
    iterate (write 0 .left) cells h t =
      .leave () (h - cells) (overlay t (h - cells + 1) (h + 1) fun _ => 0) := by
  induction cells generalizing h t with
  | zero => simp [iterate, overlay_of_le]
  | succ cells ih =>
    rw [iterate, write_bind, ih]
    congr 1
    · simp only [Direction.offset]
      omega
    · funext c
      simp only [overlay_apply, Function.update_apply, Direction.offset]
      grind

theorem free_apply (cells : Nat) :
    free cells h t = .leave () (h - cells) (overlay t (h - cells) (h + 1) fun _ => 0) := by
  rw [free, bind_apply_of_leave (iterate_clear cells), write_apply]
  congr 1
  · simp [Direction.offset]
  · funext c
    simp only [overlay_apply, Function.update_apply]
    grind

/-! ## Copies and exchanges -/

theorem copyByte_apply {d : Nat} (hd : 1 ≤ d) :
    copyByte d h t =
      if t (h - d) < 256 then .leave () (h + 1) (Function.update t h (t (h - d)))
      else .reject := by
  rw [copyByte, walk_left, byte_bind]
  split
  · rw [walk_right, write_apply, Function.update_eq_self, Direction.offset]
    have hback : h - (d : Int) + 1 + (d - 1 : Nat) = h := by omega
    rw [hback]
  · rfl

theorem dup_apply (w : Width) :
    dup w h t =
      if Data t (h - w.bytes) h then
        .leave () (h + w.bytes) (overlay t h (h + w.bytes) fun c => t (c - w.bytes))
      else .reject := by
  have hdata : Data t (h - w.bytes) h ↔ ∀ j < w.bytes, t (h - w.bytes + j) < 256 := by
    rw [← data_iff_forall, sub_add_cancel]
  have hcell : ∀ j : Nat, j < w.bytes →
      overlay t h (h + j) (fun c => t (c - w.bytes)) (h + j - w.bytes) = t (h - w.bytes + j) := by
    intro j hj
    rw [overlay_apply, if_neg (by omega)]
    congr 1
    omega
  rw [dup, sequence_apply (fun j => h + j) (fun j => overlay t h (h + j) fun c => t (c - w.bytes))
    (fun j => t (h - w.bytes + j) < 256) w.bytes (by simp) (by simp [overlay_of_le])]
  · simp only [hdata]
  · intro j hj _ hok
    rw [copyByte_apply w.bytes_pos, hcell j hj, if_pos hok]
    congr 1
    · push_cast
      ring
    · funext c
      simp only [overlay_apply, Function.update_apply]
      grind
  · intro j hj _ hbad
    rw [copyByte_apply w.bytes_pos, hcell j hj, if_neg hbad]

theorem exchangeByte_apply {span : Nat} (hs : 1 ≤ span) :
    exchangeByte span h t =
      if t h < 256 ∧ t (h - span) < 256 then
        .leave () (h + 1) (Function.update (Function.update t (h - span) (t h)) h (t (h - span)))
      else .reject := by
  have hdown : h + -1 - (span - 1 : Nat) = h - span := by omega
  have hback : h - span + 1 + (span - 1 : Nat) = h := by omega
  simp only [exchangeByte, bringDown, bind_assoc, byte_bind, walk_left, walk_right, write_apply,
    Function.update_eq_self, hdown, hback, Direction.offset]
  split
  · split
    · rw [if_pos (by constructor <;> assumption)]
    · rw [if_neg (by tauto)]
  · rw [if_neg (by tauto)]

theorem swap_apply (w : Width) (offset : Nat) :
    swap w offset h t =
      if Data t (h - w.bytes) h ∧
          Data t (h - (2 * w.bytes + offset : Nat)) (h - (w.bytes + offset : Nat)) then
        .leave () h
          (overlay (overlay t (h - w.bytes) h fun c => t (c - (w.bytes + offset : Nat)))
            (h - (2 * w.bytes + offset : Nat)) (h - (w.bytes + offset : Nat))
            fun c => t (c + (w.bytes + offset : Nat)))
      else .reject := by
  have hw := w.bytes_pos
  obtain ⟨n, hn⟩ : ∃ n, w.bytes = n := ⟨_, rfl⟩
  obtain ⟨span, hspan⟩ : ∃ span, n + offset = span := ⟨_, rfl⟩
  have hlow : 2 * n + offset = n + span := by omega
  rw [swap, walk_left]
  simp only [hn, hspan, hlow] at hw ⊢
  -- the cells that are exchanged in turn `j` have not been touched before
  let tape : Nat → Int → Nat := fun j =>
    overlay (overlay t (h - n) (h - n + j) fun c => t (c - span)) (h - n - span) (h - n - span + j)
      fun c => t (c + span)
  have hupper : ∀ j < n, tape j (h - n + j) = t (h - n + j) := by
    intro j hj
    simp only [tape, overlay_apply]
    grind
  have hlower : ∀ j < n, tape j (h - n + j - span) = t (h - n - span + j) := by
    intro j hj
    simp only [tape, overlay_apply]
    grind
  have hdata : (Data t (h - n) h ∧ Data t (h - (n + span : Nat)) (h - span)) ↔
      ∀ j < n, t (h - n + j) < 256 ∧ t (h - n - span + j) < 256 := by
    have h₁ := data_iff_forall (t := t) (a := h - n) (n := n)
    have h₂ := data_iff_forall (t := t) (a := h - n - span) (n := n)
    have hb : h - n - span + n = h - span := by ring
    have ha : h - (n + span : Nat) = h - n - span := by omega
    rw [sub_add_cancel] at h₁
    rw [hb] at h₂
    rw [ha, h₁, h₂]
    exact ⟨fun ⟨h₁, h₂⟩ j hj => ⟨h₁ j hj, h₂ j hj⟩,
      fun h => ⟨fun j hj => (h j hj).1, fun j hj => (h j hj).2⟩⟩
  rw [sequence_apply (fun j => h - n + j) tape
    (fun j => t (h - n + j) < 256 ∧ t (h - n - span + j) < 256) n (by simp)
    (by simp [tape, overlay_of_le])]
  · simp only [hdata]
    congr 2
    · ring
    · funext c
      simp only [tape, overlay_apply]
      grind
  · intro j hj _ hok
    rw [exchangeByte_apply (by omega), hupper j hj, hlower j hj, if_pos hok]
    congr 1
    · push_cast
      ring
    · funext c
      simp only [tape, overlay_apply, Function.update_apply]
      grind
  · intro j hj _ hbad
    rw [exchangeByte_apply (by omega), hupper j hj, hlower j hj, if_neg hbad]

/-! ## Argument markers -/

theorem shiftUp_apply (cells : Nat) (below : Fin 256) :
    shiftUp cells below h t =
      if Data t h (h + cells) then
        .leave () (h + cells + 1)
          (overlay t h (h + cells + 1) fun c => if c = h then below else t (c - 1))
      else .reject := by
  induction cells generalizing h t below with
  | zero =>
    rw [if_pos (data_of_le (by simp)), shiftUp, write_apply]
    congr 1
    · simp [Direction.offset]
    · funext c
      simp only [overlay_apply, Function.update_apply]
      grind
  | succ cells ih =>
    rw [shiftUp, byte_bind]
    split
    · next hb =>
      rw [ih]
      have hdata : Data (Function.update t h below) (h + Direction.right.offset)
          (h + Direction.right.offset + cells) ↔ Data t h (h + (cells + 1 : Nat)) := by
        simp only [Data, Direction.offset, Function.update_apply]
        grind
      simp only [hdata]
      congr 2
      · simp only [Direction.offset]
        push_cast
        ring
      · funext c
        simp only [overlay_apply, Function.update_apply, Direction.offset]
        grind
    · next hb =>
      rw [if_neg fun hd => hb (hd h le_rfl (by omega))]

theorem makeArgs_apply (cells : Nat) :
    makeArgs cells h t =
      if Data t (h - cells) h then
        .leave () (h + 1)
          (overlay t (h - cells) (h + 1) fun c =>
            if c = h - cells then Symbol.argPointer else t (c - 1))
      else .reject := by
  cases cells with
  | zero =>
    rw [if_pos (data_of_le (by simp)), makeArgs, write_apply]
    congr 1
    funext c
    simp only [overlay_apply, Function.update_apply]
    grind
  | succ cells =>
    rw [makeArgs, walk_left, byte_bind]
    split
    · next hb =>
      rw [shiftUp_apply]
      have hdata : Data (Function.update t (h - (cells + 1 : Nat)) Symbol.argPointer)
          (h - (cells + 1 : Nat) + Direction.right.offset)
          (h - (cells + 1 : Nat) + Direction.right.offset + cells) ↔
            Data t (h - (cells + 1 : Nat)) h := by
        simp only [Data, Direction.offset, Function.update_apply]
        grind
      simp only [hdata]
      congr 2
      · simp only [Direction.offset]
        omega
      · funext c
        simp only [overlay_apply, Function.update_apply, Direction.offset]
        grind
    · next hb =>
      rw [if_neg fun hd => hb (hd _ le_rfl (by omega))]

/-! ## Conditions -/

theorem popFlag_apply : popFlag h t = Reference.popFlag h t := by
  rw [popFlag, walk_left, Nat.cast_one, byte_bind, Reference.popFlag]
  split
  · simp [Direction.offset]
  · rfl

end StackTape.Action
