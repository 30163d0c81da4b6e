import StackTape.Proofs.Effect.Variable
import StackTape.Proofs.Gadget.Call

/-!
# What calls and returns do to the tape

A call puts the two bytes of an id in the place of the nearest argument marker, and moves the marker
and the arguments above it two cells up. A return clears the stack down to the marker and takes the
id below it. Neither looks at anything else.
-/

namespace StackTape.Action

variable {h a : Int} {t : Int → Nat}

/-! ## Calls -/

/-- Everything up to the bookmark goes one cell up. -/
theorem loop_lift {e : Int} (hle : h ≤ e) (he : t e = Symbol.bookmark)
    (hfree : ∀ c, h ≤ c → c < e → t c ≠ Symbol.bookmark) (below : Option (Fin 256)) :
    loop lift below h t =
      if Data t h e then
        .leave () (e + 1) (overlay t h (e + 1) fun c => if c = h then lifted below else t (c - 1))
      else .reject := by
  obtain ⟨n, hn⟩ : ∃ n : Nat, e = h + n := ⟨(e - h).toNat, by omega⟩
  induction n generalizing h t below with
  | zero =>
    obtain rfl : e = h := by simpa using hn
    rw [if_pos (data_of_le le_rfl)]
    refine loop_leave ?_
    rw [lift, dif_neg (by rw [he]; decide), if_pos he]
    congr 1
    funext c
    simp only [overlay_apply, Function.update_apply]
    grind
  | succ n ih =>
    have hne := hfree h le_rfl (by omega)
    have hdata : Data t h e ↔ t h < 256 ∧ Data t (h + 1) e := by
      rw [hn, data_succ, (by push_cast; ring : h + 1 + (n : Int) = h + (n + 1 : Nat))]
    by_cases hb : t h < 256
    · have hstep : lift below h t =
          .leave (.inl (some ⟨t h, hb⟩)) (h + 1) (Function.update t h (lifted below)) := dif_pos hb
      have hfar : ∀ c, h + 1 ≤ c → Function.update t h (lifted below) c = t c := fun c hc =>
        Function.update_of_ne (by omega) _ _
      rw [loop_again hstep, ih (by omega) ((hfar e (by omega)).trans he)
        (fun c hc hce => by rw [hfar c hc]; exact hfree c (by omega) hce) _ (by omega)]
      simp only [hdata, hb, true_and, data_congr fun c hc _ => hfar c hc]
      congr 2
      have hcarried : lifted (some ⟨t h, hb⟩) = t h := rfl
      rw [hcarried]
      generalize lifted below = x
      funext c
      simp only [overlay_apply, Function.update_apply]
      split_ifs <;> first | rfl | omega | (congr 1; omega)
    · rw [if_neg fun hd => hb (hdata.1 hd).1]
      refine loop_apply (.reject ?_)
      rw [lift, dif_neg hb, if_neg hne]

/-- The tape on which a symbol takes the place of the marker at `a`, and everything from the marker
to the free cell `h` has gone one cell up. -/
def inserted (t : Int → Nat) (a h : Int) (symbol : Nat) : Int → Nat :=
  overlay t a (h + 1) fun c =>
    if c = a then symbol else if c = a + 1 then Symbol.argPointer else t (c - 1)

section Inserted

variable {x y : Nat}

theorem inserted_moved {c : Int} (h1 : a + 1 < c) (h2 : c < h + 1) :
    inserted t a h x c = t (c - 1) := by
  rw [inserted, overlay_apply, if_pos (by omega), if_neg (by omega), if_neg (by omega)]

theorem data_inserted (hd : Data t (a + 1) h) : Data (inserted t a h x) (a + 1 + 1) (h + 1) := by
  intro c h1 h2
  rw [inserted_moved (by omega) h2]
  exact hd _ (by omega) (by omega)

theorem unmarked_inserted (hno : Unmarked t) (hx : x < 256) : Unmarked (inserted t a h x) := by
  intro c
  simp only [inserted, overlay_apply, Symbol.bookmark, Symbol.argPointer]
  split_ifs
  · omega
  · decide
  · exact hno _
  · exact hno _

theorem isNearest_inserted (hah : a < h) (hd : Data t (a + 1) h) :
    IsNearest (inserted t a h x) Symbol.argPointer (h + 1) (a + 1) := by
  refine ⟨by omega, ?_, fun c h1 h2 => ?_⟩
  · rw [inserted, overlay_apply, if_pos (by omega), if_neg (by omega), if_pos rfl]
  · have hbyte : inserted t a h x c < 256 := data_inserted hd c (by omega) h2
    simp only [Symbol.argPointer]
    omega

theorem inserted_inserted (hah : a < h) :
    inserted (inserted t a h x) (a + 1) (h + 1) y =
      overlay t a (h + 2) fun c =>
        if c = a then x else if c = a + 1 then y
        else if c = a + 2 then Symbol.argPointer else t (c - 2) := by
  funext c
  have hmoved : a + 2 < c → c < h + 2 → inserted t a h x (c - 1) = t (c - 2) := fun h1 h2 => by
    rw [inserted_moved (by omega) (by omega)]
    congr 1
    omega
  rw [inserted, overlay_apply, overlay_apply]
  rcases le_or_gt c (a + 2) with hc | hc
  · simp only [inserted, overlay_apply]
    split_ifs <;> first | rfl | omega
  · by_cases hch : c < h + 2
    · rw [if_pos (by omega), if_neg (by omega), if_neg (by omega), hmoved hc hch, if_pos (by omega),
        if_neg (by omega), if_neg (by omega), if_neg (by omega)]
    · rw [if_neg (by omega), if_neg (by omega), inserted, overlay_apply, if_neg (by omega)]

end Inserted

section Insert

variable (hno : Unmarked t)

include hno

theorem insertByte_apply (x : Nat) :
    insertByte x h t =
      match nearest? t Symbol.argPointer h with
      | none => .hang
      | some a => if Data t (a + 1) h then .leave () (h + 1) (inserted t a h x) else .reject := by
  have hleft : h + Direction.left.offset = h - 1 := rfl
  have hmark : ∀ c, c ≠ h → Function.update t h Symbol.bookmark c = t c := fun c hc =>
    Function.update_of_ne hc _ _
  rw [insertByte, write_bind, hleft]
  cases hn : nearest? t Symbol.argPointer h with
  | none =>
    have hnone := nearest?_eq_none_iff.1 hn
    refine bind_apply_of_hang (find_left_hang fun c hc => ?_)
    rw [hmark c (by omega)]
    exact hnone c (by omega)
  | some a =>
    have hn := nearest?_eq_some_iff.1 hn
    have hah := hn.lt
    have hn' : IsNearest (Function.update t h Symbol.bookmark) Symbol.argPointer (h - 1 + 1) a := by
      rw [sub_add_cancel]
      exact hn.congr (hmark a (by omega)) fun c _ hch => .inl (hmark c (by omega))
    let u := Function.update (Function.update t h Symbol.bookmark) a x
    have hu : ∀ c, a + 1 ≤ c → c < h → u c = t c := fun c h1 h2 => by
      simp only [u]
      rw [Function.update_of_ne (by omega), hmark c (by omega)]
    have hend : u h = Symbol.bookmark := by
      simp only [u]
      rw [Function.update_of_ne (by omega), Function.update_self]
    rw [bind_apply_of_leave (find_left hn')]
    change loop lift none (a + 1) u = _
    rw [loop_lift (by omega) hend (fun c h1 h2 => by rw [hu c h1 h2]; exact hno c)]
    simp only [data_congr hu]
    congr 2
    funext c
    simp only [inserted, overlay_apply, lifted, u, Function.update_apply]
    split_ifs <;> first | rfl | omega

theorem call_apply (id : Nat) : call id h t = Reference.call id h t := by
  have hfirst : insertByte (Draft.byteAt id 0) h t = _ := insertByte_apply hno _
  rw [call, Reference.call, sequence]
  cases hn : nearest? t Symbol.argPointer h with
  | none =>
    rw [hn] at hfirst
    rw [bind_apply_of_hang hfirst]
  | some a =>
    simp only [hn] at hfirst ⊢
    have hah := (nearest?_eq_some_iff.1 hn).lt
    by_cases hd : Data t (a + 1) h
    · rw [if_pos hd] at hfirst ⊢
      -- the second byte goes in the place of the marker that the first has moved up
      have hsecond : insertByte (Draft.byteAt id 1) (h + 1) (inserted t a h (Draft.byteAt id 0)) =
          _ := insertByte_apply (unmarked_inserted hno (Draft.byteAt_lt id 0)) _
      rw [nearest?_eq_some_iff.2 (isNearest_inserted hah hd)] at hsecond
      simp only [if_pos (data_inserted hd), inserted_inserted hah] at hsecond
      rw [bind_apply_of_leave hfirst, sequence, sequence, bind_apply_of_leave hsecond, pure_apply]
      congr 1
      ring
    · rw [if_neg hd] at hfirst ⊢
      rw [bind_apply_of_reject hfirst]

end Insert

/-! ## Returns -/

theorem search_clear (hn : IsNearest t Symbol.argPointer (h + 1) a) :
    search Symbol.argPointer (write 0 .left) (write 0 .left) h t =
      .leave () (a - 1) (overlay t a (h + 1) fun _ => 0) := by
  obtain ⟨n, hn'⟩ : ∃ n : Nat, h = a + n := ⟨(h - a).toNat, by have := hn.lt; omega⟩
  have hleft : ∀ c : Int, c + Direction.left.offset = c - 1 := fun _ => rfl
  induction n generalizing h t with
  | zero =>
    obtain rfl : h = a := by simpa using hn'
    refine search_apply_of_eq hn.holds ?_
    rw [write_apply, hleft]
    congr 1
    funext c
    simp only [overlay_apply, Function.update_apply]
    split_ifs <;> first | rfl | omega
  | succ n ih =>
    have hne : t h ≠ Symbol.argPointer := hn.free h (by omega) (by omega)
    rw [search_apply_of_ne hne (write_apply ..), hleft, ih _ (by omega)]
    · congr 1
      funext c
      simp only [overlay_apply, Function.update_apply]
      split_ifs <;> first | rfl | omega
    · refine ⟨by omega, ?_, fun c hac hch => ?_⟩
      · rw [Function.update_of_ne (by omega)]
        exact hn.holds
      · rw [Function.update_of_ne (by omega)]
        exact hn.free c hac (by omega)

theorem search_clear_hang (hno : ∀ c, c < h + 1 → t c ≠ Symbol.argPointer) :
    search Symbol.argPointer (write 0 .left) (write 0 .left) h t = .hang := by
  refine search_apply_of_invariant (fun h t => ∀ c, c < h + 1 → t c ≠ Symbol.argPointer)
    (fun h t hi => ⟨hi h (by omega), _, _, write_apply .., fun c hc => ?_⟩) hno
  simp only [Direction.offset] at hc
  rw [Function.update_of_ne (by omega)]
  exact hi c (by omega)

theorem ret_apply (n : Nat) :
    ret n h t =
      match nearest? t Symbol.argPointer (h + 1) with
      | none => .hang
      | some a =>
        if hc : Data t (a - 2) a ∧ value t (a - 2) 2 < n then
          .leave ⟨value t (a - 2) 2, hc.2⟩ (a - 2) (overlay t (a - 2) (h + 1) fun _ => 0)
        else .reject := by
  rw [ret]
  cases hn : nearest? t Symbol.argPointer (h + 1) with
  | none => exact bind_apply_of_hang (search_clear_hang (nearest?_eq_none_iff.1 hn))
  | some a =>
    have hn := nearest?_eq_some_iff.1 hn
    have hvalue : value t (a - 2) 2 = 256 * (256 * 0 + t (a - 1)) + t (a - 2) := by
      have h1 : a - 2 + 1 = a - 1 := by omega
      simp only [value, h1]
      omega
    have hdata : Data t (a - 2) a ↔ t (a - 1) < 256 ∧ t (a - 2) < 256 := by
      constructor
      · intro hd
        exact ⟨hd _ (by omega) (by omega), hd _ (by omega) (by omega)⟩
      · rintro ⟨h1, h2⟩ c hc hca
        obtain rfl | rfl : c = a - 1 ∨ c = a - 2 := by omega
        all_goals assumption
    have hleft : a - 1 + Direction.left.offset = a - 2 := by
      simp only [Direction.offset]
      omega
    have hstay : a - 2 + Direction.stay.offset = a - 2 := add_zero _
    have hhigh : overlay t a (h + 1) (fun _ => 0) (a - 1) = t (a - 1) := by
      rw [overlay_apply, if_neg (by omega)]
    have hlow : Function.update (overlay t a (h + 1) fun _ => 0) (a - 1) 0 (a - 2) = t (a - 2) := by
      rw [Function.update_of_ne (by omega), overlay_apply, if_neg (by omega)]
    have hclear : Function.update (Function.update (overlay t a (h + 1) fun _ => 0) (a - 1) 0)
        (a - 2) 0 = overlay t (a - 2) (h + 1) fun _ => 0 := by
      have := hn.lt
      funext c
      simp only [overlay_apply, Function.update_apply]
      split_ifs <;> first | rfl | omega
    rw [bind_apply_of_leave (search_clear hn)]
    simp only [child_bind, child, hleft, hstay, hhigh, hlow, hclear,
      Gadget.lt_groups_iff (by decide : 0 < 256)]
    by_cases hc : Data t (a - 2) a ∧ value t (a - 2) 2 < n
    · obtain ⟨b1, b2⟩ := hdata.1 hc.1
      have hlt := hc.2
      rw [hvalue] at hlt
      rw [dif_pos ⟨b1, by omega⟩, dif_pos ⟨b2, hlt⟩, dif_pos hc]
      simp only [hvalue]
    · rw [dif_neg hc]
      rw [hdata, hvalue] at hc
      split_ifs
      · tauto
      all_goals rfl

theorem setReturn_apply (hno : Unmarked t) (w : Width) :
    setReturn w h t = Reference.setReturn w h t := by
  have hw := w.bytes_pos
  have hs : 256 ≤ Symbol.argPointer := by decide
  have hfirst : deliverByte Symbol.argPointer .left (2 + 0) h t = _ :=
    deliverByte_apply hno hs .left _
  rw [setReturn, Reference.setReturn]
  by_cases hv : t (h - 1) < 256
  swap
  · rw [if_neg hv] at hfirst ⊢
    exact sequence_reject hw hfirst
  rw [if_pos hv] at hfirst ⊢
  cases hn : nearest? t Symbol.argPointer h with
  | none =>
    rw [hn] at hfirst
    exact sequence_hang hw hfirst
  | some a =>
    have hn := nearest?_eq_some_iff.1 hn
    have hah := hn.lt
    let dst : Nat → Int := fun j => a - 3 - j
    have hne : ∀ j < w.bytes, dst j ≠ a := fun j _ => by
      simp only [dst]
      omega
    have hseq : sequence (fun i => deliverByte Symbol.argPointer .left (2 + i)) w.bytes 0 h t =
        if ∀ j < w.bytes, popBytes t dst h j (h - j - 1) < 256 then
          .leave () (h - w.bytes) (popBytes t dst h w.bytes) else .reject := by
      refine sequence_deliverByte hno hs hn (fun j _ => ?_) hne fun j _ => ?_
      · simp only [dst, Direction.offset]
        push_cast
        ring
      · simp only [dst]
        omega
    have hcell : ∀ j : Nat, a < h - j → popBytes t dst h j (h - j - 1) = t (h - j - 1) :=
      fun j hj => popBytes_of_lt (by omega) fun i _ => by
        simp only [dst]
        omega
    -- bytes that are still to be popped are above the marker, and the others go below it
    have hdata : (∀ j < w.bytes, popBytes t dst h j (h - j - 1) < 256) ↔
        Data t (h - w.bytes) h := by
      constructor
      · intro hok
        have hlt := (isNearest_popBytes hn hs hne hok).lt
        refine data_iff_forall_below.2 fun j hj => ?_
        rw [← hcell j (by omega)]
        exact hok j hj
      · intro hd j hj
        have hlt : a < h - w.bytes := hn.lt_of_data hs hd
        rw [hcell j (by omega)]
        exact data_iff_forall_below.1 hd j hj
    simp only [hseq, hdata]
    split
    · next hd =>
      have hlt := (isNearest_popBytes hn hs hne (hdata.2 hd)).lt
      rw [popBytes_eq_overlay hw (by omega)]
      congr 2
      · ring
      · ring
      · funext c
        congr 1
        ring
    · rfl

end StackTape.Action
