import StackTape.Proofs.Execution

/-!
# Values put down below the stack

A store and the delivery of a return value pop a value and put it down further below, last byte
first. Both leave the same kind of tape behind (`MovedDown`): the bytes keep their order, the cells
that they have left are cleared, and nothing else changes. So a stored value is what a load of the
variable pushes (`compile_stores_variables`), and a return value, put down right below the id of the
call, is on top of the stack when the caller goes on (`compile_delivers_returnValues`).
-/

namespace StackTape

variable {t t' : Int → Nat} {h m a dst : Int} {n marker : Nat}

/-! ## Values that have moved -/

/-- On the tape `t'` the `n` cells below `h` have moved to the cells from `dst` on. What they have
left is cleared, and so is the cell `h`. -/
structure MovedDown (n : Nat) (h dst : Int) (t t' : Int → Nat) : Prop where
  moved : ∀ k < n, t' (dst + k) = t (h - n + k)
  cleared : ∀ x, h - n ≤ x → x ≤ h → t' x = 0
  same : ∀ x, x < dst ∨ dst + n ≤ x → x < h - n ∨ h < x → t' x = t x

theorem movedDown_overlay (hle : dst + n ≤ h - n) :
    MovedDown n h dst t (overlay (overlay t (h - n) (h + 1) fun _ => 0) dst (dst + n)
      fun c => t (c + (h - n - dst))) where
  moved k hk := by
    rw [overlay_apply, if_pos (by omega)]
    congr 1
    omega
  cleared x h1 h2 := by
    rw [overlay_apply, if_neg (by omega), overlay_apply, if_pos (by omega)]
  same x h1 h2 := by
    rw [overlay_apply, if_neg (by omega), overlay_apply, if_neg (by omega)]

namespace MovedDown

variable (hm : MovedDown n h dst t t') (hd : Data t (h - n) h)

include hm hd

theorem data : Data t' dst (dst + n) := by
  refine data_iff_forall.2 fun k hk => ?_
  rw [hm.moved k hk]
  exact hd _ (by omega) (by omega)

/-- Every cell holds what it has held, or a byte. -/
theorem eq_or_lt (x : Int) : t' x = t x ∨ t' x < 256 := by
  by_cases hnew : dst ≤ x ∧ x < dst + n
  · exact .inr (hm.data hd x hnew.1 hnew.2)
  · by_cases hold : h - n ≤ x ∧ x ≤ h
    · rw [hm.cleared x hold.1 hold.2]
      exact .inr (by omega)
    · exact .inl (hm.same x (by omega) (by omega))

theorem unmarked (hno : Unmarked t) : Unmarked t' :=
  unmarked_of_eq_or_lt hno (hm.eq_or_lt hd)

/-- A marker that the value has not been put down on is still found, from wherever above it. -/
theorem isNearest (hn : IsNearest t marker h m) (hs : 256 ≤ marker) (hdst : m < dst ∨ dst + n ≤ m)
    {r : Int} (hmr : m < r) (hrh : r ≤ h) : IsNearest t' marker r m := by
  have hlow : m < h - n := hn.lt_of_data hs hd
  refine ⟨hmr, (hm.same m hdst (.inl hlow)).trans hn.holds, fun x hmx hxr => ?_⟩
  rcases hm.eq_or_lt hd x with heq | hlt
  · rw [heq]
    exact hn.free x hmx (by omega)
  · omega

end MovedDown

/-- What a position does that moves the value on top down to `dst`: if a cell of the value does not
hold a byte, it rejects. -/
theorem Compilation.Finishes.moves_down {c : Compilation} {p : Program} {sites : CallSites}
    {σ : Stage} {j : Nat} {i : Instruction} {b : Action Unit} (hf : c.Finishes p sites σ)
    (hi : p[j]? = some i) (hnext : i.action sites j = Instruction.action.next j b)
    (hle : Data t (h - n) h → dst + n ≤ h - n)
    (hb : b h t =
      if Data t (h - n) h then
        .leave () (h - n) (overlay (overlay t (h - n) (h + 1) fun _ => 0) dst (dst + n)
          fun c => t (c + (h - n - dst)))
      else .reject) :
    (Data t (h - n) h → ∃ t', c.Passes j h t (j + 1) (h - n) t' ∧ MovedDown n h dst t t') ∧
      (¬Data t (h - n) h → c.RejectsAt j h t) := by
  obtain ⟨hpasses, hrejects⟩ := hf.decides_of_next hi hnext hb
  exact ⟨fun hd => ⟨_, hpasses hd, movedDown_overlay (hle hd)⟩, hrejects⟩

/-! ## Direct stores -/

/-- A load of the variable at `offset`, wherever in whatever program, pushes the given bytes when
the free cell is `h` and the tape is `t`. -/
def LoadsAs (f : Frame) (w : Width) (offset : Nat) (h : Int) (t : Int → Nat) (bytes : Nat → Nat) :
    Prop :=
  ∀ (o : Options) (p : Program) (c : Compilation) (j : Nat) (i : Instruction),
    compile o p = .ok c → p[j]? = some i → i.opcode = .load f w → i.operand1 = offset →
    ∃ t', c.Passes j h t (j + 1) (h + w.bytes) t' ∧ (∀ k < w.bytes, t' (h + k) = bytes k) ∧
      ∀ x, x < h ∨ h + w.bytes ≤ x → t' x = t x

theorem loadsAs_of_data {f : Frame} {w : Width} {offset : Nat} {bytes : Nat → Nat}
    (hno : Unmarked t) (hn : IsNearest t f.marker h m) (hle : m + 1 + offset + w.bytes ≤ h)
    (hd : Data t (m + 1 + offset) (m + 1 + offset + w.bytes))
    (hbytes : ∀ k < w.bytes, t (m + 1 + offset + k) = bytes k) : LoadsAs f w offset h t bytes := by
  intro o p c j i hc hi hop hoffset
  subst hoffset
  obtain ⟨-, sites, σ, hf⟩ := exists_finishes hc
  obtain ⟨hpasses, -⟩ := hf.load_decides hi hop hno hn hle
  exact ⟨_, hpasses hd, fun k hk => (overlay_shift hk).trans (hbytes k hk),
    fun x => overlay_of_outside⟩

/-- A direct store is exact. If the variable lies between the nearest marker of its frame and the
value on top, it takes the bytes of the value in their order, whatever it has held; loaded again,
these are pushed back. If a cell of the value does not hold a byte, the machine rejects. -/
theorem compile_stores_variables {o : Options} {p : Program} {c : Compilation}
    (hc : compile o p = .ok c) {j : Nat} {i : Instruction} (hi : p[j]? = some i) {f : Frame}
    {w : Width} (hop : i.opcode = .store f w) {h m : Int} {t : Int → Nat} (hno : Unmarked t)
    (hn : IsNearest t f.marker h m) (hle : m + 1 + i.operand1 + w.bytes ≤ h - w.bytes) :
    (Data t (h - w.bytes) h →
      ∃ t', c.Passes j h t (j + 1) (h - w.bytes) t' ∧
        MovedDown w.bytes h (m + 1 + i.operand1) t t' ∧
          LoadsAs f w i.operand1 (h - w.bytes) t' fun k => t (h - w.bytes + k)) ∧
    (¬Data t (h - w.bytes) h → c.RejectsAt j h t) := by
  obtain ⟨-, sites, σ, hf⟩ := exists_finishes hc
  have hnext : i.action sites j = Instruction.action.next j (.store w f.marker i.operand1) := by
    simp only [Instruction.action, hop]
  have hstore := Action.store_apply hno f.le_marker (h := h) w i.operand1
  rw [Reference.store_of_le hn hle] at hstore
  obtain ⟨hpasses, hrejects⟩ := hf.moves_down hi hnext (fun _ => hle) hstore
  refine ⟨fun hd => ?_, hrejects⟩
  obtain ⟨t', hpass, hm⟩ := hpasses hd
  -- the bytes went to cells above the marker, and hid no other one
  have hn' : IsNearest t' f.marker (h - w.bytes) m :=
    hm.isNearest hd hn f.le_marker (.inl (by omega)) (by omega) (by omega)
  exact ⟨t', hpass, hm, loadsAs_of_data (hm.unmarked hd hno) hn' hle (hm.data hd) hm.moved⟩

/-- A frame with a marker of another kind right above its own, and a value of two bytes on top. -/
def crowdedFrame (x : Int) : Nat :=
  if x = 0 then Symbol.basePointer else if x = 1 then Symbol.argPointer else
    if x = 3 then 8 else if x = 4 then 9 else 0

/-- The variable lies right below the value, and its first cell has held a marker. -/
theorem marker_overwritten : ∃ c t' t'',
    compile {} [⟨.store .locals .w16, 0, 0, 0⟩, ⟨.load .locals .w16, 0, 0, 0⟩] = .ok c ∧
    c.Passes 0 5 crowdedFrame 1 3 t' ∧ t' 1 = 8 ∧ t' 2 = 9 ∧
    c.Passes 1 3 t' 2 5 t'' ∧ t'' 3 = 8 ∧ t'' 4 = 9 := by
  obtain ⟨c, hc⟩ := exists_compile (o := {})
    (p := [⟨.store .locals .w16, 0, 0, 0⟩, ⟨.load .locals .w16, 0, 0, 0⟩]) rfl rfl
  have hno : Unmarked crowdedFrame := by
    intro x
    unfold crowdedFrame
    split_ifs <;> decide
  have hn : IsNearest crowdedFrame Frame.locals.marker 5 0 := by
    refine ⟨by decide, rfl, fun x hx _ => ?_⟩
    rw [crowdedFrame, if_neg (by omega)]
    split_ifs <;> decide
  obtain ⟨t', hpass, hm, hloads⟩ :=
    (compile_stores_variables hc (j := 0) rfl rfl hno hn (by decide)).1 (by decide)
  obtain ⟨t'', hpass', hpushed, -⟩ := hloads _ _ c 1 _ hc rfl rfl rfl
  exact ⟨c, t', t'', hc, hpass, hm.moved 0 Nat.zero_lt_two, hm.moved 1 Nat.one_lt_two, hpass',
    hpushed 0 Nat.zero_lt_two, hpushed 1 Nat.one_lt_two⟩

/-! ## Return values -/

theorem Reference.setReturn_of_isNearest {w : Width} (hn : IsNearest t Symbol.argPointer h a) :
    setReturn w h t =
      if Data t (h - w.bytes) h then
        .leave () (h - w.bytes)
          (overlay (overlay t (h - w.bytes) (h + 1) fun _ => 0) (a - 2 - w.bytes)
            (a - 2 - w.bytes + w.bytes) fun c => t (c + (h - w.bytes - (a - 2 - w.bytes))))
      else .reject := by
  have hw := w.bytes_pos
  have htop : a - 2 - w.bytes + w.bytes = a - 2 := by ring
  have hshift : h - w.bytes - (a - 2 - w.bytes) = h - a + 2 := by ring
  rw [setReturn, nearest?_eq_some_iff.2 hn, htop, hshift]
  by_cases hd : Data t (h - w.bytes) h
  · rw [if_pos (hd _ (by omega) (by omega))]
  · simp only [if_neg hd, ite_self]

/-- The two cells below the argument marker at `a` hold the id of the call at position `site`. -/
def Program.CalledFrom (p : Program) (site : Nat) (a : Int) (t : Int → Nat) : Prop :=
  ∃ sites id, CallSites.ofProgram? p = some sites ∧ sites.idAt? site = some id ∧
    t (a - 2) = id % 256 ∧ t (a - 1) = id / 256

theorem Compilation.Finishes.passes_of_ret {c : Compilation} {p : Program} {sites : CallSites}
    {σ : Stage} {k site : Nat} {l : Instruction} {r : Int} (hf : c.Finishes p sites σ)
    (hl : p[k]? = some l) (hop : l.opcode = .ret) (hn : IsNearest t Symbol.argPointer (r + 1) a)
    (hsite : p.CalledFrom site a t) :
    c.Passes k r t (site + 1) (a - 2) (overlay t (a - 2) (r + 1) fun _ => 0) := by
  obtain ⟨sites', id, hs, hid, hlow, hhigh⟩ := hsite
  obtain rfl : sites = sites' := Option.some.inj (hf.sites_eq.symm.trans hs)
  obtain ⟨i, hi, hcall, -⟩ := (CallSites.idAt?_eq_some_iff hs).1 hid
  have hcell : a - 2 + 1 = a - 1 := by ring
  have hlt := hn.lt
  refine hf.reaches_of_action hl
    (hf.ret_action_of_id hi hcall hid hop (by omega) hlow ?_ ?_ fun x h1 h2 => ?_)
  · rw [hcell]
    exact hhigh
  · rw [sub_add_cancel]
    exact hn.holds
  · exact hn.free x (by omega) (by omega)

/-- From the free cell `r` and the tape `t`, a return resumes the caller that is named below the
argument marker at `a`, with the given `n` bytes on top of its stack. -/
def Compilation.ReturnsWith (c : Compilation) (p : Program) (a r : Int) (t : Int → Nat) (n : Nat)
    (bytes : Nat → Nat) : Prop :=
  ∀ (k site : Nat) (l : Instruction), p[k]? = some l → l.opcode = .ret → p.CalledFrom site a t →
    ∃ t', c.Passes k r t (site + 1) (a - 2) t' ∧ ∀ x < n, t' (a - 2 - n + x) = bytes x

/-- A return value gets to the caller. It is put down right below the id of the call, and neither
the id nor the marker changes, so a return finds them where they were. As long as the cells of the
value are left alone and the marker is the nearest one, a return resumes the caller with the value
on top of its stack. If a cell of the value does not hold a byte, the machine rejects. -/
theorem compile_delivers_returnValues {o : Options} {p : Program} {c : Compilation}
    (hc : compile o p = .ok c) {j : Nat} {i : Instruction} (hi : p[j]? = some i) {w : Width}
    (hop : i.opcode = .setReturn w) {h a : Int} {t : Int → Nat} (hno : Unmarked t)
    (hn : IsNearest t Symbol.argPointer h a) :
    (Data t (h - w.bytes) h →
      ∃ t', c.Passes j h t (j + 1) (h - w.bytes) t' ∧
        MovedDown w.bytes h (a - 2 - w.bytes) t t' ∧
        IsNearest t' Symbol.argPointer (h - w.bytes + 1) a ∧
          ∀ r u, IsNearest u Symbol.argPointer (r + 1) a →
            (∀ x, a - 2 - w.bytes ≤ x → x < a - 2 → u x = t' x) →
              c.ReturnsWith p a r u w.bytes fun k => t (h - w.bytes + k)) ∧
    (¬Data t (h - w.bytes) h → c.RejectsAt j h t) := by
  have hw := w.bytes_pos
  have hs : 256 ≤ Symbol.argPointer := by decide
  obtain ⟨-, sites, σ, hf⟩ := exists_finishes hc
  have hnext : i.action sites j = Instruction.action.next j (.setReturn w) := by
    simp only [Instruction.action, hop]
  have hset := Action.setReturn_apply hno (h := h) w
  rw [Reference.setReturn_of_isNearest hn] at hset
  obtain ⟨hpasses, hrejects⟩ := hf.moves_down hi hnext (fun hd => by
    have hlt := hn.lt_of_data hs hd
    omega) hset
  refine ⟨fun hd => ?_, hrejects⟩
  obtain ⟨t', hpass, hm⟩ := hpasses hd
  -- the value was above the marker and is below the id now, so both are untouched
  have hlt : a < h - w.bytes := hn.lt_of_data hs hd
  refine ⟨t', hpass, hm, hm.isNearest hd hn hs (.inr (by omega)) (by omega) (by omega), ?_⟩
  intro r u hnr hslot k site l hl hret hsite
  refine ⟨_, hf.passes_of_ret hl hret hnr hsite, fun x hx => ?_⟩
  rw [overlay_apply, if_neg (by omega), hslot _ (by omega) (by omega), hm.moved x hx]

/-- A program with two calls of a procedure that hands over two bytes. -/
def Program.twoCalls : Program :=
  [⟨.call, 0, 0, 3⟩, ⟨.call, 0, 0, 3⟩, ⟨.accept, 0, 0, 0⟩, ⟨.setReturn .w16, 0, 0, 0⟩,
    ⟨.ret, 0, 0, 0⟩]

/-- The stack in the procedure, called for the second time and about to hand over its result. -/
def calleeFrame (x : Int) : Nat :=
  if x = 2 then 1 else if x = 4 then Symbol.argPointer else
    if x = 5 then 8 else if x = 6 then 9 else 0

/-- The bytes go past the id of the second call, to which the return leads. -/
theorem second_call_resumed : ∃ c t' u', compile {} Program.twoCalls = .ok c ∧
    c.Passes 3 7 calleeFrame 4 5 t' ∧ c.Passes 4 5 t' 2 2 u' ∧ u' 0 = 8 ∧ u' 1 = 9 := by
  obtain ⟨c, hc⟩ := exists_compile (o := {}) (p := Program.twoCalls) rfl rfl
  have hno : Unmarked calleeFrame := by
    intro x
    unfold calleeFrame
    split_ifs <;> decide
  have hn : IsNearest calleeFrame Symbol.argPointer 7 4 := by
    refine ⟨by decide, rfl, fun x hx _ => ?_⟩
    rw [calleeFrame, if_neg (by omega), if_neg (by omega)]
    split_ifs <;> decide
  obtain ⟨t', hpass, hm, hn', hreturns⟩ :=
    (compile_delivers_returnValues hc (j := 3) rfl rfl hno hn).1 (by decide)
  have hsite : Program.twoCalls.CalledFrom 1 4 t' := by
    refine ⟨_, 1, rfl, CallSites.idAt?_eq (p := Program.twoCalls) rfl rfl rfl, ?_, ?_⟩
    · exact hm.same 2 (.inr (by decide)) (.inl (by decide))
    · exact hm.same 3 (.inr (by decide)) (.inl (by decide))
  obtain ⟨u', hpass', hbytes⟩ := hreturns 5 t' hn' (fun _ _ _ => rfl) 4 1 _ rfl rfl hsite
  exact ⟨c, t', u', hc, hpass, hpass', hbytes 0 Nat.zero_lt_two, hbytes 1 Nat.one_lt_two⟩

end StackTape
