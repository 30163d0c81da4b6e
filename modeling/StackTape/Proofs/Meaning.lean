import StackTape.Proofs.CallSites
import StackTape.Proofs.Effect.Arithmetic
import StackTape.Proofs.Effect.Call
import StackTape.Proofs.Effect.Stack

/-!
# What the actions of instructions mean

On a tape without a bookmark the action of an instruction is its effect in the reference interpreter
(`Instruction.action_apply`), and no effect leaves a bookmark behind (`Instruction.tidy_effect`).
-/

namespace StackTape

/-! ## Instructions -/

namespace Action

variable {h : Int} {t : Int → Nat}

/-- A return goes to the address that its id stands for, if there is one. -/
theorem ret_bind (addresses : List Nat) :
    (ret addresses.length >>= fun id => pure (Exit.goto (addresses.get id))) h t =
      (Reference.ret >>= fun id =>
        match addresses[id]? with
        | some q => pure (.goto q)
        | none => fun _ _ => .reject) h t := by
  rw [bind_apply, bind_apply, ret_apply, Reference.ret]
  cases nearest? t Symbol.argPointer (h + 1) with
  | none => rfl
  | some a =>
    dsimp only
    by_cases hd : Data t (a - 2) a
    · rw [if_pos hd]
      by_cases hlt : value t (a - 2) 2 < addresses.length
      · rw [dif_pos ⟨hd, hlt⟩]
        simp only [List.getElem?_eq_getElem hlt]
        rfl
      · rw [dif_neg fun hc => hlt hc.2]
        simp only [List.getElem?_eq_none (Nat.not_lt.1 hlt)]
    · rw [if_neg hd, dif_neg fun hc => hd hc.1]

end Action

namespace Instruction

variable {p : Program} {sites : CallSites} {position : Nat} {i : Instruction} {h h' : Int}
  {t t' : Int → Nat} {o : Options}

theorem shift_le (hop : i.opcode = .indexShift) (hv : i.violation? o p.length = none) :
    i.operand1 ≤ 8 := by
  rw [violation?, hop] at hv
  split at hv
  · cases hv
  · dsimp only at hv
    split at hv
    · cases hv
    · omega

theorem action_apply (hs : CallSites.ofProgram? p = some sites) (hi : p[position]? = some i)
    (hv : i.violation? o p.length = none) (hno : Unmarked t) :
    i.action sites position h t = i.effect p position h t := by
  obtain ⟨opcode, operand1, operand2, target⟩ := i
  cases opcode with
  | push w => exact Action.bind_apply_congr (Action.push_apply w operand1) _
  | pop w => exact Action.bind_apply_congr (Action.pop_apply w) _
  | dup w => exact Action.bind_apply_congr (Action.dup_apply w) _
  | swap w => exact Action.bind_apply_congr (Action.swap_apply w operand1) _
  | enter => rfl
  | alloc => exact Action.bind_apply_congr (Action.alloc_apply operand1) _
  | free => exact Action.bind_apply_congr (Action.free_apply operand1) _
  | load f w => exact Action.bind_apply_congr (Action.load_apply hno f.le_marker w operand1) _
  | loadIndirect f w =>
    have hindexed := Action.popIndex_bind (h := h) operand2 hno fun index h t ht =>
      Action.load_apply (h := h) ht f.le_marker w (operand1 + index)
    exact Action.bind_apply_congr hindexed _
  | store f w => exact Action.bind_apply_congr (Action.store_apply hno f.le_marker w operand1) _
  | storeIndirect f w =>
    have hindexed := Action.popIndex_bind (h := h) operand2 hno fun index h t ht =>
      Action.store_apply (h := h) ht f.le_marker w (operand1 + index)
    exact Action.bind_apply_congr hindexed _
  | makeArgs => exact Action.bind_apply_congr (Action.makeArgs_apply operand1) _
  | binary op w => exact Action.bind_apply_congr (Action.binary_apply op w) _
  | indexShift => exact Action.bind_apply_congr (Action.indexShift_apply (shift_le rfl hv)) _
  | setReturn w => exact Action.bind_apply_congr (Action.setReturn_apply hno w) _
  | jump | accept | reject => rfl
  | call =>
    have hid : (sites.idAt? position).getD 0 = p.callId position := by
      rw [CallSites.idAt?_eq hs hi rfl, Option.getD_some]
    rw [action, effect, hid]
    exact Action.bind_apply_congr (Action.call_apply hno _) _
  | jumpIfZero => exact Action.bind_apply_congr Action.popFlag_apply _
  | jumpIfNonzero => exact Action.bind_apply_congr Action.popFlag_apply _
  | ret =>
    rw [action, effect, ← CallSites.addresses_eq hs]
    exact Action.ret_bind sites.addresses

end Instruction

/-! ## Bookmarks -/

/-- The tape that is left, if any, has no bookmark. -/
def Ending.Tidy {ε : Type} : Ending ε → Prop
  | .leave _ _ t => Unmarked t
  | .reject | .hang => True

/-- An action that does not leave a bookmark behind if it does not find one. -/
def Action.Tidy {ε : Type} (a : Action ε) : Prop := ∀ h t, Unmarked t → (a h t).Tidy

theorem Ending.tidy_ite {ε : Type} {c : Prop} [Decidable c] {e : ε} {h : Int} {t : Int → Nat}
    (ht : Unmarked t) : Ending.Tidy (if c then .leave e h t else .reject) := by
  split
  · exact ht
  · trivial

namespace Action

variable {α β : Type}

theorem tidy_pure (e : α) : Tidy (pure e : Action α) := fun _ _ hno => hno

theorem Tidy.bind {a : Action α} {f : α → Action β} (ha : Tidy a) (hf : ∀ e, Tidy (f e)) :
    Tidy (a >>= f) := by
  intro h t hno
  have hax := ha h t hno
  rw [bind_apply]
  cases hx : a h t with
  | leave e h' t' =>
    rw [hx] at hax
    exact hf e h' t' hax
  | reject | hang => trivial

end Action

namespace Reference

theorem tidy_load (w : Width) (marker offset : Nat) : Action.Tidy (load w marker offset) := by
  intro h t hno
  rw [load]
  split
  · trivial
  · split
    · split
      · next hok => exact unmarked_copyBytes hno hok
      · trivial
    · split <;> trivial

theorem tidy_store (w : Width) (marker offset : Nat) : Action.Tidy (store w marker offset) := by
  intro h t hno
  rw [store]
  split
  · split
    · trivial
    · split
      · split
        · next hok => exact unmarked_popBytes hno hok
        · trivial
      · trivial
  · trivial

theorem tidy_popIndex (bound : Nat) : Action.Tidy (popIndex bound) := fun _ _ hno =>
  Ending.tidy_ite (unmarked_overlay hno fun _ _ _ => by decide)

theorem tidy_popFlag : Action.Tidy popFlag := fun _ _ hno =>
  Ending.tidy_ite (unmarked_update hno (by decide))

theorem tidy_call (id : Nat) : Action.Tidy (call id) := by
  intro h t hno
  rw [call]
  split
  · trivial
  · refine Ending.tidy_ite (unmarked_overlay hno fun c _ _ => ?_)
    split_ifs
    · exact ne_bookmark_of_lt (Draft.byteAt_lt id 0)
    · exact ne_bookmark_of_lt (Draft.byteAt_lt id 1)
    · decide
    · exact hno _

theorem tidy_ret : Action.Tidy ret := by
  intro h t hno
  rw [ret]
  split
  · trivial
  · exact Ending.tidy_ite (unmarked_overlay hno fun _ _ _ => by decide)

theorem tidy_setReturn (w : Width) : Action.Tidy (setReturn w) := by
  intro h t hno
  rw [setReturn]
  split
  · split
    · trivial
    · exact Ending.tidy_ite
        (unmarked_overlay (unmarked_overlay hno fun _ _ _ => by decide) fun _ _ _ => hno _)
  · trivial

end Reference

open Reference in
/-- No instruction leaves a bookmark behind. -/
theorem Instruction.tidy_effect (p : Program) (position : Nat) (i : Instruction) :
    Action.Tidy (i.effect p position) := by
  have hnext : ∀ {a : Action Unit}, Action.Tidy a → Action.Tidy (effect.next position a) :=
    fun ha => ha.bind fun _ => Action.tidy_pure _
  have hbyte : ∀ v n, Draft.byteAt v n ≠ Symbol.bookmark := fun v n =>
    ne_bookmark_of_lt (Draft.byteAt_lt v n)
  obtain ⟨opcode, operand1, operand2, target⟩ := i
  cases opcode with
  | push w => exact hnext fun _ _ hno => unmarked_overlay hno fun _ _ _ => hbyte _ _
  | pop w | alloc | free =>
    exact hnext fun _ _ hno => unmarked_overlay hno fun _ _ _ => by decide
  | enter => exact hnext fun _ _ hno => unmarked_update hno (by decide)
  | dup w => exact hnext fun _ _ hno => Ending.tidy_ite (unmarked_overlay hno fun _ _ _ => hno _)
  | swap w =>
    exact hnext fun _ _ hno => Ending.tidy_ite
      (unmarked_overlay (unmarked_overlay hno fun _ _ _ => hno _) fun _ _ _ => hno _)
  | makeArgs =>
    refine hnext fun _ _ hno => Ending.tidy_ite (unmarked_overlay hno fun _ _ _ => ?_)
    split
    · decide
    · exact hno _
  | binary op w =>
    exact hnext fun _ _ hno => Ending.tidy_ite
      (unmarked_overlay (unmarked_overlay hno fun _ _ _ => by decide) fun _ _ _ => hbyte _ _)
  | indexShift =>
    exact hnext fun _ _ hno => Ending.tidy_ite (unmarked_overlay hno fun _ _ _ => hbyte _ _)
  | load f w => exact hnext (tidy_load w f.marker operand1)
  | loadIndirect f w => exact hnext ((tidy_popIndex _).bind fun _ => tidy_load w f.marker _)
  | store f w => exact hnext (tidy_store w f.marker operand1)
  | storeIndirect f w => exact hnext ((tidy_popIndex _).bind fun _ => tidy_store w f.marker _)
  | setReturn w => exact hnext (tidy_setReturn w)
  | jump | accept => exact Action.tidy_pure _
  | jumpIfZero | jumpIfNonzero => exact tidy_popFlag.bind fun _ => Action.tidy_pure _
  | call => exact (tidy_call _).bind fun _ => Action.tidy_pure _
  | ret =>
    refine tidy_ret.bind fun id => ?_
    split
    · exact Action.tidy_pure _
    · exact fun _ _ _ => trivial
  | reject => exact fun _ _ _ => trivial

end StackTape
