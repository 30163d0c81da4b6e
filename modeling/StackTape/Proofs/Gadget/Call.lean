import StackTape.Proofs.Gadget.Variable

/-!
# What calls and returns perform

A call inserts the two bytes of its id under the argument marker; each insertion ends in a loop
that moves everything above the marker one cell up. A return is itself a loop, over the cells down
to the marker, and its entry state is the one that goes round. It asks for the entry states of all
return addresses, so it is the only gadget that hands out entry states: `Stage.Extends` is what
such a construction leaves unchanged.
-/

namespace StackTape

open Stage

namespace Action

/-- The symbol that is carried one cell up: the marker itself at first, then one byte after the
other. -/
def lifted : Option (Fin 256) → Nat
  | none => Symbol.argPointer
  | some b => b

/-- Put down the symbol from the cell below and take up the byte of this one, up to the bookmark. -/
def lift (below : Option (Fin 256)) : Action (Option (Fin 256) ⊕ Unit) := fun h t =>
  if hb : t h < 256 then
    .leave (.inl (some ⟨t h, hb⟩)) (h + 1) (Function.update t h (lifted below))
  else if t h = Symbol.bookmark then
    .leave (.inr ()) (h + 1) (Function.update t h (lifted below))
  else .reject

noncomputable def insertByte (inserted : Nat) : Action Unit := do
  write Symbol.bookmark .left
  find .left Symbol.argPointer inserted .right
  loop lift none

noncomputable def call (id : Nat) : Action Unit :=
  sequence (fun i => insertByte (Draft.byteAt id i)) 2 0

/-- Clear the cells down to the argument marker and take the two bytes of an id below `n` from
under it. -/
noncomputable def ret (n : Nat) : Action (Fin n) := do
  search Symbol.argPointer (write 0 .left) (write 0 .left)
  let page ← child (Gadget.groups n 256) 0 .left
  child n page .stay

noncomputable def setReturn (w : Width) : Action Unit :=
  sequence (fun i => deliverByte Symbol.argPointer .left (2 + i)) w.bytes 0

end Action

namespace Gadget

variable {k : Scope} {σ : Stage} {entry exit : Nat}

/-! ## Calls -/

theorem nodup_input_moveUp {row : Block 256} {below : Nat} :
    ((insertByte.moveUp exit row below).map (·.input)).Nodup := by
  rw [insertByte.moveUp, List.map_append, List.nodup_append]
  refine ⟨nodup_input_byteRules fun _ => rfl, by simp, ?_⟩
  rintro v hv w hw rfl
  obtain ⟨r, hr, rfl⟩ := List.mem_map.1 hv
  obtain ⟨b, rfl⟩ := mem_byteRules.1 hr
  have hb : (b : Nat) = Symbol.bookmark := by simpa using hw
  have := b.isLt
  simp only [Symbol.bookmark] at hb
  omega

theorem mem_moveUp {row : Block 256} {below : Nat} {r : Transition} :
    r ∈ insertByte.moveUp exit row below ↔
      (∃ b : Fin 256, r = ⟨b, below, .right, row.first + b⟩) ∨
        r = ⟨Symbol.bookmark, below, .right, exit⟩ := by
  rw [insertByte.moveUp, List.mem_append, mem_byteRules, List.mem_singleton]
  refine or_congr_left (exists_congr fun b => ?_)
  exact eq_comm

/-- The state that carries a symbol up; the marker is put down by the first state of the loop. -/
def carrier (first : Nat) (row : Block 256) : Option (Fin 256) → Nat
  | none => first
  | some b => row.first + b

/-- One turn of the loop that moves everything up. -/
theorem moveUp_wires {s : Nat} (first : Nat) (row : Block 256) (below : Option (Fin 256))
    (hrow : ∀ b : Fin 256, σ.Target k (row.first + b)) (he : σ.Target k exit) :
    Wires k σ s (Draft.addRules s (insertByte.moveUp exit row (Action.lifted below)))
      (Sum.elim (carrier first row) fun _ => exit) (.lift below) := by
  intro hl hw
  have hout : Action.lifted below ≤ Symbol.globalPointer := by
    cases below with
    | none => decide
    | some b => exact Symbol.byte_le b.isLt
  let st : State := ⟨insertByte.moveUp exit row (Action.lifted below), State.unwired.fallback⟩
  have hwf : st.WellFormed (σ.Target k) := by
    refine .rules (.unwired (.reject rfl)) nodup_input_moveUp fun r hr => ?_
    rcases mem_moveUp.1 hr with ⟨b, rfl⟩ | rfl
    · exact ⟨Symbol.byte_le b.isLt, .inl hout, hrow b⟩
    · exact ⟨by simp [Symbol.bookmark, Symbol.globalPointer], .inl hout, he⟩
  have hrules : st.rules ≠ [] := List.ne_nil_of_mem (mem_moveUp.2 (.inr rfl))
  refine (rewire_builds _ hl hw hwf (.inl (State.mk_ne_unwired hrules))).imp ?_
  rintro _ σ' _ ⟨hc, hs⟩
  refine ⟨hc, fun c h head t => ?_⟩
  have hst : c.machine.states[s]? = some st := hs c h
  have hstep := Machine.step_of_state hst head t
  by_cases hb : t head < 256
  · have hmem : Transition.mk (t head) (Action.lifted below) .right (row.first + t head) ∈
        st.rules := mem_moveUp.2 (.inl ⟨⟨t head, hb⟩, rfl⟩)
    have hlook := State.lookup_of_mem nodup_input_moveUp hmem
    rw [hlook, if_neg (Symbol.ne_wildcard hout)] at hstep
    rw [Action.lift, dif_pos hb]
    exact .step hstep
  · by_cases hm : t head = Symbol.bookmark
    · have hmem : Transition.mk (t head) (Action.lifted below) .right exit ∈ st.rules :=
        mem_moveUp.2 (.inr (by rw [hm]))
      have hlook := State.lookup_of_mem nodup_input_moveUp hmem
      rw [hlook, if_neg (Symbol.ne_wildcard hout)] at hstep
      rw [Action.lift, dif_neg hb, if_pos hm]
      exact .step hstep
    · have hlook : st.lookup (t head) = State.unwired.fallback := by
        refine State.lookup_of_forall_ne fun r hr heq => ?_
        rcases mem_moveUp.1 hr with ⟨b, rfl⟩ | rfl
        · exact hb (heq ▸ b.isLt)
        · exact hm heq.symm
      rw [hlook] at hstep
      rw [Action.lift, dif_neg hb, if_neg hm]
      exact ⟨_, _, .step hstep⟩

theorem insertByte_wires {inserted : Nat} (hi : inserted < 256) (he : σ.Target k exit) :
    Wires k σ entry (insertByte inserted entry exit) (fun _ => exit) (.insertByte inserted) := by
  refine fresh_wires (fun _ _ _ ht => write_wires (by decide) .left ht)
    fun seek σ₁ he₁ hseek hinner => fresh_wires (fun shift σ₂ he₂ hshift => ?_)
      fun shift σ₂ he₂ hshift hin hl hw => ?_
  · exact scan_wires .left .right (hseek.mono he₂) (hinner.mono he₂) (by decide)
      (Symbol.byte_le hi) hshift
  · have he' := he.mono (he₁.trans he₂)
    refine (freshBlock_row_builds
      (fun row σ₃ he₃ hrow => moveUp_wires shift row none hrow (he'.mono he₃))
      (fun row σ₃ he₃ hrow _ => forM_wiresRow fun b σ₄ he₄ =>
        moveUp_wires shift row (some b) (fun i => (hrow i).mono he₄)
          (he'.mono (he₃.trans he₄))) hl hw).imp fun _ σ₃ he₃ ⟨hc, row, hp⟩ => ⟨hc, fun c h => ?_⟩
    obtain ⟨hs, hrow⟩ := hp c h
    have hs' : c.Inner shift := hin.mono he₃ c h
    refine Machine.Performs.loop (s := carrier shift row)
      (fun b => ?_) (fun b => ?_) none
    · cases b with
      | none => exact hs'
      | some b => exact (hrow b).1
    · cases b with
      | none => exact hs
      | some b => exact (hrow b).2

theorem call_wires (id : Nat) (he : σ.Target k exit) :
    Wires k σ entry (call id entry exit) (fun _ => exit) (.call id) :=
  chain_wires (by decide) he fun i _ _ _ _ hn => insertByte_wires (Draft.byteAt_lt id i) hn

theorem setReturn_wires (w : Width) (he : σ.Target k exit) :
    Wires k σ entry (setReturn w entry exit) (fun _ => exit) (.setReturn w) :=
  chain_wires w.bytes_pos he fun i _ _ _ _ hn => deliverByte_wires (by decide) .left (2 + i) hn

/-! ## Returns -/

section Return

variable {sites : CallSites} {page high : Nat}

/-- The entry state with which a program goes on after the call with the given id. -/
def resume? (sites : CallSites) (σ : Stage) (id : Nat) : Option Nat :=
  (sites.addresses[id]?).bind σ.entry

/-- A page that has ids at all ends where they end. -/
theorem mem_page {v : Nat} (hpage : page < groups sites.count 256) :
    v ∈ List.range (pageSize (sites.count - 1) page) ↔ v < 256 ∧ 256 * page + v < sites.count := by
  rw [List.mem_range]
  simp only [pageSize, groups] at hpage ⊢
  split <;> omega

/-- The pages of a return are those that cover its ids. -/
theorem forM_pages (f : Nat → DraftM Unit) :
    (if 0 < sites.count then (List.range ((sites.count - 1) / 256 + 1)).forM f else pure ()) =
      (List.range (groups sites.count 256)).forM f := by
  split
  · have hpages : (sites.count - 1) / 256 + 1 = groups sites.count 256 := by
      rw [groups]
      omega
    rw [hpages]
  · have hnone : groups sites.count 256 = 0 := by
      rw [groups]
      omega
    rw [hnone]
    rfl

/-- The look-up of an id within the table has an answer. -/
theorem returnAddress_eq {id : Nat} (h : id < sites.addresses.length) :
    sites.returnAddress id = .ok sites.addresses[id] :=
  CallSites.returnAddress_eq_ok_iff.2 (List.getElem?_eq_getElem h)

/-- A table of return addresses: one transition for each id of a page, to the entry state of its
address. -/
theorem exists_returnRules {l : List Nat} {rules : List Transition}
    (h : List.Forall₂ (fun v r => resume? sites σ (256 * page + v) = some r.next ∧
      r = ⟨v, 0, .stay, r.next⟩) l rules) :
    ∃ next : Nat → Nat, rules = l.map (fun v => ⟨v, 0, .stay, next v⟩) ∧
      ∀ v ∈ l, resume? sites σ (256 * page + v) = some (next v) := by
  refine ⟨fun v => (resume? sites σ (256 * page + v)).getD 0, ?_, ?_⟩
  · induction h with
    | nil => rfl
    | cons hr _ ih =>
      rw [List.map_cons, ← ih]
      simp only [hr.1, Option.getD_some, ← hr.2]
  · induction h with
    | nil => simp
    | cons hr _ ih =>
      intro v hv
      rcases List.mem_cons.1 hv with rfl | hv
      · simp only [hr.1, Option.getD_some]
      · exact ih v hv

/-- As long as the ids are within the table, no look-up is at fault. -/
theorem returnRules_builds (l : List Nat) (hl : ∀ v ∈ l, 256 * page + v < sites.count) :
    Builds k σ (l.mapM fun v => do
      let address ← Draft.answer (sites.returnAddress (256 * page + v))
      return (⟨v, 0, .stay, ← Draft.entryAt address⟩ : Transition)) fun rules σ' =>
        σ.Extends nothing nothing σ' ∧ ∃ next : Nat → Nat,
          rules = l.map (fun v => ⟨v, 0, .stay, next v⟩) ∧
            ∀ v ∈ l, resume? sites σ' (256 * page + v) = some (next v) := by
  let R : Nat → Transition → Stage → Prop := fun v r σ' =>
    resume? sites σ' (256 * page + v) = some r.next ∧ r = ⟨v, 0, .stay, r.next⟩
  refine (Builds.mapM l (Stage.Extends nothing nothing) R (Changes.refl σ).extends ?_ ?_ ?_).imp
    fun rules σ' _ h => ⟨h.1, exists_returnRules h.2⟩
  · intro σ₃ σ₄ he₃ he₄ hx₃ hx₄
    simpa using hx₃.trans hx₄ he₃ he₄ (fun _ h => h.elim) fun _ h => h.elim
  · rintro v r σ₃ σ₄ he ⟨hr, hr'⟩
    obtain ⟨address, ha, hentry⟩ := Option.bind_eq_some_iff.1 hr
    exact ⟨Option.bind_eq_some_iff.2 ⟨address, ha, he.entry _ _ hentry⟩, hr'⟩
  · intro v hv σ' _
    have hlt : 256 * page + v < sites.addresses.length := hl v hv
    rw [returnAddress_eq hlt, Draft.answer_ok, pure_bind]
    refine (entryAt_builds _).bind fun id σ'' _ h => .pure ⟨h.extends, ?_, rfl⟩
    exact Option.bind_eq_some_iff.2 ⟨_, List.getElem?_eq_getElem hlt, h.entry_self⟩

/-- The transitions of a page, one for each id that it has. -/
def idRules (sites : CallSites) (page : Nat) (next : Nat → Nat) : List Transition :=
  (List.range (pageSize (sites.count - 1) page)).map fun v => ⟨v, 0, .stay, next v⟩

section Page

variable {next : Nat → Nat}

theorem mem_idRules {r : Transition} (hpage : page < groups sites.count 256) :
    r ∈ idRules sites page next ↔
      ∃ v, ∃ _ : 256 * page + v < sites.count, v < 256 ∧ r = ⟨v, 0, .stay, next v⟩ := by
  rw [idRules, List.mem_map]
  constructor
  · rintro ⟨v, hv, rfl⟩
    obtain ⟨hlt, hn⟩ := (mem_page hpage).1 hv
    exact ⟨v, hn, hlt, rfl⟩
  · rintro ⟨v, hn, hlt, rfl⟩
    exact ⟨v, (mem_page hpage).2 ⟨hlt, hn⟩, rfl⟩

theorem nodup_input_idRules : ((idRules sites page next).map (·.input)).Nodup := by
  rw [idRules, List.map_map]
  exact List.nodup_range.map fun _ _ h => h

theorem idRules_ne_nil (hpage : page < groups sites.count 256) :
    idRules sites page next ≠ [] := by
  have hfirst : 256 * page + 0 < sites.count := by
    rw [groups] at hpage
    omega
  exact List.ne_nil_of_mem ((mem_idRules hpage).2 ⟨0, hfirst, by decide, rfl⟩)

variable (hpage : page < groups sites.count 256)
  (hnext : ∀ v ∈ List.range (pageSize (sites.count - 1) page),
    resume? sites σ (256 * page + v) = some (next v))

include hpage hnext

theorem wellFormed_idRules (hgoal : ∀ a ∈ sites.addresses, k.goal a) :
    (State.mk (idRules sites page next) State.unwired.fallback).WellFormed (σ.Target k) := by
  refine .rules (.unwired (.reject rfl)) nodup_input_idRules fun r hr => ?_
  obtain ⟨v, hn, hlt, rfl⟩ := (mem_idRules hpage).1 hr
  obtain ⟨address, ha, hentry⟩ :=
    Option.bind_eq_some_iff.1 (hnext v ((mem_page hpage).2 ⟨hlt, hn⟩))
  exact ⟨Symbol.byte_le hlt, .inl (Nat.zero_le _),
    .goal address (hgoal address (List.mem_of_getElem? ha)) hentry⟩

/-- A page goes on where the calls with its ids go on. -/
theorem performs_idRules {c : Compilation} (hc : c.Completes σ) {low : Nat}
    (hst : c.machine.states[low]? = some ⟨idRules sites page next, State.unwired.fallback⟩) :
    c.Performs low (fun i : Fin sites.addresses.length => c.entryOf (sites.addresses.get i))
      (.child sites.addresses.length page .stay) := by
  have hentry : ∀ v (hn : 256 * page + v < sites.addresses.length), v < 256 →
      c.entryOf (sites.addresses.get ⟨256 * page + v, hn⟩) = next v := by
    intro v hn hlt
    have hresume := hnext v ((mem_page hpage).2 ⟨hlt, hn⟩)
    rw [resume?, List.getElem?_eq_getElem hn, Option.bind_some] at hresume
    exact hc.entryOf hresume
  refine performs_child hst nodup_input_idRules fun r => (mem_idRules hpage).trans ?_
  refine exists_congr fun v => exists_congr fun hn => and_congr_right fun hlt => ?_
  rw [hentry v hn hlt]

end Page

/-- A page of return addresses gets a state of its own, to which the state for the high byte
leads. -/
theorem returnPage_builds {rules : List Transition} (hpage : page < groups sites.count 256)
    (hl : σ.live high) (hw : σ.wiring high = some ⟨rules, State.unwired.fallback⟩)
    (hgoal : ∀ a ∈ sites.addresses, k.goal a) :
    Builds k σ (returnPage high sites page) fun _ σ' => σ.Extends (only high) nothing σ' ∧
      ∃ low, σ'.wiring high = some ⟨rules ++ [⟨page, 0, .left, low⟩], State.unwired.fallback⟩ ∧
        σ'.Target k low ∧ σ'.Ensures fun c => c.Inner low ∧
          c.Performs low (fun i : Fin sites.addresses.length => c.entryOf (sites.addresses.get i))
            (.child sites.addresses.length page .stay) := by
  have hhigh : high < σ.size := σ.live_lt hl
  refine fresh_builds.bind fun low σ₁ he₁ h₁ => ?_
  have hlow := h₁.eq_size
  obtain ⟨hl₁, hw₁⟩ := h₁.changes.keep hl hw id
  refine (rewire_edits _ hl₁ hw₁).bind fun _ σ₂ he₂ h₂ => ?_
  refine (returnRules_builds _ fun v hv => ((mem_page hpage).1 hv).2).bind ?_
  rintro _ σ₃ he₃ ⟨hx₃, next, rfl, hnext⟩
  have hsize₁ := he₁.size_le
  have hsize₂ := h₂.size_eq
  have hsize₃ := he₃.size_le
  have hlow₁ : low < σ₁.size := lt_of_wiring (h₁.changes.unwired low rfl)
  have hl₂ : σ₂.live low := (h₂.live low).2 (h₁.changes.opened rfl).1
  have hl₃ : σ₃.live low := (hx₃.live low).2 (.inl ⟨hl₂, id⟩)
  have hw₃ : σ₃.wiring low = some .unwired := by
    rw [hx₃.wiring low (by omega) id, h₂.wiring low (by omega)]
    exact h₁.changes.unwired low rfl
  have hrules : idRules sites page next ≠ [] := idRules_ne_nil hpage
  refine (rewire_builds _ hl₃ hw₃ (wellFormed_idRules hpage hnext hgoal)
    (.inl (State.mk_ne_unwired hrules))).imp ?_
  rintro _ σ₄ he₄ ⟨hc₄, hs⟩
  refine ⟨?_, low, ?_⟩
  · have hx : σ₁.Extends (only high) nothing σ₃ := by
      have := h₂.extends.trans hx₃ he₂ he₃ (fun _ h => h.elim) fun _ h => h.elim
      simpa only [nothing, or_false] using this
    exact .between h₁.changes hlow.ge hx (he₂.trans he₃) hc₄ fun _ _ h => h.resolve_left id
  · refine ⟨?_, h₁.target.mono (he₂.trans (he₃.trans he₄)), fun c h => ⟨?_, ?_⟩⟩
    · rw [hc₄.wiring high (by omega) (by simp only [only]; omega),
        hx₃.wiring high (by omega) (fun h => h), h₂.wiring_self]
    · exact h₁.inner.mono (he₂.trans (he₃.trans he₄)) c h
    · exact performs_idRules hpage hnext (h.of_evolves he₄) (hs c h)

/-- The transitions of the state for the high byte, to the states of the pages. -/
def pageRules (low : Nat → Nat) (pages : List Nat) : List Transition :=
  pages.map fun page => ⟨page, 0, .left, low page⟩

theorem nodup_input_pageRules {low : Nat → Nat} {pages : List Nat} (h : pages.Nodup) :
    ((pageRules low pages).map (·.input)).Nodup := by
  rw [pageRules, List.map_map]
  exact h.map fun _ _ h => h

theorem pageRules_append {low : Nat → Nat} {pages : List Nat} (hnew : page ∉ pages) (low' : Nat) :
    pageRules (Function.update low page low') (pages ++ [page]) =
      pageRules low pages ++ [⟨page, 0, .left, low'⟩] := by
  have hold : ∀ p ∈ pages, Function.update low page low' p = low p := by
    intro p hp
    have hne : p ≠ page := fun h => hnew (h ▸ hp)
    rw [Function.update_of_ne hne]
  rw [pageRules, List.map_append, List.map_singleton, Function.update_self]
  exact congrArg (· ++ _) (List.map_congr_left fun p hp => by rw [hold p hp])

/-- The pages dealt with so far: the state for the high byte leads to the state of each of them. -/
def Paged (k : Scope) (sites : CallSites) (high : Nat) (pages : List Nat) (σ : Stage) : Prop :=
  ∃ low : Nat → Nat,
    σ.wiring high = some ⟨pageRules low pages, State.unwired.fallback⟩ ∧
      ∀ page ∈ pages, σ.Target k (low page) ∧ σ.Ensures fun c => c.Inner (low page) ∧
        c.Performs (low page)
          (fun i : Fin sites.addresses.length => c.entryOf (sites.addresses.get i))
          (.child sites.addresses.length page .stay)

theorem returnPages_builds (hl : σ.live high) (hw : σ.wiring high = some .unwired)
    (hgoal : ∀ a ∈ sites.addresses, k.goal a) :
    Builds k σ ((List.range (groups sites.count 256)).forM (returnPage high sites)) fun _ σ' =>
      σ.Extends (only high) nothing σ' ∧
        Paged k sites high (List.range (groups sites.count 256)) σ' := by
  have hhigh : high < σ.size := σ.live_lt hl
  refine Builds.forM (List.range (groups sites.count 256))
    (fun pages σ' => σ.Extends (only high) nothing σ' ∧ Paged k sites high pages σ') ?_ ?_
  · refine ⟨⟨fun _ _ _ => rfl, (Changes.refl σ).extends.live, (Changes.refl σ).extends.unwired⟩,
      fun _ => 0, hw, fun page hp => ?_⟩
    cases hp
  · rintro before page rest hsplit σ' he ⟨hx, low, hw', hlow⟩
    have hl' : σ'.live high := (hx.live high).2 (.inl ⟨hl, fun h => h⟩)
    have hnew : page ∉ before := by
      have hnodup := hsplit ▸ List.nodup_range (n := groups sites.count 256)
      rw [List.nodup_append] at hnodup
      exact fun h => hnodup.2.2 page h page List.mem_cons_self rfl
    have hpage : page < groups sites.count 256 := by
      rw [← List.mem_range, hsplit]
      exact List.mem_append_right _ List.mem_cons_self
    refine (returnPage_builds hpage hl' hw' hgoal).imp
      fun _ σ'' he' ⟨hx', low', hw'', ht, hp⟩ => ⟨?_, ?_⟩
    · have := hx.trans hx' he he' (by rintro _ rfl; exact hhigh) fun _ h => h.elim
      simpa only [or_self] using this
    · refine ⟨Function.update low page low', ?_, fun page' hm => ?_⟩
      · rw [hw'', pageRules_append hnew]
      · by_cases hpage : page' = page
        · subst hpage
          rw [Function.update_self]
          exact ⟨ht, hp⟩
        · have hm : page' ∈ before := by simpa [hpage] using hm
          rw [Function.update_of_ne hpage]
          exact ⟨(hlow page' hm).1.mono he', (hlow page' hm).2.mono he'⟩

/-- The state for the high byte of an id. -/
theorem Paged.wellFormed (h : Paged k sites high (List.range (groups sites.count 256)) σ)
    (hlen : sites.addresses.length ≤ maxCallSites) :
    ∃ st, σ.wiring high = some st ∧ st.WellFormed (σ.Target k) ∧
      (0 < sites.count → st ≠ .unwired) ∧ σ.Ensures fun c =>
      c.machine.states[high]? = some st →
        c.Performs high (fun i : Fin sites.addresses.length => c.entryOf (sites.addresses.get i))
          (do let page ← Action.child (groups sites.count 256) 0 .left
              Action.child sites.addresses.length page .stay) := by
  obtain ⟨low, hw, hlow⟩ := h
  have hnodup : ((pageRules low (List.range (groups sites.count 256))).map (·.input)).Nodup :=
    nodup_input_pageRules List.nodup_range
  have hpages : groups sites.count 256 ≤ 256 := by
    simp only [groups, CallSites.count, maxCallSites] at hlen ⊢
    omega
  refine ⟨_, hw, .rules (.unwired (.reject rfl)) hnodup fun r hr => ?_,
    fun hpos => State.mk_ne_unwired ?_, fun c h hst => ?_⟩
  · obtain ⟨page, hp, rfl⟩ := List.mem_map.1 hr
    have hlt : page < 256 := by
      rw [List.mem_range] at hp
      omega
    exact ⟨Symbol.byte_le hlt, .inl (Nat.zero_le _), (hlow page hp).1⟩
  · have hfirst : 0 < groups sites.count 256 := by
      rw [groups]
      omega
    exact List.ne_nil_of_mem (List.mem_map_of_mem (List.mem_range.2 hfirst))
  · have hpage : ∀ i : Fin (groups sites.count 256), _ := fun i =>
      (hlow i (List.mem_range.2 i.isLt)).2 c h
    suffices hhigh : c.Performs high (fun i : Fin (groups sites.count 256) => low i)
        (.child (groups sites.count 256) 0 .left) from
      hhigh.bind (fun i => (hpage i).1) fun i => (hpage i).2
    refine performs_child hst hnodup fun r => ?_
    simp only [pageRules, List.mem_map, List.mem_range, Nat.mul_zero, Nat.zero_add]
    constructor
    · rintro ⟨page, hlt, rfl⟩
      exact ⟨page, hlt, by omega, rfl⟩
    · rintro ⟨page, hlt, -, rfl⟩
      exact ⟨page, hlt, rfl⟩

/-- A return goes round in its own entry state until it has found the marker. If there are no calls,
the state for the high byte of an id is left as it was handed out. -/
theorem ret_builds (hcalls : 0 < sites.count ∨ k.idle) (hl : σ.live entry)
    (hw : σ.wiring entry = some .unwired) (hself : σ.Target k entry)
    (hgoal : ∀ a ∈ sites.addresses, k.goal a) (hlen : sites.addresses.length ≤ maxCallSites) :
    Builds k σ (ret sites entry) fun _ σ' => σ.Extends (only entry) (only entry) σ' ∧
      σ'.Ensures fun c => c.machine.Performs (fun id => c.Inner id ∨ id = entry) entry
          (fun i : Fin sites.addresses.length => c.entryOf (sites.addresses.get i))
          (.ret sites.addresses.length) ∧
        ∃ high, c.machine.Performs (only entry) entry (fun _ => high)
          (.search Symbol.argPointer (.write 0 .left) (.write 0 .left)) := by
  have hentry : entry < σ.size := σ.live_lt hl
  refine fresh_builds.bind fun high σ₁ he₁ h₁ => ?_
  have hhigh := h₁.eq_size
  obtain ⟨hl₁, hw₁⟩ := h₁.changes.keep hl hw id
  have hwf : (State.mk [⟨Symbol.argPointer, 0, .left, high⟩] (.write 0 .left entry)).WellFormed
      (σ₁.Target k) := by
    refine .rules (.write (Nat.zero_le _) .left (hself.mono he₁)) (by simp) fun r hr => ?_
    obtain rfl := List.mem_singleton.1 hr
    exact ⟨by simp [Symbol.argPointer, Symbol.globalPointer], .inl (Nat.zero_le _), h₁.target⟩
  rw [← bind_assoc]
  unfold Draft.setFallback Draft.addRules
  rw [Draft.rewire_rewire]
  refine (rewire_builds _ hl₁ hw₁ hwf (.inl (State.mk_ne_unwired (List.cons_ne_nil _ _)))).bind ?_
  rintro _ σ₂ he₂ ⟨hc₂, hs₂⟩
  have hc : σ.Changes (only entry) (only high) σ₂ :=
    h₁.changes.wire hc₂ he₁.size_le (by omega)
  obtain ⟨hl₂, hw₂⟩ := hc.opened (s := high) rfl
  rw [forM_pages]
  refine Builds.settle (only high) (returnPages_builds hl₂ hw₂ hgoal) ?_ ?_
  · rintro _ σ₃ he₃ ⟨-, hp⟩ _ rfl
    obtain ⟨st, hw, hwf, hne, -⟩ := hp.wellFormed hlen
    exact ⟨st, hw, hwf, hcalls.imp_left hne⟩
  · rintro _ σ₃ he₃ ⟨hx, hp⟩ he₄ hsettled
    refine ⟨?_, fun c h => ?_⟩
    · refine .between hc hhigh.ge hx he₃ (changes_settle σ₃ _) fun id hlt hid => ?_
      rcases hid with hid | hid
      · exact hid
      · exact absurd hid (by omega)
    · obtain ⟨st, hw, -, -, hhigh⟩ := hp.wellFormed hlen
      have hhigh := hhigh c (h.of_evolves he₄) (hsettled high st rfl hw c h)
      have hin : c.Inner high := h₁.inner.mono (he₂.trans (he₃.trans he₄)) c h
      have hst := hs₂.mono (he₃.trans he₄) c h
      have hloop : c.machine.Performs (only entry) entry (fun _ => high)
          (.search Symbol.argPointer (.take (.write 0 .left entry))
            (.take (.write 0 .left high))) :=
        Machine.performs_search hst rfl rfl
      rw [Action.take_write (by decide), Action.take_write (by decide)] at hloop
      refine ⟨?_, high, hloop⟩
      exact (hloop.mono fun _ => .inr).bind (fun _ => .inl hin) fun _ => hhigh.mono fun _ => .inl

end Return

end Gadget

end StackTape
