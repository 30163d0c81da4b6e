import StackTape.Proofs.Simulation

/-!
# The outcome of compilation

The contract of the operands is stated once more, as a relation between an instruction and the
violations it is guilty of (`Instruction.Violates`). Compilation reports too many calls before
anything else, then the first violation at the least position that has one, and otherwise it gives a
machine. Whatever the operands are, drafting never looks for something that is not there: not for a
state, and not for an entry of one of its tables.
-/

namespace StackTape

/-! ## One instruction -/

/-- The place of a violation in the order in which they are looked for. -/
def Violation.rank : Violation → Nat
  | operand .. => 0
  | target .. => 1
  | shift .. => 2
  | indexBound .. => 3

namespace Instruction

/-- The ways in which an instruction of a program of the given length violates the contract of its
operands. -/
inductive Violates (o : Options) (length : Nat) (i : Instruction) : Violation → Prop
  | operand (hkind : i.opcode.kind ≠ .none ∧ i.opcode.kind ≠ .label)
      (hlarge : i.opcode.kind.maxValue < i.operand1) :
      Violates o length i (.operand i.opcode i.operand1)
  | target (hop : i.opcode ∈ [.jump, .jumpIfZero, .jumpIfNonzero, .call])
      (hbeyond : length < i.target) : Violates o length i (.target i.target length)
  | shift (hop : i.opcode = .indexShift) (hlarge : 8 < i.operand1) :
      Violates o length i (.shift i.operand1)
  | indexBound (hop : ∃ f w, i.opcode = .loadIndirect f w ∨ i.opcode = .storeIndirect f w)
      (hbound : i.operand2 = 0 ∨ min o.maxIndex 4294967296 < i.operand2) :
      Violates o length i (.indexBound i.operand2 (min o.maxIndex 4294967296))

variable {o : Options} {length : Nat} {i : Instruction} {v v' : Violation}

/-- At one rank there is at most one violation. -/
theorem Violates.eq_of_rank (h : i.Violates o length v) (h' : i.Violates o length v')
    (hr : v.rank = v'.rank) : v = v' := by
  cases h <;> cases h' <;> first | rfl | cases hr

theorem takesConstant_iff (k : OperandKind) :
    violation?.takesConstant k = true ↔ k ≠ .none ∧ k ≠ .label := by
  cases k <;> simp [violation?.takesConstant]

/-- What the check finds is a violation. -/
theorem violates_of_violation? (h : i.violation? o length = some v) : i.Violates o length v := by
  unfold violation? at h
  split at h
  · next hc =>
    cases h
    exact .operand ((takesConstant_iff _).1 hc.1) hc.2
  · split at h
    case h_1 hop | h_2 hop | h_3 hop | h_4 hop =>
      simp only [Option.ite_none_right_eq_some, Option.some.injEq] at h
      obtain ⟨hbeyond, rfl⟩ := h
      exact .target (by simp [hop]) hbeyond
    case h_5 hop =>
      simp only [Option.ite_none_right_eq_some, Option.some.injEq] at h
      obtain ⟨hlarge, rfl⟩ := h
      exact .shift hop hlarge
    case h_6 f w hop | h_7 f w hop =>
      simp only [Option.ite_none_right_eq_some, Option.some.injEq] at h
      obtain ⟨hbound, rfl⟩ := h
      exact .indexBound ⟨f, w, by simp [hop]⟩ hbound
    case h_8 => cases h

/-- A violation is found, unless one of a lower rank is found before it. -/
theorem Violates.exists_violation? (h : i.Violates o length v) :
    ∃ v', i.violation? o length = some v' ∧ v'.rank ≤ v.rank := by
  by_cases hc : violation?.takesConstant i.opcode.kind ∧ i.opcode.kind.maxValue < i.operand1
  · exact ⟨_, if_pos hc, Nat.zero_le _⟩
  · unfold violation?
    rw [if_neg hc]
    cases h with
    | operand hkind hlarge => exact absurd ⟨(takesConstant_iff _).2 hkind, hlarge⟩ hc
    | target hop hbeyond =>
      refine ⟨.target i.target length, ?_, Nat.le_refl _⟩
      simp only [List.mem_cons, List.not_mem_nil, or_false] at hop
      rcases hop with hop | hop | hop | hop <;> simp only [hop, if_pos hbeyond]
    | shift hop hlarge =>
      refine ⟨.shift i.operand1, ?_, Nat.le_refl _⟩
      simp only [hop, if_pos hlarge]
    | indexBound hop hbound =>
      refine ⟨.indexBound i.operand2 o.indexLimit, ?_, Nat.le_refl _⟩
      obtain ⟨f, w, hop | hop⟩ := hop <;> simp only [hop] <;> exact if_pos hbound

/-- The check finds the violation of the lowest rank. -/
theorem violation?_eq_some_iff :
    i.violation? o length = some v ↔
      i.Violates o length v ∧ ∀ v', i.Violates o length v' → v.rank ≤ v'.rank := by
  constructor
  · intro h
    refine ⟨violates_of_violation? h, fun v' hv' => ?_⟩
    obtain ⟨v₀, h₀, hle⟩ := hv'.exists_violation?
    cases h.symm.trans h₀
    exact hle
  · rintro ⟨hv, hleast⟩
    obtain ⟨v₀, h₀, hle⟩ := hv.exists_violation?
    have hv₀ := violates_of_violation? h₀
    rw [h₀, hv.eq_of_rank hv₀ (Nat.le_antisymm (hleast v₀ hv₀) hle)]

theorem violation?_eq_none_iff :
    i.violation? o length = none ↔ ∀ v, ¬i.Violates o length v := by
  constructor
  · intro h v hv
    obtain ⟨v₀, h₀, -⟩ := hv.exists_violation?
    cases h.symm.trans h₀
  · intro h
    cases h' : i.violation? o length with
    | none => rfl
    | some v => exact absurd (violates_of_violation? h') (h v)

end Instruction

/-! ## Whole programs -/

namespace Program

variable {o : Options} {p : Program} {position : Nat} {v : Violation}

/-- The first violation of a program: at its position no violation comes before it, and at the
positions before there is none. -/
structure FirstViolation (o : Options) (p : Program) (position : Nat) (i : Instruction)
    (v : Violation) : Prop where
  instruction : p[position]? = some i
  violates : i.Violates o p.length v
  first : ∀ v', i.Violates o p.length v' → v.rank ≤ v'.rank
  least : ∀ (q : Nat) (j : Instruction) (v' : Violation), q < position → p[q]? = some j →
    ¬j.Violates o p.length v'

theorem exists_firstViolation (h : p.violation? o = some (position, v)) :
    ∃ i, p.FirstViolation o position i v := by
  obtain ⟨before, ⟨i, q⟩, after, hsplit, hv, hbefore⟩ := List.findSome?_eq_some_iff.1 h
  obtain ⟨v₀, hv₀, hpair⟩ := Option.map_eq_some_iff.1 hv
  cases hpair
  have hget : p.zipIdx[before.length]? = some (i, position) := by simp [hsplit]
  simp only [List.getElem?_zipIdx, Nat.zero_add, Option.map_eq_some_iff, Prod.mk.injEq] at hget
  obtain ⟨i, hi, rfl, rfl⟩ := hget
  obtain ⟨hviolates, hfirst⟩ := Instruction.violation?_eq_some_iff.1 hv₀
  refine ⟨i, hi, hviolates, hfirst, fun q j v' hq hj => ?_⟩
  have hmem : (j, q) ∈ before := by
    have hget : p.zipIdx[q]? = some (j, q) := by simp [List.getElem?_zipIdx, hj]
    rw [hsplit, List.getElem?_append_left hq] at hget
    exact List.mem_of_getElem? hget
  have hnone := hbefore (j, q) hmem
  rw [Option.map_eq_none_iff, Instruction.violation?_eq_none_iff] at hnone
  exact hnone v'

theorem FirstViolation.violation?_eq {i : Instruction} (h : p.FirstViolation o position i v) :
    p.violation? o = some (position, v) := by
  obtain ⟨hlt, hi⟩ := List.getElem?_eq_some_iff.1 h.instruction
  have hlt' : position < p.zipIdx.length := by rwa [List.length_zipIdx]
  have hget : p.zipIdx[position] = (i, position) := by simp [hi]
  have hsplit : p.zipIdx =
      p.zipIdx.take position ++ (i, position) :: p.zipIdx.drop (position + 1) := by
    rw [← hget, ← List.drop_eq_getElem_cons hlt', List.take_append_drop]
  refine List.findSome?_eq_some_iff.2 ⟨_, _, _, hsplit, ?_, ?_⟩
  · dsimp only
    rw [Instruction.violation?_eq_some_iff.2 ⟨h.violates, h.first⟩]
    rfl
  · rintro ⟨j, q⟩ hx
    obtain ⟨k, hk, hjq⟩ := List.mem_take_iff_getElem.1 hx
    simp only [List.getElem_zipIdx, Nat.zero_add, Prod.mk.injEq] at hjq
    obtain ⟨hj, rfl⟩ := hjq
    rw [Option.map_eq_none_iff, Instruction.violation?_eq_none_iff]
    intro v'
    exact h.least k j v' (by omega) (List.getElem?_eq_some_iff.2 ⟨_, hj⟩)

theorem violation?_eq_none_iff :
    p.violation? o = none ↔
      ∀ (position : Nat) (i : Instruction) (v : Violation), p[position]? = some i →
        ¬i.Violates o p.length v := by
  constructor
  · intro h position i v hi
    exact Instruction.violation?_eq_none_iff.1 (violation?_eq_none h hi) v
  · intro h
    rw [violation?, List.findSome?_eq_none_iff]
    rintro ⟨i, position⟩ hx
    have hi := List.mem_zipIdx_iff_getElem?.1 hx
    rw [Option.map_eq_none_iff, Instruction.violation?_eq_none_iff]
    exact fun v => h position i v hi

end Program

/-! ## Compilation -/

section Compilation

variable {o : Options} {p : Program} {sites : CallSites}

/-- Compilation counts the calls, then checks the operands, and then cannot fail. -/
theorem compile_cases (o : Options) (p : Program) :
    (65536 < p.callCount ∧ compile o p = .error (.callSites p.callCount)) ∨
    (p.callCount ≤ 65536 ∧ ∃ position v, p.violation? o = some (position, v) ∧
      compile o p = .error (.instruction position v)) ∨
    (p.callCount ≤ 65536 ∧ p.violation? o = none ∧ ∃ c, compile o p = .ok c) := by
  have hsites := CallSites.ofProgram?_eq p
  by_cases hcount : p.callCount ≤ 65536
  · right
    rw [if_pos hcount] at hsites
    cases hv : p.violation? o with
    | none => exact .inr ⟨hcount, rfl, exists_compile hsites hv⟩
    | some x =>
      left
      refine ⟨hcount, x.1, x.2, rfl, ?_⟩
      simp only [compile, hsites, compileWith, hv]
  · left
    rw [if_neg hcount] at hsites
    refine ⟨Nat.not_le.1 hcount, ?_⟩
    simp only [compile, hsites]

theorem compile_callSites_iff (n : Nat) :
    compile o p = .error (.callSites n) ↔ 65536 < p.callCount ∧ n = p.callCount := by
  rcases compile_cases o p with ⟨hlt, h⟩ | ⟨hle, _, _, -, h⟩ | ⟨hle, -, _, h⟩
  · simp [h, hlt, eq_comm]
  · simp [h, Nat.not_lt.2 hle]
  · simp [h, Nat.not_lt.2 hle]

theorem compile_instruction_iff (position : Nat) (v : Violation) :
    compile o p = .error (.instruction position v) ↔
      p.callCount ≤ 65536 ∧ ∃ i, p.FirstViolation o position i v := by
  have hiff : (∃ i, p.FirstViolation o position i v) ↔ p.violation? o = some (position, v) :=
    ⟨fun ⟨_, h⟩ => h.violation?_eq, Program.exists_firstViolation⟩
  rw [hiff]
  rcases compile_cases o p with ⟨hlt, h⟩ | ⟨hle, _, _, hv, h⟩ | ⟨hle, hv, _, h⟩
  · simp [h, Nat.not_le.2 hlt]
  · simp [h, hle, hv]
  · simp [h, hv]

theorem compile_ok_iff :
    (∃ c, compile o p = .ok c) ↔ p.callCount ≤ 65536 ∧
      ∀ (position : Nat) (i : Instruction) (v : Violation), p[position]? = some i →
        ¬i.Violates o p.length v := by
  rw [← Program.violation?_eq_none_iff]
  rcases compile_cases o p with ⟨hlt, h⟩ | ⟨hle, _, _, hv, h⟩ | ⟨hle, hv, _, h⟩
  · simp [h, Nat.not_le.2 hlt]
  · simp [h, hv]
  · simp [h, hle, hv]

theorem compile_ne_fault (f : IndexFault) : compile o p ≠ .error (.fault f) := by
  rcases compile_cases o p with ⟨-, h⟩ | ⟨-, _, _, -, h⟩ | ⟨-, -, _, h⟩ <;> simp [h]

end Compilation

/-! ## Tables

The states that a gadget puts in a row are indexed by `Fin`, so there the bounds are part of the
definition. What is left are the call sites and the tree of an index. -/

/-- The table of call sites answers every question of a call or a return. -/
structure CallSites.Complete (sites : CallSites) (p : Program) : Prop where
  /-- A call has an id of two bytes, and its return address is that of the id. -/
  call : ∀ (j : Nat) (i : Instruction), p[j]? = some i → i.opcode = .call →
    ∃ id, sites.idAt? j = some id ∧ id < 65536 ∧ sites.returnAddress id = .ok (j + 1)
  /-- A return has a page for every high byte and no others. -/
  pages : Gadget.groups sites.count 256 ≤ 256
  /-- Every id that a return looks up, page by page, has an address, which is a position of the
  program or its end. -/
  page : ∀ page v : Nat, 0 < sites.count → page < (sites.count - 1) / 256 + 1 →
    v < Gadget.pageSize (sites.count - 1) page → v < 256 ∧
      ∃ address, sites.returnAddress (256 * page + v) = .ok address ∧ address ≤ p.length
  /-- A return looks up every id, and no call has another one. -/
  covered : ∀ id : Nat, id < sites.count ↔ 0 < sites.count ∧
    id / 256 < (sites.count - 1) / 256 + 1 ∧
      id % 256 < Gadget.pageSize (sites.count - 1) (id / 256)

theorem CallSites.complete {p : Program} {sites : CallSites}
    (h : CallSites.ofProgram? p = some sites) : sites.Complete p := by
  have hcount : sites.count ≤ 65536 := CallSites.length_le h
  refine ⟨fun j i hi hop => ?_, ?_, fun page v hpos hpage hv => ?_, fun id => ?_⟩
  · have hget := Program.getElem?_returnAddresses hi hop
    rw [← CallSites.addresses_eq h] at hget
    refine ⟨_, CallSites.idAt?_eq h hi hop, ?_, returnAddress_eq_ok_iff.2 hget⟩
    exact Nat.lt_of_lt_of_le (List.getElem?_eq_some_iff.1 hget).1 hcount
  · rw [Gadget.groups]
    omega
  · have hpages : page < Gadget.groups sites.count 256 := by
      rw [Gadget.groups]
      omega
    obtain ⟨hbyte, hlt⟩ := (Gadget.mem_page hpages).1 (List.mem_range.2 hv)
    refine ⟨hbyte, _, Gadget.returnAddress_eq hlt, ?_⟩
    have hmem := List.getElem_mem (l := sites.addresses) hlt
    exact (Program.mem_returnAddresses (CallSites.addresses_eq h ▸ hmem)).2
  · rw [Gadget.pageSize]
    split <;> omega

/-- In the tree that pops an index, the top has a place for every node of the first level, and each
node of a level hangs on one of the level above. -/
structure Gadget.Spans (bound : Nat) : Prop where
  top : groups bound 0x1000000 ≤ 256
  level2 : ∀ j < groups bound 0x10000, j / 256 < groups bound 0x1000000
  level1 : ∀ j < groups bound 0x100, j / 256 < groups bound 0x10000
  leaves : ∀ j < bound, j / 256 < groups bound 0x100

theorem Gadget.spans {bound : Nat} (h : bound ≤ 4294967296) : Spans bound := by
  refine ⟨?_, fun j hj => ?_, fun j hj => ?_, fun j hj => ?_⟩ <;> simp only [groups] at * <;> omega

/-- Compilation has one outcome, and it is determined in this order. Too many calls are reported
with their number. Otherwise a violation of the contract of operands is reported, at the least
position that has one, and of several at that position the one that is looked for first. Otherwise
there is a machine. Nothing that does not exist is ever named: no state and no call site, also when
only a part of the program is drafted, and no node of the tree for an index. -/
theorem compile_outcome (o : Options) (p : Program) :
    (∀ n, compile o p = .error (.callSites n) ↔ 65536 < p.callCount ∧ n = p.callCount) ∧
    (∀ position v, compile o p = .error (.instruction position v) ↔
      p.callCount ≤ 65536 ∧ ∃ i, p.FirstViolation o position i v) ∧
    ((∃ c, compile o p = .ok c) ↔ p.callCount ≤ 65536 ∧
      ∀ (position : Nat) (i : Instruction) (v : Violation), p[position]? = some i →
        ¬i.Violates o p.length v) ∧
    (∀ f, compile o p ≠ .error (.fault f)) ∧
    (∀ sites, CallSites.ofProgram? p = some sites → sites.Complete p ∧
      ∀ k, ∃ d, Draft.build sites (p.take k) (Draft.forSites sites) = .ok 2 d) ∧
    ∀ i : Instruction, (∀ v, ¬i.Violates o p.length v) →
      (∃ f w, i.opcode = .loadIndirect f w ∨ i.opcode = .storeIndirect f w) →
        Gadget.Spans i.operand2 := by
  refine ⟨compile_callSites_iff, compile_instruction_iff, compile_ok_iff, compile_ne_fault,
    fun sites h => ⟨CallSites.complete h, fun k => ?_⟩, fun i hi hop => Gadget.spans ?_⟩
  · obtain ⟨σ, hemit, -⟩ := exists_emitFrom (CallSites.length_le h) (p.take k)
    exact ⟨σ.draft, build_of_emitFrom hemit⟩
  · by_contra hlarge
    exact hi _ (.indexBound hop (.inr (by omega)))

/-- A shift that is too wide for its operand and too far as well, before a jump that leads nowhere:
the operand is reported. -/
theorem wide_shift_outcome :
    compile {} [⟨.pop .w8, 0, 0, 0⟩, ⟨.indexShift, 4294967296, 0, 0⟩, ⟨.jump, 0, 0, 9⟩] =
      .error (.instruction 1 (.operand .indexShift 4294967296)) ∧
    CallSites.Complete ⟨[3]⟩ Program.callOnce ∧ Gadget.Spans 65536 := by
  have hpop : ∀ v, ¬Instruction.Violates {} 3 ⟨.pop .w8, 0, 0, 0⟩ v :=
    Instruction.violation?_eq_none_iff.1 rfl
  have hload : ∀ v, ¬Instruction.Violates {} 0 ⟨.loadIndirect .locals .w8, 0, 65536, 0⟩ v :=
    Instruction.violation?_eq_none_iff.1 (by decide)
  refine ⟨?_, ((compile_outcome {} Program.callOnce).2.2.2.2.1 _ callOnce_sites).1,
    (compile_outcome {} []).2.2.2.2.2 _ hload ⟨_, _, .inl rfl⟩⟩
  rw [(compile_outcome {} _).2.1]
  refine ⟨by decide, _, rfl, .operand (by decide) (by decide), fun _ _ => Nat.zero_le _, ?_⟩
  intro q j v hq hj
  obtain rfl : q = 0 := by omega
  cases hj
  exact hpop v

end StackTape
