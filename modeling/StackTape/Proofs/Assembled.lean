import StackTape.Assembly.Basic
import StackTape.Proofs.Outcome

/-!
# What the assembler accepts

A constant is checked against its opcode when its line is read, and a label stands for the number of
statements before it, which is never more than there will be in the end. So a program that comes
from assembly text respects the widths of its operands and the range of its targets, and the
compiler, which checks both again, has no reason to object.
-/

namespace StackTape

/-! ## Results in sequence -/

section Results

variable {ε α β : Type}

theorem exists_of_bind_eq_ok {x : Except ε α} {f : α → Except ε β} {b : β}
    (h : x >>= f = .ok b) : ∃ a, x = .ok a ∧ f a = .ok b := by
  cases x with
  | error e => cases h
  | ok a => exact ⟨a, rfl, h⟩

theorem bind_eq_error_iff {x : Except ε α} {f : α → Except ε β} {fault : ε} :
    x >>= f = .error fault ↔ x = .error fault ∨ ∃ a, x = .ok a ∧ f a = .error fault := by
  cases x <;> simp [bind, Except.bind]

theorem forall₂_of_mapM_eq_ok {f : α → Except ε β} {xs : List α} {ys : List β}
    (h : xs.mapM f = .ok ys) : List.Forall₂ (fun x y => f x = .ok y) xs ys := by
  induction xs generalizing ys with
  | nil =>
    cases h
    exact .nil
  | cons x xs ih =>
    rw [List.mapM_cons] at h
    obtain ⟨y, hy, h⟩ := exists_of_bind_eq_ok h
    obtain ⟨ys', hys, h⟩ := exists_of_bind_eq_ok h
    cases h
    exact .cons hy (ih hys)

theorem mapM_eq_ok_of_forall₂ {f : α → Except ε β} {xs : List α} {ys : List β}
    (h : List.Forall₂ (fun x y => f x = .ok y) xs ys) : xs.mapM f = .ok ys := by
  induction h with
  | nil => rfl
  | cons hx _ ih =>
    rw [List.mapM_cons, hx, ih]
    rfl

end Results

/-! ## Statements -/

/-- The constants of a statement are not larger than its opcode allows. -/
structure Statement.Fits (s : Statement) : Prop where
  operand1 : s.operand1 ≤ s.opcode.kind.maxValue
  operand2 : s.operand2 ≤ s.opcode.kind.maxValue

namespace Statement

theorem le_of_constant {op : Opcode} {literal : List Char} {value : Nat}
    (h : constant op literal = .ok value) : value ≤ op.kind.maxValue := by
  unfold constant at h
  split at h
  · cases h
  · split at h
    · next hle =>
      cases h
      exact hle
    · cases h

theorem fits_of_ofOperands {op : Opcode} {operands : List (List Char)} {s : Statement}
    (h : ofOperands op operands = .ok s) : s.Fits := by
  unfold ofOperands at h
  split at h
  case h_1 | h_6 =>
    cases h
    exact ⟨Nat.zero_le _, Nat.zero_le _⟩
  case h_2 | h_3 | h_4 =>
    obtain ⟨value, hvalue, h⟩ := exists_of_bind_eq_ok h
    cases h
    exact ⟨le_of_constant hvalue, Nat.zero_le _⟩
  case h_5 =>
    obtain ⟨base, hbase, h⟩ := exists_of_bind_eq_ok h
    obtain ⟨bound, hbound, h⟩ := exists_of_bind_eq_ok h
    cases h
    exact ⟨le_of_constant hbase, le_of_constant hbound⟩
  case h_7 => cases h

theorem fits_of_parse {text : List Char} {s : Statement} (h : parse text = .ok s) : s.Fits := by
  unfold parse at h
  dsimp only at h
  split at h
  · cases h
  · exact fits_of_ofOperands h

end Statement

theorem Line.fits_of_statement? {line : List Char} {s : Statement}
    (h : statement? line = .ok (some s)) : s.Fits := by
  unfold statement? at h
  split at h
  · cases h
  · cases hparse : Statement.parse (body line) with
    | error e =>
      rw [hparse] at h
      cases h
    | ok s' =>
      rw [hparse] at h
      cases h
      exact Statement.fits_of_parse hparse

/-! ## Reading lines -/

namespace Assembly

/-- What has been read so far: the constants fit, and no label is behind the last statement. -/
structure Sound (a : Assembly) : Prop where
  statements : ∀ placed ∈ a.code, placed.statement.Fits
  labels : ∀ entry ∈ a.labels, entry.2 ≤ a.code.size

variable {a a' : Assembly} {line : List Char} {number : Nat}

theorem sound_empty : empty.Sound where
  statements := by simp [empty]
  labels := by simp [empty]

/-- A label at the current position is defined. -/
theorem Sound.define (ha : a.Sound) {label : String} (h : a.define label = .ok a') : a'.Sound := by
  unfold Assembly.define at h
  split at h
  · cases h
  · cases h
    refine ⟨ha.statements, fun entry hentry => ?_⟩
    rcases List.mem_cons.1 hentry with rfl | hentry
    · exact Nat.le_refl _
    · exact ha.labels entry hentry

theorem Sound.defineLabel (ha : a.Sound) (h : a.defineLabel line = .ok a') : a'.Sound := by
  unfold Assembly.defineLabel at h
  split at h
  · cases h
    exact ha
  · exact ha.define h

/-- A statement is appended: the labels before it stay where they are. -/
theorem Sound.appendStatement (ha : a.Sound) (h : a.appendStatement number line = .ok a') :
    a'.Sound := by
  unfold Assembly.appendStatement at h
  obtain ⟨s?, hs, h⟩ := exists_of_bind_eq_ok h
  cases s? with
  | none =>
    cases h
    exact ha
  | some s =>
    cases h
    refine ⟨fun placed hplaced => ?_, fun entry hentry => ?_⟩
    · rcases Array.mem_push.1 hplaced with hplaced | rfl
      · exact ha.statements placed hplaced
      · exact Line.fits_of_statement? hs
    · have := ha.labels entry hentry
      simp only [Array.size_push]
      omega

theorem Sound.readLine (ha : a.Sound) (h : a.readLine number line = .ok a') : a'.Sound := by
  unfold Assembly.readLine at h
  split at h
  · next hline =>
    cases h
    obtain ⟨a₁, hdefine, happend⟩ := exists_of_bind_eq_ok hline
    exact (ha.defineLabel hdefine).appendStatement happend
  · cases h

theorem Sound.readLines (ha : a.Sound) {lines : List (List Char)}
    (h : a.readLines number lines = .ok a') : a'.Sound := by
  induction lines generalizing a number with
  | nil =>
    cases h
    exact ha
  | cons line lines ih =>
    obtain ⟨a₁, hline, h⟩ := exists_of_bind_eq_ok h
    exact ih (ha.readLine hline) h

theorem sound_of_read {source : String} (h : read source = .ok a) : a.Sound :=
  sound_empty.readLines h

end Assembly

/-! ## Programs -/

/-- The operands of an instruction are not larger than its opcode allows, and its target is a
position of a program of the given length or the end of it. -/
structure Instruction.WithinLimits (length : Nat) (i : Instruction) : Prop where
  operand1 : i.operand1 ≤ i.opcode.kind.maxValue
  operand2 : i.operand2 ≤ i.opcode.kind.maxValue
  target : i.target ≤ length

theorem Assembly.Sound.link {a : Assembly} (ha : a.Sound) {placed : PlacedStatement}
    (hplaced : placed ∈ a.code) {i : Instruction} (h : a.link placed = .ok i) :
    i.WithinLimits a.code.size := by
  obtain ⟨h₁, h₂⟩ := ha.statements placed hplaced
  unfold Assembly.link at h
  dsimp only at h
  split at h
  · cases h
    exact ⟨h₁, h₂, Nat.zero_le _⟩
  · next label _ =>
    split at h
    · cases h
    · next position hlookup =>
      cases h
      obtain ⟨before, after, hlabels, -⟩ := List.lookup_eq_some_iff.1 hlookup
      have hmem : (label, position) ∈ a.labels := by simp [hlabels]
      exact ⟨h₁, h₂, ha.labels _ hmem⟩

/-- Linking keeps the number of statements, so every label is within the program. -/
theorem Assembly.Sound.program {a : Assembly} (ha : a.Sound) {p : Program}
    (h : a.program = .ok p) : ∀ i ∈ p, i.WithinLimits p.length := by
  obtain ⟨hlength, hlink⟩ := List.forall₂_iff_get.1 (forall₂_of_mapM_eq_ok h)
  intro i hi
  obtain ⟨k, hk, rfl⟩ := List.getElem_of_mem hi
  have hmem : a.code.toList.get ⟨k, hlength ▸ hk⟩ ∈ a.code :=
    Array.mem_toList_iff.1 (List.get_mem _ _)
  have hwithin := ha.link hmem (hlink k (hlength ▸ hk) hk)
  rwa [← Array.length_toList, hlength] at hwithin

theorem withinLimits_of_assemble {source : String} {p : Program} (h : assemble source = .ok p) :
    ∀ i ∈ p, i.WithinLimits p.length := by
  obtain ⟨a, hread, hprogram⟩ := exists_of_bind_eq_ok h
  exact (Assembly.sound_of_read hread).program hprogram

/-- What is wrong with an instruction within its limits is none of the first two things that are
looked for. -/
theorem Instruction.WithinLimits.two_le_rank {o : Options} {length : Nat} {i : Instruction}
    {v : Violation} (hi : i.WithinLimits length) (hv : i.Violates o length v) : 2 ≤ v.rank := by
  cases hv with
  | operand hkind hlarge => exact absurd hi.operand1 (Nat.not_le.2 hlarge)
  | target hop hbeyond => exact absurd hi.target (Nat.not_le.2 hbeyond)
  | shift hop hlarge => exact Nat.le_refl 2
  | indexBound hop hbound => exact Nat.le_succ 2

/-- The compiler never objects to the width of an operand or to a target in a program that the
assembler accepts, whatever its options: every constant is within the limit of its opcode, both
constants of an indirect access among them, and every target is at most the length of the program.
What can still be wrong is the number of calls, the amount of a shift or the bound of an index. -/
theorem compile_of_assemble (source : String) (p : Program) (o : Options)
    (h : assemble source = .ok p) :
    (∀ i ∈ p, i.WithinLimits p.length) ∧
    (∀ position op value, compile o p ≠ .error (.instruction position (.operand op value))) ∧
    (∀ position target length,
      compile o p ≠ .error (.instruction position (.target target length))) ∧
    ∀ e, compile o p = .error e → (∃ n, e = .callSites n) ∨
      (∃ position amount, e = .instruction position (.shift amount)) ∨
      ∃ position bound limit, e = .instruction position (.indexBound bound limit) := by
  have hlimits := withinLimits_of_assemble h
  have hrank : ∀ {position v}, compile o p = .error (.instruction position v) → 2 ≤ v.rank := by
    intro position v herror
    obtain ⟨-, i, hi⟩ := (compile_instruction_iff position v).1 herror
    exact (hlimits i (List.mem_of_getElem? hi.instruction)).two_le_rank hi.violates
  refine ⟨hlimits, fun position op value he => absurd (hrank he) (Nat.not_succ_le_zero 1),
    fun position target length he => absurd (hrank he) (Nat.not_succ_le_self 1), fun e he => ?_⟩
  cases e with
  | callSites n => exact .inl ⟨n, rfl⟩
  | fault f => exact absurd he (compile_ne_fault f)
  | instruction position v =>
    cases v with
    | operand op value => exact absurd (hrank he) (Nat.not_succ_le_zero 1)
    | target target length => exact absurd (hrank he) (Nat.not_succ_le_self 1)
    | shift amount => exact .inr (.inl ⟨position, amount, rfl⟩)
    | indexBound bound limit => exact .inr (.inr ⟨position, bound, limit, rfl⟩)

/-- A jump to the end of the program and operands as large as they can be, among them a shift that
only the compiler refuses. -/
def Program.farthest : Program :=
  [⟨.jump, 0, 0, 3⟩, ⟨.indexShift, 4294967295, 0, 0⟩,
    ⟨.loadIndirect .args .w8, 4294967295, 4294967295, 0⟩]

theorem farthest_refused_for_shift :
    assemble "JMP end\nidxshft 0xFFFFFFFF # too far\nGETARGIND8 4294967295, 037777777777\nend:" =
      .ok Program.farthest ∧
    (∀ i ∈ Program.farthest, i.WithinLimits Program.farthest.length) ∧
    compile {} Program.farthest = .error (.instruction 1 (.shift 4294967295)) := by
  have h : assemble
      "JMP end\nidxshft 0xFFFFFFFF # too far\nGETARGIND8 4294967295, 037777777777\nend:" =
      .ok Program.farthest := by decide +kernel
  exact ⟨h, (compile_of_assemble _ _ {} h).1, rfl⟩

end StackTape
