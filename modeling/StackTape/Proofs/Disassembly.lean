import StackTape.Proofs.Labels
import StackTape.Proofs.Spelling

/-!
# Assembling what was disassembled

In a disassembled program every line has its position for a label and the text of an instruction
behind it, and one more line labels the end. Read again, the label and the instruction of a line
come back (`Line.label?_labelled`, `Instruction.parse_text`), and the label of a position is found
on the line of that position. So the assembler gives back every program that assembly text can
express at all.
-/

namespace StackTape

/-! ## Lines that begin with a label -/

namespace Line

variable {line word rest : List Char}

theorem content_eq_self (h : Text.Trimmed line) (hcomment : '#' ∉ line) : content line = line := by
  have htake : (line.takeWhile fun c => c != '#') = line := by
    rw [List.takeWhile_eq_self_iff]
    intro c hc
    have hne : c ≠ '#' := fun heq => hcomment (heq ▸ hc)
    simpa using hne
  rw [content, htake, h.trim_eq]

theorem unbroken_concat_colon (h : Text.Unbroken word) : Text.Unbroken (word ++ [':']) := by
  intro c hc
  rcases List.mem_append.1 hc with hc | hc
  · exact h c hc
  · obtain rfl := List.mem_singleton.1 hc
    rfl

/-- A line that holds a label only. -/
theorem label?_alone (h : Text.Unbroken word) (hcomment : '#' ∉ word) :
    label? (word ++ [':']) = some (String.ofList word) ∧ body (word ++ [':']) = [] := by
  have hword := unbroken_concat_colon h
  have hcontent : content (word ++ [':']) = word ++ [':'] :=
    content_eq_self hword.trimmed (by simp [hcomment])
  have hlabel : label? (word ++ [':']) = some (String.ofList word) := by
    simp [label?, hcontent, Text.firstWord_of_unbroken hword]
  constructor
  · exact hlabel
  · simp only [body, hlabel, hcontent, Text.afterWord_of_unbroken hword]

/-- A line with a label and more. -/
theorem label?_labelled (h : Text.Unbroken word) (hrest : Text.Trimmed rest) (hne : rest ≠ [])
    (hcomment : '#' ∉ word) (hcomment' : '#' ∉ rest) :
    label? (word ++ [':'] ++ ' ' :: rest) = some (String.ofList word) ∧
      body (word ++ [':'] ++ ' ' :: rest) = rest := by
  have hblank : Text.isBlank ' ' = true := rfl
  have hword := unbroken_concat_colon h
  have hcontent : content (word ++ [':'] ++ ' ' :: rest) = word ++ [':'] ++ ' ' :: rest := by
    apply content_eq_self
    · exact hword.trimmed.join (by simp) hrest hne [' ']
    · simp [hcomment, hcomment']
  have hlabel : label? (word ++ [':'] ++ ' ' :: rest) = some (String.ofList word) := by
    rw [label?, hcontent, Text.firstWord_append_cons hword hblank]
    simp
  constructor
  · exact hlabel
  · simp only [body, hlabel, hcontent]
    rw [Text.afterWord_append_cons hword hblank, hrest.trim_eq]

end Line

/-! ## Instructions -/

namespace Instruction

/-- What assembly text can express: constants that fit the opcode, a target within a program of the
given length or at its end, and nothing in the fields that the opcode does not use. -/
structure Expressible (length : Nat) (i : Instruction) : Prop where
  operand1 : i.opcode.kind ≠ .none → i.opcode.kind ≠ .label →
    i.operand1 ≤ i.opcode.kind.maxValue
  operand2 : i.opcode.kind = .const32Pair → i.operand2 ≤ 4294967295
  target : i.opcode ∈ [.jump, .jumpIfZero, .jumpIfNonzero, .call] → i.target ≤ length
  unused : i.bare = i

variable {length : Nat} {i : Instruction}

theorem constant_toDigits {op : Opcode} {n : Nat} (h : n ≤ op.kind.maxValue) :
    Statement.constant op (Nat.toDigits 10 n) = .ok n := by
  have hmax : op.kind.maxValue < 0x10000000000000000 := by
    cases op.kind <;> decide
  simp [Statement.constant, Literal.parse?_toDigits (Nat.lt_of_le_of_lt h hmax), h]

/-- The text of an instruction is read as this instruction, up to its target. -/
theorem parse_text (h : i.Expressible length) :
    ∃ s, Statement.parse i.text.toList = .ok s ∧
      i.opcode = s.opcode ∧ i.operand1 = s.operand1 ∧ i.operand2 = s.operand2 := by
  have hparse : Statement.parse i.text.toList =
      Statement.ofOperands i.opcode (i.operands.map (Nat.toDigits 10)) := by
    simp only [Statement.parse, firstWord_text, Opcode.ofMnemonic?_mnemonic, splitOperands_text]
  rw [hparse]
  obtain ⟨hfirst, hsecond, -, hunused⟩ := h
  unfold bare at hunused
  unfold Statement.ofOperands operands
  cases hkind : i.opcode.kind with
  | none | label =>
    rw [hkind] at hunused
    rw [← hunused]
    exact ⟨_, rfl, rfl, rfl, rfl⟩
  | const8 | const16 | const32 =>
    rw [hkind] at hunused
    have hconst := constant_toDigits (hfirst (by simp [hkind]) (by simp [hkind]))
    simp only [List.map_cons, List.map_nil, hconst]
    refine ⟨_, rfl, rfl, rfl, ?_⟩
    rw [← hunused]
  | const32Pair =>
    rw [hkind] at hunused
    have hconst := constant_toDigits (hfirst (by simp [hkind]) (by simp [hkind]))
    have hconst' : Statement.constant i.opcode (Nat.toDigits 10 i.operand2) = .ok i.operand2 :=
      constant_toDigits (by rw [hkind]; exact hsecond hkind)
    simp only [List.map_cons, List.map_nil, hconst, hconst']
    exact ⟨_, rfl, rfl, rfl, rfl⟩

end Instruction

/-! ## Lines of a disassembled program -/

/-- The line of an instruction and its position. -/
def Line.ofInstruction (x : Instruction × Nat) : List Char :=
  Nat.toDigits 10 x.2 ++ [':'] ++ ' ' :: x.1.text.toList

/-- The line of the position after the last instruction. -/
def Line.ofEnd (position : Nat) : List Char :=
  Nat.toDigits 10 position ++ [':']

/-- The lines of a disassembled program. -/
def disassemblyLines (p : Program) : List (List Char) :=
  p.zipIdx.map Line.ofInstruction ++ [Line.ofEnd p.length]

namespace Line

theorem label?_ofInstruction (x : Instruction × Nat) :
    label? (ofInstruction x) = some (String.ofList (Nat.toDigits 10 x.2)) ∧
      body (ofInstruction x) = x.1.text.toList := by
  apply label?_labelled (unbroken_toDigits x.2) x.1.trimmed_text x.1.text_ne_nil
  · exact not_mem_toDigits rfl x.2
  · exact x.1.not_mem_text rfl (by decide) (by decide)

theorem label?_ofEnd (position : Nat) :
    label? (ofEnd position) = some (String.ofList (Nat.toDigits 10 position)) ∧
      body (ofEnd position) = [] :=
  label?_alone (unbroken_toDigits position) (not_mem_toDigits rfl position)

theorem lineFeed_not_mem {p : Program} {line : List Char} (h : line ∈ disassemblyLines p) :
    '\n' ∉ line := by
  rcases List.mem_append.1 h with h | h
  · obtain ⟨x, -, rfl⟩ := List.mem_map.1 h
    have htext : '\n' ∉ x.1.text.toList := x.1.not_mem_text rfl (by decide) (by decide)
    simp [ofInstruction, htext, not_mem_toDigits]
  · obtain rfl := List.mem_singleton.1 h
    simp [ofEnd, not_mem_toDigits]

theorem carries_ofInstruction (x : Instruction × Nat) : carries (ofInstruction x) = true := by
  simp [carries, label?_ofInstruction, x.1.text_ne_nil]

theorem carries_ofEnd (position : Nat) : carries (ofEnd position) = false := by
  simp [carries, label?_ofEnd]

section Disassembly

-- Lines with nothing on them may follow: a line feed at the end of a text makes one.
variable {p : Program} {tail : List (List Char)} (htail : ∀ line ∈ tail, line = [])

include htail

theorem filter_carries_disassemblyLines :
    (disassemblyLines p ++ tail).filter carries = p.zipIdx.map ofInstruction := by
  have hlines : (p.zipIdx.map ofInstruction).filter carries = p.zipIdx.map ofInstruction := by
    rw [List.filter_eq_self]
    intro line hline
    obtain ⟨x, -, rfl⟩ := List.mem_map.1 hline
    exact carries_ofInstruction x
  have hrest : tail.filter carries = [] := by
    rw [List.filter_eq_nil_iff]
    intro line hline
    rw [htail line hline]
    decide
  simp [disassemblyLines, hlines, hrest, carries_ofEnd]

omit htail in
/-- The line of a position stands behind as many instructions. -/
theorem position_disassemblyLines {k : Nat} (hk : k ≤ p.length) :
    position (disassemblyLines p ++ tail) k = k := by
  have htake : (disassemblyLines p ++ tail).take k = (p.zipIdx.map ofInstruction).take k := by
    rw [disassemblyLines, List.append_assoc, List.take_append_of_le_length (by simpa using hk)]
  have hall : ∀ line ∈ (p.zipIdx.map ofInstruction).take k, carries line = true := by
    intro line hline
    obtain ⟨x, -, rfl⟩ := List.mem_map.1 (List.mem_of_mem_take hline)
    exact carries_ofInstruction x
  rw [position, htake, List.countP_eq_length.2 hall]
  simpa using hk

/-- The label of a line is its position. -/
theorem defines_disassemblyLines_iff {k : Nat} {label : String} :
    Defines (disassemblyLines p ++ tail) k label ↔
      k ≤ p.length ∧ label = String.ofList (Nat.toDigits 10 k) := by
  unfold Defines disassemblyLines
  rcases Nat.lt_trichotomy k p.length with hk | rfl | hk
  · have hget : (p.zipIdx.map ofInstruction ++ [ofEnd p.length] ++ tail)[k]? =
        some (ofInstruction (p[k], k)) := by
      simp [List.getElem?_append, hk]
    rw [hget, Option.bind_some, (label?_ofInstruction _).1]
    simp [Nat.le_of_lt hk, eq_comm]
  · simp [label?_ofEnd, eq_comm]
  · have hnone :
        (p.zipIdx.map ofInstruction ++ [ofEnd p.length] ++ tail)[k]?.bind label? = none := by
      rw [Option.bind_eq_none_iff]
      intro line hline
      rw [List.getElem?_append_right (by simpa using hk)] at hline
      rw [htail line (List.mem_of_getElem? hline)]
      rfl
    rw [hnone]
    simp [Nat.not_le.2 hk]

theorem distinct_disassemblyLines : Distinct (disassemblyLines p ++ tail) := by
  intro j k label hj hk
  obtain ⟨-, rfl⟩ := (defines_disassemblyLines_iff htail).1 hj
  obtain ⟨-, heq⟩ := (defines_disassemblyLines_iff htail).1 hk
  exact toDigits_injective (String.ofList_injective heq)

theorem gives_ofInstruction {i : Instruction} (h : i.Expressible p.length) (k : Nat) :
    Gives (disassemblyLines p ++ tail) (ofInstruction (i, k)) i := by
  have hbody : body (ofInstruction (i, k)) = i.text.toList := (label?_ofInstruction (i, k)).2
  constructor
  · rw [hbody]
    exact i.parse_text h
  · intro hop
    have htarget := h.target hop
    refine ⟨String.ofList (Nat.toDigits 10 i.target), i.target, ?_,
      (defines_disassemblyLines_iff htail).2 ⟨htarget, rfl⟩,
      (position_disassemblyLines htarget).symm⟩
    rw [operands, hbody, Instruction.splitOperands_text, Instruction.operands,
      (Opcode.kind_eq_label_iff _).2 hop]
    simp
  · intro hop
    rw [← h.unused]
    exact Instruction.target_bare (mt (Opcode.kind_eq_label_iff _).1 hop)

end Disassembly

end Line

/-! ## Whole programs -/

theorem assemble_of_sourceLines {p : Program} (h : ∀ i ∈ p, i.Expressible p.length)
    {source : String} (tail : List (List Char)) (htail : ∀ line ∈ tail, line = [])
    (hsource : sourceLines source = disassemblyLines p ++ tail) : assemble source = .ok p := by
  rw [assemble_eq_ok_iff, hsource, Line.filter_carries_disassemblyLines htail]
  constructor
  · rw [List.forall₂_map_left_iff, List.forall₂_iff_get]
    refine ⟨by simp, fun k hk hk' => ?_⟩
    have hmem : p.get ⟨k, hk'⟩ ∈ p := List.get_mem p ⟨k, hk'⟩
    have hgives := Line.gives_ofInstruction htail (h _ hmem) k
    simpa using hgives
  · exact Line.distinct_disassemblyLines htail

theorem sourceLines_disassemble (p : Program) :
    sourceLines (disassemble p) = disassemblyLines p ++ [[]] := by
  have hself : ∀ s : String, toString s = s := fun _ => rfl
  have htext : (disassemble p).toList =
      (disassemblyLines p).flatMap fun line => line ++ ['\n'] := by
    simp [disassemble, disassemblyLines, Line.ofInstruction, Line.ofEnd, hself, List.flatMap_map]
  rw [sourceLines, htext]
  exact Text.splitOn_flatMap_feed fun line hline => Line.lineFeed_not_mem hline

/-- Assembling undoes disassembling: from the lines `position: instruction` of a program and a last
line for the position behind it, with or without a line feed at the end, the same program is read,
if assembly text can express its instructions at all. -/
theorem assemble_disassemble (p : Program) (h : ∀ i ∈ p, i.Expressible p.length) :
    assemble (disassemble p) = .ok p ∧
      assemble (String.ofList (['\n'].intercalate (disassemblyLines p))) = .ok p := by
  constructor
  · exact assemble_of_sourceLines h [[]] (by simp) (sourceLines_disassemble p)
  · apply assemble_of_sourceLines h [] (by simp)
    rw [sourceLines, String.toList_ofList, List.append_nil]
    apply List.splitOn_intercalate
    · exact fun line hline => Line.lineFeed_not_mem hline
    · simp [disassemblyLines]

/-- With the largest constants and a jump to the end. -/
theorem farthest_disassembled :
    disassemble Program.farthest =
      "0: JMP 3\n1: IDXSHFT 4294967295\n2: GETARGIND8 4294967295, 4294967295\n3:\n" ∧
    assemble (disassemble Program.farthest) = .ok Program.farthest := by
  have hexpressible : ∀ i ∈ Program.farthest, i.Expressible Program.farthest.length := by
    intro i hi
    simp only [Program.farthest, List.mem_cons, List.not_mem_nil, or_false] at hi
    rcases hi with rfl | rfl | rfl <;> constructor <;> decide
  constructor
  · decide +kernel
  · exact (assemble_disassemble _ hexpressible).1

end StackTape
