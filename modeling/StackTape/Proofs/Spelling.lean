import Mathlib.Data.List.TakeWhile
import StackTape.Proofs.Assembled
import StackTape.Proofs.Literals

/-!
# How instructions are spelled

The text of an instruction is its mnemonic and the decimal numbers of its operands, so it can be
taken apart again: the first word is the mnemonic (`firstWord_text`), and what stands between the
commas of the rest are the numbers (`splitOperands_text`). Hence a text says everything about an
instruction but the fields that its opcode does not use (`text_eq_iff`).
-/

namespace StackTape

namespace Text

/-! ## Lines -/

/-- Where each line is ended by a line feed, an empty line follows the last one. -/
theorem splitOn_flatMap_feed {ls : List (List Char)} (hfeed : ∀ l ∈ ls, '\n' ∉ l) :
    (ls.flatMap fun l => l ++ ['\n']).splitOn '\n' = ls ++ [[]] := by
  induction ls with
  | nil => rfl
  | cons l ls ih =>
    rw [List.forall_mem_cons] at hfeed
    rw [List.flatMap_cons, List.append_assoc, List.singleton_append,
      List.splitOn_append_cons_self_of_not_mem hfeed.1, ih hfeed.2, List.cons_append]

/-! ## Words -/

/-- A text without blanks. -/
def Unbroken (cs : List Char) : Prop := ∀ c ∈ cs, isBlank c = false

variable {word rest : List Char} {blank : Char}

theorem firstWord_of_unbroken (h : Unbroken word) : firstWord word = word :=
  List.takeWhile_eq_self_iff.2 fun c hc => by simp [h c hc]

theorem afterWord_of_unbroken (h : Unbroken word) : afterWord word = [] := by
  have hdrop : (word.dropWhile fun c => !isBlank c) = [] :=
    List.dropWhile_eq_nil_iff.2 fun c hc => by simp [h c hc]
  rw [afterWord, hdrop]
  rfl

theorem firstWord_append_cons (h : Unbroken word) (hblank : isBlank blank = true) :
    firstWord (word ++ blank :: rest) = word := by
  rw [firstWord, List.takeWhile_append_of_pos fun c hc => by simp [h c hc]]
  simp [hblank]

theorem trim_cons_of_isBlank (hblank : isBlank blank = true) :
    trim (blank :: rest) = trim rest := by
  simp [trim, trimLeft, hblank]

theorem afterWord_append_cons (h : Unbroken word) (hblank : isBlank blank = true) :
    afterWord (word ++ blank :: rest) = trim rest := by
  rw [afterWord, List.dropWhile_append_of_pos fun c hc => by simp [h c hc]]
  simp [hblank, trim_cons_of_isBlank]

/-- A text that neither begins nor ends with a blank. -/
structure Trimmed (cs : List Char) : Prop where
  head : ∀ c ∈ cs.head?, isBlank c = false
  last : ∀ c ∈ cs.getLast?, isBlank c = false

theorem Unbroken.trimmed (h : Unbroken word) : Trimmed word :=
  ⟨fun c hc => h c (List.mem_of_mem_head? hc), fun c hc => h c (List.mem_of_mem_getLast? hc)⟩

/-- Whatever stands between two trimmed texts, the whole is trimmed. -/
theorem Trimmed.join {first last : List Char} (hfirst : Trimmed first) (hne : first ≠ [])
    (hlast : Trimmed last) (hne' : last ≠ []) (middle : List Char) :
    Trimmed (first ++ (middle ++ last)) := by
  constructor
  · rw [List.head?_append_of_ne_nil _ hne]
    exact hfirst.head
  · rw [← List.append_assoc, List.getLast?_append_of_ne_nil _ hne']
    exact hlast.last

theorem trimLeft_eq_self {cs : List Char} (h : ∀ c ∈ cs.head?, isBlank c = false) :
    trimLeft cs = cs := by
  cases cs with
  | nil => rfl
  | cons c cs => simp [trimLeft, h c rfl]

theorem Trimmed.trim_eq {cs : List Char} (h : Trimmed cs) : trim cs = cs := by
  have hreverse : trimLeft cs.reverse = cs.reverse := trimLeft_eq_self (by simpa using h.last)
  rw [trim, trimLeft_eq_self h.head, hreverse, List.reverse_reverse]

theorem toNat_of_isAlphanum {c : Char} (h : c.isAlphanum = true) :
    48 ≤ c.toNat ∧ c.toNat ≤ 57 ∨ 65 ≤ c.toNat ∧ c.toNat ≤ 122 := by
  change (decide (65 ≤ c.val ∧ c.val ≤ 90) || (97 ≤ c.val && c.val ≤ 122) ||
    (48 ≤ c.val && c.val ≤ 57)) = true at h
  simp only [Bool.or_eq_true, Bool.and_eq_true, decide_eq_true_eq, UInt32.le_iff_toNat_le] at h
  change (65 ≤ c.toNat ∧ c.toNat ≤ 90 ∨ 97 ≤ c.toNat ∧ c.toNat ≤ 122) ∨
    48 ≤ c.toNat ∧ c.toNat ≤ 57 at h
  omega

theorem isBlank_of_isAlphanum {c : Char} (h : c.isAlphanum = true) : isBlank c = false := by
  have := toNat_of_isAlphanum h
  simp [isBlank]
  omega

end Text

/-! ## Decimal numbers -/

namespace Literal

theorem isDigit_of_mem_toDigits {n : Nat} {c : Char} (h : c ∈ Nat.toDigits 10 n) :
    c.isDigit = true :=
  Nat.isDigit_of_mem_toDigits (by decide) (by decide) h

theorem head_toDigits_ne {n : Nat} (hn : n ≠ 0) : ∀ c ∈ (Nat.toDigits 10 n).head?, c ≠ '0' := by
  induction n using Nat.strongRecOn with
  | ind n ih =>
    rw [Nat.toDigits_eq_if (by decide)]
    split
    · intro c hc
      obtain rfl : n.digitChar = c := by simpa using hc
      exact mt Nat.digitChar_eq_zero.1 hn
    · next hle =>
      have hne := Nat.toDigits_ne_nil (n := n / 10) (b := 10)
      rw [List.head?_append_of_ne_nil _ hne]
      exact ih (n / 10) (by omega) (by omega)

/-- A number that is written in decimal digits is read as such: it begins with a zero only if it is
nothing else. -/
theorem parse?_toDigits {n : Nat} (hn : n < 0x10000000000000000) :
    parse? (Nat.toDigits 10 n) = some n := by
  have hplain : Nat.toDigits 10 n = ['0'] ∨ (Nat.toDigits 10 n).head? ≠ some '0' := by
    rcases Nat.eq_zero_or_pos n with rfl | hpos
    · exact .inl rfl
    · exact .inr fun h => head_toDigits_ne (Nat.pos_iff_ne_zero.1 hpos) '0' h rfl
  exact parse?_eq_some_iff.2 ⟨hn, .plain hplain (.toDigits (by decide) n)⟩

end Literal

/-! ## Mnemonics -/

namespace Opcode

theorem isAlphanum_of_mem_mnemonic (op : Opcode) :
    ∀ c ∈ op.mnemonic.toList, c.isAlphanum = true := by
  have h : all.all (fun op => op.mnemonic.toList.all Char.isAlphanum) = true := by decide +kernel
  exact List.all_eq_true.1 (List.all_eq_true.1 h op (mem_all op))

theorem mnemonic_ne_nil (op : Opcode) : op.mnemonic.toList ≠ [] := by
  cases op with
  | load f w | loadIndirect f w | store f w | storeIndirect f w => simp [mnemonic]
  | binary b w => cases b <;> simp [mnemonic, BinOp.name]
  | _ => simp [mnemonic]

/-- No two opcodes have the same mnemonic. -/
theorem ofMnemonic?_mnemonic (op : Opcode) : ofMnemonic? op.mnemonic.toList = some op := by
  have h : ∀ op ∈ all, ofMnemonic? op.mnemonic.toList = some op := by decide +kernel
  exact h op (mem_all op)

theorem unbroken_mnemonic (op : Opcode) : Text.Unbroken op.mnemonic.toList :=
  fun c hc => Text.isBlank_of_isAlphanum (op.isAlphanum_of_mem_mnemonic c hc)

end Opcode

/-! ## Operands -/

/-- Numbers as they follow a mnemonic. -/
def operandText : List Nat → List Char
  | [] => []
  | n :: ns => ' ' :: (Nat.toDigits 10 n ++ ns.flatMap fun m => ',' :: ' ' :: Nat.toDigits 10 m)

namespace Instruction

/-- The operands that the opcode of an instruction uses. -/
def operands (i : Instruction) : List Nat :=
  match i.opcode.kind with
  | .none => []
  | .const8 | .const16 | .const32 => [i.operand1]
  | .const32Pair => [i.operand1, i.operand2]
  | .label => [i.target]

theorem toList_text (i : Instruction) :
    i.text.toList = i.opcode.mnemonic.toList ++ operandText i.operands := by
  have hself : ∀ s : String, toString s = s := fun _ => rfl
  unfold text operands
  cases i.opcode.kind <;> simp [operandText, hself]

end Instruction

theorem toDigits_injective : Function.Injective (Nat.toDigits 10) := by
  intro n m h
  have hvalue := congrArg (fun cs => Nat.ofDigitChars 10 cs 0) h
  simpa [Nat.ofDigitChars_toDigits] using hvalue

theorem not_mem_toDigits {c : Char} (hc : c.isDigit = false) (n : Nat) : c ∉ Nat.toDigits 10 n :=
  fun h => by simp [Literal.isDigit_of_mem_toDigits h] at hc

theorem toList_toString (n : Nat) : (toString n).toList = Nat.toDigits 10 n := by
  simp

theorem isAlphanum_of_mem_toDigits {n : Nat} {c : Char} (h : c ∈ Nat.toDigits 10 n) :
    c.isAlphanum = true := by
  simp [Char.isAlphanum, Literal.isDigit_of_mem_toDigits h]

theorem unbroken_toDigits (n : Nat) : Text.Unbroken (Nat.toDigits 10 n) :=
  fun _ hc => Text.isBlank_of_isAlphanum (isAlphanum_of_mem_toDigits hc)

theorem splitOn_append_flatMap {first : List Char} (h : ',' ∉ first) (ns : List Nat) :
    (first ++ ns.flatMap fun m => ',' :: ' ' :: Nat.toDigits 10 m).splitOn ',' =
      first :: ns.map fun m => ' ' :: Nat.toDigits 10 m := by
  induction ns generalizing first with
  | nil => simp [List.splitOn_eq_singleton h]
  | cons n ns ih =>
    have hn : ',' ∉ ' ' :: Nat.toDigits 10 n := by simp [not_mem_toDigits]
    rw [List.flatMap_cons, List.cons_append, List.splitOn_append_cons_self_of_not_mem h, ih hn,
      List.map_cons]

theorem trimmed_append_flatMap {first : List Char} (h : Text.Trimmed first) (hne : first ≠ [])
    (ns : List Nat) :
    Text.Trimmed (first ++ ns.flatMap fun m => ',' :: ' ' :: Nat.toDigits 10 m) := by
  induction ns generalizing first with
  | nil => simpa using h
  | cons n ns ih =>
    have hjoin := h.join hne (unbroken_toDigits n).trimmed Nat.toDigits_ne_nil [',', ' ']
    have hrest := ih hjoin (by simp [hne])
    simpa using hrest

/-- The numbers are what stands between the commas. -/
theorem splitOperands_trim_operandText (ns : List Nat) :
    Statement.splitOperands (Text.trim (operandText ns)) = ns.map (Nat.toDigits 10) := by
  cases ns with
  | nil => rfl
  | cons n ns =>
    have htrim :=
      (trimmed_append_flatMap (unbroken_toDigits n).trimmed Nat.toDigits_ne_nil ns).trim_eq
    have hmap : ∀ m, Text.trim (' ' :: Nat.toDigits 10 m) = Nat.toDigits 10 m := fun m => by
      rw [Text.trim_cons_of_isBlank rfl, (unbroken_toDigits m).trimmed.trim_eq]
    rw [operandText, Text.trim_cons_of_isBlank rfl, htrim, Statement.splitOperands,
      splitOn_append_flatMap (not_mem_toDigits rfl n)]
    simp [hmap, (unbroken_toDigits n).trimmed.trim_eq]

/-! ## Texts of instructions -/

namespace Instruction

theorem firstWord_text (i : Instruction) :
    Text.firstWord i.text.toList = i.opcode.mnemonic.toList := by
  rw [toList_text]
  cases i.operands with
  | nil => simpa [operandText] using Text.firstWord_of_unbroken i.opcode.unbroken_mnemonic
  | cons n ns => exact Text.firstWord_append_cons i.opcode.unbroken_mnemonic rfl

theorem splitOperands_text (i : Instruction) :
    Statement.splitOperands (Text.afterWord i.text.toList) = i.operands.map (Nat.toDigits 10) := by
  rw [toList_text, ← splitOperands_trim_operandText]
  cases i.operands with
  | nil =>
    rw [operandText, List.append_nil, Text.afterWord_of_unbroken i.opcode.unbroken_mnemonic]
    rfl
  | cons n ns =>
    rw [operandText, Text.afterWord_append_cons i.opcode.unbroken_mnemonic rfl,
      Text.trim_cons_of_isBlank rfl]

theorem trimmed_text (i : Instruction) : Text.Trimmed i.text.toList := by
  rw [toList_text]
  have hop := i.opcode.unbroken_mnemonic.trimmed
  cases i.operands with
  | nil => simpa [operandText] using hop
  | cons n ns =>
    have hn := trimmed_append_flatMap (unbroken_toDigits n).trimmed Nat.toDigits_ne_nil ns
    exact hop.join i.opcode.mnemonic_ne_nil hn (by simp) [' ']

theorem text_ne_nil (i : Instruction) : i.text.toList ≠ [] := by
  simp [toList_text, i.opcode.mnemonic_ne_nil]

/-- The characters of texts: letters, digits, blanks and commas. -/
theorem char_of_mem_text {i : Instruction} {c : Char} (h : c ∈ i.text.toList) :
    c.isAlphanum = true ∨ c = ' ' ∨ c = ',' := by
  rw [toList_text, List.mem_append] at h
  rcases h with h | h
  · exact .inl (i.opcode.isAlphanum_of_mem_mnemonic c h)
  · cases hoperands : i.operands with
    | nil => simp [hoperands, operandText] at h
    | cons n ns =>
      simp only [hoperands, operandText, List.mem_cons, List.mem_append, List.mem_flatMap] at h
      rcases h with h | h | ⟨m, -, h | h | h⟩
      · exact .inr (.inl h)
      · exact .inl (isAlphanum_of_mem_toDigits h)
      · exact .inr (.inr h)
      · exact .inr (.inl h)
      · exact .inl (isAlphanum_of_mem_toDigits h)

theorem not_mem_text {c : Char} (h : c.isAlphanum = false) (hblank : c ≠ ' ') (hcomma : c ≠ ',')
    (i : Instruction) : c ∉ i.text.toList := by
  intro hc
  have hchar := char_of_mem_text hc
  simp [h, hblank, hcomma] at hchar

/-- The instruction with zeros in the fields that its opcode does not use. -/
def bare (i : Instruction) : Instruction :=
  match i.opcode.kind with
  | .none => { opcode := i.opcode }
  | .const8 | .const16 | .const32 => { opcode := i.opcode, operand1 := i.operand1 }
  | .const32Pair => { opcode := i.opcode, operand1 := i.operand1, operand2 := i.operand2 }
  | .label => { opcode := i.opcode, target := i.target }

@[simp]
theorem opcode_bare (i : Instruction) : i.bare.opcode = i.opcode := by
  unfold bare
  split <;> rfl

@[simp]
theorem operands_bare (i : Instruction) : i.bare.operands = i.operands := by
  unfold operands
  rw [opcode_bare]
  split <;> simp [bare, *]

theorem target_bare {i : Instruction} (h : i.opcode.kind ≠ .label) : i.bare.target = 0 := by
  unfold bare
  cases hkind : i.opcode.kind with
  | label => exact absurd hkind h
  | none | const8 | const16 | const32 | const32Pair => rfl

theorem bare_eq_iff {i j : Instruction} :
    i.bare = j.bare ↔ i.opcode = j.opcode ∧ i.operands = j.operands := by
  constructor
  · intro h
    rw [← i.opcode_bare, ← i.operands_bare, h, opcode_bare, operands_bare]
    exact ⟨rfl, rfl⟩
  · rintro ⟨hop, hoperands⟩
    unfold operands at hoperands
    unfold bare
    rw [hop] at hoperands ⊢
    cases hkind : j.opcode.kind <;> simp_all

/-- The text of an instruction says what its opcode is and what the fields are that its opcode uses,
and no more. -/
theorem text_eq_iff {i j : Instruction} : i.text = j.text ↔ i.bare = j.bare := by
  rw [bare_eq_iff]
  constructor
  · intro h
    have hop : i.opcode = j.opcode := by
      have hword := i.firstWord_text
      rw [h, firstWord_text] at hword
      have := i.opcode.ofMnemonic?_mnemonic
      rw [← hword, Opcode.ofMnemonic?_mnemonic] at this
      exact (Option.some.inj this).symm
    have hoperands := i.splitOperands_text
    rw [h, splitOperands_text] at hoperands
    exact ⟨hop, (toDigits_injective.list_map hoperands).symm⟩
  · rintro ⟨hop, hoperands⟩
    rw [← String.toList_inj, toList_text, toList_text, hop, hoperands]

end Instruction

end StackTape
