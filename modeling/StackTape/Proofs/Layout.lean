import StackTape.Proofs.Labels
import StackTape.Proofs.Spelling

/-!
# Layout

The assembler takes two things from a line: the label that it defines and its statement. Lines that
agree on them (`Line.Alike`) can be exchanged. The blanks before what a line says and the blanks and
the comment after it do not count (`Line.Relaid`), nor does the case of a mnemonic (`Line.Recased`).
A line that says nothing (`Line.Idle`) only moves the lines behind it, and moving lines changes the
numbers in errors and nothing else (`Assembly.readLines_renumber`).
-/

namespace StackTape

/-! ## Blanks around a text -/

namespace Text

/-- A text of blanks only. -/
def Blank (cs : List Char) : Prop := ∀ c ∈ cs, isBlank c = true

instance (cs : List Char) : Decidable (Blank cs) :=
  decidable_of_iff (cs.all isBlank = true) List.all_eq_true

variable {cs blanks : List Char}

theorem Blank.append {cs' : List Char} (h : Blank cs) (h' : Blank cs') : Blank (cs ++ cs') :=
  List.forall_mem_append.2 ⟨h, h'⟩

theorem Blank.reverse (h : Blank cs) : Blank cs.reverse := by
  intro c hc
  exact h c (List.mem_reverse.1 hc)

theorem Blank.not_mem (h : Blank cs) {c : Char} (hc : isBlank c = false) : c ∉ cs := by
  intro hmem
  simp [h c hmem] at hc

theorem mem_head?_dropWhile {p : Char → Bool} {c : Char} (h : c ∈ (cs.dropWhile p).head?) :
    p c = false := by
  have hhead := List.head?_dropWhile_not p cs
  rwa [Option.mem_def.1 h] at hhead

theorem firstWord_ne_nil {c : Char} (h : c ∈ cs.head?) (hc : isBlank c = false) :
    firstWord cs ≠ [] := by
  cases cs with
  | nil => cases h
  | cons c' cs =>
    obtain rfl : c' = c := by simpa using h
    simp [firstWord, hc]

theorem Blank.trimLeft_append (h : Blank blanks) (cs : List Char) :
    trimLeft (blanks ++ cs) = trimLeft cs :=
  List.dropWhile_append_of_pos h

theorem Blank.trim_append (h : Blank blanks) (cs : List Char) : trim (blanks ++ cs) = trim cs := by
  rw [trim, h.trimLeft_append, trim]

theorem Blank.trim_eq_nil (h : Blank blanks) : trim blanks = [] := by
  rw [← List.append_nil blanks, h.trim_append]
  rfl

/-- What is left of a text and blanks behind it. -/
theorem trim_append_blank (cs : List Char) (h : Blank blanks) : trim (cs ++ blanks) = trim cs := by
  by_cases hcs : trimLeft cs = []
  · have hall : Blank cs := List.dropWhile_eq_nil_iff.1 hcs
    rw [(hall.append h).trim_eq_nil, hall.trim_eq_nil]
  · have hleft : trimLeft (cs ++ blanks) = trimLeft cs ++ blanks := by
      rw [trimLeft, List.dropWhile_append, if_neg (by simpa [trimLeft] using hcs), trimLeft]
    rw [trim, hleft, List.reverse_append, h.reverse.trimLeft_append, trim]

theorem exists_trimLeft_eq_trim_append (cs : List Char) :
    ∃ blanks, Blank blanks ∧ trimLeft cs = trim cs ++ blanks := by
  refine ⟨((trimLeft cs).reverse.takeWhile isBlank).reverse, ?_, ?_⟩
  · apply Blank.reverse
    intro c hc
    exact List.mem_takeWhile_imp hc
  · have hsplit : (trimLeft cs).reverse.takeWhile isBlank ++ trimLeft (trimLeft cs).reverse =
        (trimLeft cs).reverse := List.takeWhile_append_dropWhile
    rw [trim, ← List.reverse_append, hsplit, List.reverse_reverse]

theorem firstWord_append_blank (cs : List Char) (h : Blank blanks) :
    firstWord (cs ++ blanks) = firstWord cs := by
  have hblanks : firstWord blanks = [] := by
    cases blanks with
    | nil => rfl
    | cons c blanks => simp [firstWord, h c List.mem_cons_self]
  rw [firstWord, List.takeWhile_append]
  split
  · next hlength =>
    have hself : firstWord cs = cs := (List.takeWhile_prefix _).eq_of_length hlength
    rw [hself]
    exact (congrArg (cs ++ ·) hblanks).trans (List.append_nil cs)
  · rfl

theorem afterWord_append_blank (cs : List Char) (h : Blank blanks) :
    afterWord (cs ++ blanks) = afterWord cs := by
  rw [afterWord, afterWord, List.dropWhile_append]
  split
  · next hempty =>
    have hblanks : Blank (blanks.dropWhile fun c => !isBlank c) := fun c hc =>
      h c ((List.dropWhile_suffix _).subset hc)
    rw [List.isEmpty_iff.1 hempty, hblanks.trim_eq_nil]
    rfl
  · exact trim_append_blank _ h

/-- Blanks around a text do not change its first word. -/
theorem firstWord_trim (cs : List Char) : firstWord (trim cs) = firstWord (trimLeft cs) := by
  obtain ⟨blanks, hblanks, heq⟩ := exists_trimLeft_eq_trim_append cs
  rw [heq, firstWord_append_blank _ hblanks]

theorem afterWord_trim (cs : List Char) : afterWord (trim cs) = afterWord (trimLeft cs) := by
  obtain ⟨blanks, hblanks, heq⟩ := exists_trimLeft_eq_trim_append cs
  rw [heq, afterWord_append_blank _ hblanks]

end Text

open Text

/-! ## Lines that say the same -/

namespace Line

/-- A line of blanks, or of blanks and a comment. -/
inductive Idle : List Char → Prop
  | blank {blanks : List Char} (h : Blank blanks) : Idle blanks
  | comment {blanks : List Char} (h : Blank blanks) (text : List Char) :
      Idle (blanks ++ '#' :: text)

/-- Two lines that differ at most in the blanks at the front, and in the blanks and the comment at
the end. -/
inductive Relaid : List Char → List Char → Prop
  | intro {front front' back back' : List Char} (middle : List Char) (hfront : Blank front)
      (hfront' : Blank front') (hback : Idle back) (hback' : Idle back') :
      Relaid (front ++ middle ++ back) (front' ++ middle ++ back')

/-- Two lines that define the same label and have the same statement. -/
structure Alike (line line' : List Char) : Prop where
  label : label? line = label? line'
  statement : statement? line = statement? line'

variable {line line' blanks : List Char}

theorem content_append_of_blank (h : Blank blanks) (line : List Char) :
    content (blanks ++ line) = content line := by
  have htake : (blanks ++ line).takeWhile (fun c => c != '#') =
      blanks ++ line.takeWhile fun c => c != '#' := by
    apply List.takeWhile_append_of_pos
    intro c hc
    rw [bne_iff_ne]
    rintro rfl
    exact h.not_mem (by decide) hc
  rw [content, htake, h.trim_append, content]

theorem Idle.blank_takeWhile (h : Idle line) : Blank (line.takeWhile fun c => c != '#') := by
  cases h with
  | blank h => exact fun c hc => h c ((List.takeWhile_prefix _).subset hc)
  | comment h text =>
    rw [List.takeWhile_append]
    split
    · simpa using h
    · exact fun c hc => h c ((List.takeWhile_prefix _).subset hc)

/-- A comment ends what a line says, and blanks before it do not count. -/
theorem content_append_of_idle (line : List Char) {back : List Char} (h : Idle back) :
    content (line ++ back) = content line := by
  unfold content
  rw [List.takeWhile_append]
  split
  · next hlength =>
    have hself := (List.takeWhile_prefix (l := line) (fun c => c != '#')).eq_of_length hlength
    rw [hself, trim_append_blank _ h.blank_takeWhile]
  · rfl

theorem Idle.content_eq (h : Idle line) : content line = [] :=
  h.blank_takeWhile.trim_eq_nil

theorem Relaid.content_eq (h : Relaid line line') : content line = content line' := by
  obtain ⟨middle, hfront, hfront', hback, hback'⟩ := h
  rw [content_append_of_idle _ hback, content_append_of_idle _ hback',
    content_append_of_blank hfront, content_append_of_blank hfront']

theorem alike_of_content_eq (h : content line = content line') : Alike line line' := by
  have hlabel : label? line = label? line' := by
    rw [label?, label?, h]
  have hbody : body line = body line' := by
    rw [body, body, hlabel, h]
  constructor
  · exact hlabel
  · rw [statement?, statement?, hbody]

end Line

/-! ## Mnemonics -/

namespace Opcode

theorem isAlphanum_of_toUpper {c : Char} (h : c.toUpper.isAlphanum = true) :
    c.isAlphanum = true := by
  by_cases hlower : 'a'.val ≤ c.val ∧ c.val ≤ 'z'.val
  · change (decide (65 ≤ c.val ∧ c.val ≤ 90) || (97 ≤ c.val && c.val ≤ 122) ||
      (48 ≤ c.val && c.val ≤ 57)) = true
    have : (97 ≤ c.val && c.val ≤ 122) = true := by simpa using hlower
    simp [this]
  · have hself : c.toUpper = c := dif_neg hlower
    rwa [hself] at h

section OfMnemonic

variable {word word' : List Char} {op : Opcode}

theorem mnemonic_of_ofMnemonic? (h : ofMnemonic? word = some op) :
    op.mnemonic.toList = word.map Char.toUpper := by
  simpa using List.find?_some h

/-- A mnemonic in any case is a word of letters and digits. -/
theorem isAlphanum_of_ofMnemonic? (h : ofMnemonic? word = some op) :
    ∀ c ∈ word, c.isAlphanum = true := by
  intro c hc
  apply isAlphanum_of_toUpper
  apply op.isAlphanum_of_mem_mnemonic
  rw [mnemonic_of_ofMnemonic? h]
  exact List.mem_map_of_mem hc

theorem ofMnemonic?_congr
    (h : word'.map Char.toUpper = word.map Char.toUpper) :
    ofMnemonic? word' = ofMnemonic? word := by
  rw [ofMnemonic?, ofMnemonic?, h]

end OfMnemonic

end Opcode

namespace Line

/-- A word that is not empty and holds neither a blank nor the start of a comment. -/
structure Word (word : List Char) : Prop where
  ne_nil : word ≠ []
  unbroken : Unbroken word
  noComment : '#' ∉ word

/-- Where a word ends: at a blank, at a comment, or with the line. -/
def Ends (rest : List Char) : Prop :=
  ∀ c ∈ rest.head?, isBlank c = true ∨ c = '#'

/-- What may stand before the mnemonic of a line: blanks, or the definition of a label between
blanks. -/
inductive Lead : List Char → Prop
  | blank {blanks : List Char} (h : Blank blanks) : Lead blanks
  | label {blanks name gap : List Char} (hblanks : Blank blanks) (hname : Word (name ++ [':']))
      (hgap : Blank gap) (hne : gap ≠ []) : Lead (blanks ++ (name ++ [':']) ++ gap)

/-- In the line `before ++ word ++ after`, the word stands where the mnemonic is expected. With a
colon at its end it would be a label. -/
structure Mnemonic (before word after : List Char) : Prop where
  lead : Lead before
  isWord : Word word
  noColon : word.getLast? ≠ some ':'
  ends : Ends after

/-- Two lines that are the same, but for the case of ASCII letters in the mnemonic. -/
inductive Recased : List Char → List Char → Prop
  | same (line : List Char) : Recased line line
  | mnemonic {before word word' after : List Char} (h : Mnemonic before word after)
      (hcase : word'.map Char.toUpper = word.map Char.toUpper) :
      Recased (before ++ word ++ after) (before ++ word' ++ after)

variable {before word word' after blanks line line' : List Char}

theorem content_word_append (hword : Word word) (after : List Char) :
    content (word ++ after) = trim (word ++ after.takeWhile fun c => c != '#') := by
  rw [content, List.takeWhile_append_of_pos]
  intro c hc
  rw [bne_iff_ne]
  rintro rfl
  exact hword.noComment hc

theorem trimLeft_word_append (hword : Word word) (rest : List Char) :
    trimLeft (word ++ rest) = word ++ rest := by
  apply trimLeft_eq_self
  rw [List.head?_append_of_ne_nil _ hword.ne_nil]
  exact hword.unbroken.trimmed.head

/-- Before a comment, a word that ends is followed by a blank or by nothing. -/
theorem Ends.takeWhile_eq (h : Ends after) :
    (after.takeWhile fun c => c != '#') = [] ∨
      ∃ c rest, (after.takeWhile fun c => c != '#') = c :: rest ∧ isBlank c = true := by
  cases after with
  | nil => exact .inl rfl
  | cons c rest =>
    rcases h c rfl with hblank | rfl
    · have hne : (c != '#') = true := by
        rw [bne_iff_ne]
        rintro rfl
        cases hblank
      exact .inr ⟨c, rest.takeWhile fun c => c != '#', by simp [hne], hblank⟩
    · exact .inl (by simp)

theorem firstWord_content (hblanks : Blank blanks) (hword : Word word) (hends : Ends after) :
    firstWord (content (blanks ++ word ++ after)) = word := by
  rw [List.append_assoc, content_append_of_blank hblanks, content_word_append hword, firstWord_trim,
    trimLeft_word_append hword]
  rcases hends.takeWhile_eq with hnil | ⟨c, rest, hcons, hc⟩
  · rw [hnil, List.append_nil, firstWord_of_unbroken hword.unbroken]
  · rw [hcons, firstWord_append_cons hword.unbroken hc]

theorem afterWord_content (hblanks : Blank blanks) (hword : Word word) (hends : Ends after) :
    afterWord (content (blanks ++ word ++ after)) = content after := by
  rw [List.append_assoc, content_append_of_blank hblanks, content_word_append hword, afterWord_trim,
    trimLeft_word_append hword, content]
  rcases hends.takeWhile_eq with hnil | ⟨c, rest, hcons, hc⟩
  · rw [hnil, List.append_nil, afterWord_of_unbroken hword.unbroken]
    rfl
  · rw [hcons, afterWord_append_cons hword.unbroken hc, trim_cons_of_isBlank hc]

theorem label?_of_colon {name : List Char} (hblanks : Blank blanks) (hname : Word (name ++ [':']))
    (hends : Ends after) :
    label? (blanks ++ (name ++ [':']) ++ after) = some (String.ofList name) := by
  rw [label?, firstWord_content hblanks hname hends, if_pos (by simp), List.dropLast_concat]

/-- Behind the definition of a label, a line goes on like one without it. -/
theorem body_of_colon {name : List Char} (hblanks : Blank blanks) (hname : Word (name ++ [':']))
    (hends : Ends after) : body (blanks ++ (name ++ [':']) ++ after) = content after := by
  rw [body, label?_of_colon hblanks hname hends]
  exact afterWord_content hblanks hname hends

/-- What stands before the mnemonic decides the label, and the instruction begins after it. -/
theorem Lead.exists_label (h : Lead before) :
    ∃ (label : Option String) (gap : List Char), Blank gap ∧
      ∀ {word after : List Char}, Mnemonic before word after →
        label? (before ++ word ++ after) = label ∧
          body (before ++ word ++ after) = content (gap ++ word ++ after) := by
  cases h with
  | blank hblanks =>
    refine ⟨none, before, hblanks, ?_⟩
    intro word after h
    have hnone : label? (before ++ word ++ after) = none := by
      rw [label?, firstWord_content hblanks h.isWord h.ends, if_neg h.noColon]
    exact ⟨hnone, by rw [body, hnone]⟩
  | @label blanks name gap hblanks hname hgap hne =>
    refine ⟨some (String.ofList name), gap, hgap, ?_⟩
    intro word after h
    have hends : Ends (gap ++ word ++ after) := by
      intro c hc
      rw [List.append_assoc, List.head?_append_of_ne_nil _ hne] at hc
      exact .inl (hgap c (List.mem_of_mem_head? hc))
    have hassoc : blanks ++ (name ++ [':']) ++ gap ++ word ++ after =
        blanks ++ (name ++ [':']) ++ (gap ++ word ++ after) := by simp
    rw [hassoc]
    exact ⟨label?_of_colon hblanks hname hends, body_of_colon hblanks hname hends⟩

theorem content_ne_nil (hblanks : Blank blanks) (hword : Word word) (hends : Ends after) :
    content (blanks ++ word ++ after) ≠ [] := by
  intro hnil
  have hfirst := firstWord_content hblanks hword hends
  rw [hnil] at hfirst
  exact hword.ne_nil hfirst.symm

theorem statement?_eq_parse (h : body line ≠ []) :
    statement? line = some <$> Statement.parse (body line) := by
  rw [statement?]
  split
  · next hnil => exact absurd hnil h
  · rfl

/-- If the instruction on a line starts with a mnemonic, the opcode and the rest decide. -/
theorem statement?_of_mnemonic (hbody : body line = content (blanks ++ word ++ after))
    (hblanks : Blank blanks) (hword : Word word) (hends : Ends after) {op : Opcode}
    (hop : Opcode.ofMnemonic? word = some op) :
    statement? line =
      some <$> Statement.ofOperands op (Statement.splitOperands (content after)) := by
  have hne := content_ne_nil hblanks hword hends
  rw [← hbody] at hne
  rw [statement?_eq_parse hne, hbody, Statement.parse, firstWord_content hblanks hword hends,
    afterWord_content hblanks hword hends]
  simp only [hop]

/-- If a line can be read, its instruction starts with a mnemonic. -/
theorem exists_mnemonic_of_readable (hbody : body line = content (blanks ++ word ++ after))
    (hblanks : Blank blanks) (hword : Word word) (hends : Ends after)
    (hread : ∃ s?, statement? line = .ok s?) : ∃ op, Opcode.ofMnemonic? word = some op := by
  obtain ⟨s?, hs⟩ := hread
  have hne := content_ne_nil hblanks hword hends
  rw [← hbody] at hne
  rw [statement?_eq_parse hne, hbody, Statement.parse, firstWord_content hblanks hword hends] at hs
  cases hop : Opcode.ofMnemonic? word with
  | some op => exact ⟨op, rfl⟩
  | none =>
    simp only [hop] at hs
    cases hs

theorem Mnemonic.of_ofMnemonic? {op : Opcode} (hlead : Lead before) (hends : Ends after)
    (h : Opcode.ofMnemonic? word = some op) : Mnemonic before word after := by
  have halphanum := Opcode.isAlphanum_of_ofMnemonic? h
  refine ⟨hlead, ⟨?_, ?_, ?_⟩, ?_, hends⟩
  · rintro rfl
    exact op.mnemonic_ne_nil (Opcode.mnemonic_of_ofMnemonic? h)
  · exact fun c hc => isBlank_of_isAlphanum (halphanum c hc)
  · intro hc
    cases halphanum '#' hc
  · intro hlast
    cases halphanum ':' (List.mem_of_mem_getLast? hlast)

/-- A line that says something has a first word. -/
theorem exists_word (h : content line ≠ []) :
    ∃ blanks word after, line = blanks ++ word ++ after ∧ Blank blanks ∧ Word word ∧
      Ends after := by
  -- what comes before the comment, and that without the blanks at its front
  generalize hsaid : (line.takeWhile fun c => c != '#') = said
  generalize htext : trimLeft said = text
  have hline : said ++ (line.dropWhile fun c => c != '#') = line :=
    hsaid ▸ List.takeWhile_append_dropWhile
  have hsplit : said.takeWhile isBlank ++ text = said := htext ▸ List.takeWhile_append_dropWhile
  obtain ⟨c, hhead⟩ : ∃ c, c ∈ text.head? := by
    cases text with
    | cons c text => exact ⟨c, rfl⟩
    | nil =>
      have hblank : Blank said := List.dropWhile_eq_nil_iff.1 htext
      rw [content, hsaid, hblank.trim_eq_nil] at h
      exact absurd rfl h
  refine ⟨said.takeWhile isBlank, firstWord text,
    text.dropWhile (fun c => !isBlank c) ++ line.dropWhile fun c => c != '#',
    ?_, fun c hc => List.mem_takeWhile_imp hc, ⟨?_, ?_, ?_⟩, ?_⟩
  · rw [← List.append_assoc, List.append_assoc (said.takeWhile isBlank),
      firstWord_append_dropWhile, hsplit, hline]
  · have hc : isBlank c = false := mem_head?_dropWhile (htext ▸ hhead)
    exact firstWord_ne_nil hhead hc
  · exact fun c hc => not_isBlank_of_mem_firstWord hc
  · intro hc
    have hmem : '#' ∈ said := by
      rw [← hsplit]
      exact List.mem_append_right _ ((List.takeWhile_prefix _).subset hc)
    rw [← hsaid] at hmem
    simpa using List.mem_takeWhile_imp hmem
  · intro c hc
    rw [List.head?_append, Option.mem_def, Option.or_eq_some_iff] at hc
    rcases hc with hc | ⟨-, hc⟩
    · exact .inl (by simpa using mem_head?_dropWhile hc)
    · exact .inr (by simpa using mem_head?_dropWhile hc)

/-- Blanks must separate a word from the next one. -/
theorem Ends.ne_nil {gap : List Char} (hends : Ends (gap ++ word ++ after)) (hword : Word word) :
    gap ≠ [] := by
  rintro rfl
  obtain ⟨c, rest, rfl⟩ := List.exists_cons_of_ne_nil hword.ne_nil
  rcases hends c rfl with hblank | rfl
  · rw [hword.unbroken c List.mem_cons_self] at hblank
    cases hblank
  · exact hword.noComment List.mem_cons_self

/-- Every line with a statement is of the form that `Mnemonic` describes. -/
theorem exists_mnemonic {s : Statement} (hs : statement? line = .ok (some s)) :
    ∃ before word after, line = before ++ word ++ after ∧ Mnemonic before word after := by
  have hcarries : body line ≠ [] := by
    simpa [carries] using (statement?_eq_some_iff.1 hs).1
  have hcontent : content line ≠ [] := by
    intro hnil
    apply hcarries
    unfold body
    rw [hnil]
    split <;> rfl
  obtain ⟨blanks, word, after, rfl, hblanks, hword, hends⟩ := exists_word hcontent
  by_cases hcolon : word.getLast? = some ':'
  · -- the first word is a label, and the second is the mnemonic
    obtain ⟨name, rfl⟩ := List.getLast?_eq_some_iff.1 hcolon
    have hbody := body_of_colon hblanks hword hends
    obtain ⟨gap, word, after, rfl, hgap, hword', hends'⟩ := exists_word (hbody ▸ hcarries)
    obtain ⟨op, hop⟩ := exists_mnemonic_of_readable hbody hgap hword' hends' ⟨_, hs⟩
    have hlead := Lead.label hblanks hword hgap (hends.ne_nil hword')
    exact ⟨_, word, after, by simp, .of_ofMnemonic? hlead hends' hop⟩
  · exact ⟨blanks, word, after, rfl, .blank hblanks, hword, hcolon, hends⟩

/-- In a line that can be read, the case of the mnemonic does not matter. -/
theorem Recased.alike (h : Recased line line') (hread : ∃ s?, statement? line = .ok s?) :
    Alike line line' := by
  cases h with
  | same => exact ⟨rfl, rfl⟩
  | @mnemonic before word word' after h hcase =>
    obtain ⟨label, gap, hgap, hlead⟩ := h.lead.exists_label
    obtain ⟨hlabel, hbody⟩ := hlead h
    obtain ⟨op, hop⟩ := exists_mnemonic_of_readable hbody hgap h.isWord h.ends hread
    -- the other spelling is a mnemonic as well, of the same opcode
    have hop' : Opcode.ofMnemonic? word' = some op := (Opcode.ofMnemonic?_congr hcase).trans hop
    have h' := Mnemonic.of_ofMnemonic? h.lead h.ends hop'
    obtain ⟨hlabel', hbody'⟩ := hlead h'
    constructor
    · rw [hlabel, hlabel']
    · rw [statement?_of_mnemonic hbody hgap h.isWord h.ends hop,
        statement?_of_mnemonic hbody' hgap h'.isWord h'.ends hop']

end Line

/-! ## Line numbers -/

/-- A result in which the line number of an error is changed by `f`. -/
def renumbered {α β : Type} (f : Nat → Nat) (g : α → β) :
    Except AssemblyError α → Except AssemblyError β
  | .ok a => .ok (g a)
  | .error e => .error ⟨f e.line, e.fault⟩

theorem renumbered_bind {α β γ δ : Type} {f : Nat → Nat} {g : α → β} {g' : γ → δ}
    {next : α → Except AssemblyError γ} {next' : β → Except AssemblyError δ}
    (h : ∀ a, next' (g a) = renumbered f g' (next a)) (x : Except AssemblyError α) :
    renumbered f g x >>= next' = renumbered f g' (x >>= next) := by
  cases x with
  | error e => rfl
  | ok a => exact h a

namespace Assembly

/-- The same statements and labels, with other line numbers. -/
def renumber (f : Nat → Nat) (a : Assembly) : Assembly :=
  ⟨a.code.map fun x => ⟨f x.line, x.statement⟩, a.labels⟩

variable {f : Nat → Nat} {a : Assembly} {number number' : Nat} {line : List Char}
  {lines lines' : List (List Char)}

@[simp]
theorem labels_renumber : (a.renumber f).labels = a.labels := rfl

@[simp]
theorem size_code_renumber : (a.renumber f).code.size = a.code.size := Array.size_map

@[simp]
theorem renumber_empty : empty.renumber f = empty := by
  simp [renumber, empty]

theorem defineLabel_renumber :
    (a.renumber f).defineLabel line = renumber f <$> a.defineLabel line := by
  unfold defineLabel
  cases Line.label? line with
  | none => rfl
  | some label =>
    simp only [define, labels_renumber, size_code_renumber]
    cases a.labels.lookup label <;> rfl

theorem appendStatement_renumber :
    (a.renumber f).appendStatement (f number) line =
      renumber f <$> a.appendStatement number line := by
  unfold appendStatement
  cases Line.statement? line with
  | error fault => rfl
  | ok s? =>
    cases s? with
    | none => rfl
    | some s => simp [renumber, bind, Except.bind, pure, Except.pure, Functor.map, Except.map]

/-- One line under another number: the labels do not depend on it. -/
theorem readLine_renumber :
    (a.renumber f).readLine (f number) line =
      renumbered f (renumber f) (a.readLine number line) := by
  unfold readLine
  rw [defineLabel_renumber]
  cases a.defineLabel line with
  | error fault => rfl
  | ok a₁ =>
    simp only [Functor.map, Except.map, bind, Except.bind, appendStatement_renumber]
    cases a₁.appendStatement number line <;> rfl

/-- A run over lines under other numbers. -/
theorem readLines_renumber (h : ∀ i < lines.length, f (number + i) = number' + i) :
    (a.renumber f).readLines number' lines =
      renumbered f (renumber f) (a.readLines number lines) := by
  induction lines generalizing a number number' with
  | nil => rfl
  | cons line lines ih =>
    have hnumber : f number = number' := h 0 (by simp)
    have hrest : ∀ i < lines.length, f (number + 1 + i) = number' + 1 + i := by
      intro i hi
      have := h (i + 1) (by simpa using hi)
      rwa [Nat.add_assoc, Nat.add_assoc, Nat.add_comm 1]
    have hline : (a.renumber f).readLine number' line =
        renumbered f (renumber f) (a.readLine number line) := hnumber ▸ readLine_renumber
    rw [readLines, readLines, hline]
    apply renumbered_bind
    intro a₁
    exact ih hrest

theorem readLines_append (a : Assembly) (number : Nat) (lines lines' : List (List Char)) :
    a.readLines number (lines ++ lines') =
      a.readLines number lines >>= fun a => a.readLines (number + lines.length) lines' := by
  induction lines generalizing a number with
  | nil => rfl
  | cons line lines ih =>
    rw [List.cons_append, readLines, readLines, bind_assoc]
    congr
    funext a₁
    rw [ih, List.length_cons, Nat.add_comm lines.length, Nat.add_assoc]

theorem link_renumber {x : PlacedStatement} :
    (a.renumber f).link ⟨f x.line, x.statement⟩ = renumbered f id (a.link x) := by
  unfold link
  dsimp only
  cases x.statement.reference with
  | none => rfl
  | some label =>
    simp only [labels_renumber]
    cases a.labels.lookup label <;> rfl

theorem program_renumber : (a.renumber f).program = renumbered f id a.program := by
  have hmap : ∀ code : List PlacedStatement,
      (code.map fun x => ⟨f x.line, x.statement⟩).mapM (a.renumber f).link =
        renumbered f id (code.mapM a.link) := by
    intro code
    induction code with
    | nil => rfl
    | cons x code ih =>
      rw [List.map_cons, List.mapM_cons, List.mapM_cons, link_renumber, ih]
      apply renumbered_bind
      intro i
      apply renumbered_bind
      intro p
      rfl
  rw [program, program, ← hmap, renumber, Array.toList_map]

theorem readLine_of_idle (h : Line.Idle line) : a.readLine number line = .ok a := by
  have hlabel : Line.label? line = none := by
    rw [Line.label?, h.content_eq]
    rfl
  have hstatement : Line.statement? line = .ok none := by
    rw [Line.statement?, Line.body, hlabel, h.content_eq]
  rw [readLine_eq_ok_iff, hlabel]
  exact ⟨by simp, none, hstatement, extend_none_none a⟩

/-- A line that says nothing moves the lines behind it. -/
theorem readLines_insert_idle {before after : List (List Char)} (hline : Line.Idle line)
    (hbefore : ∀ i < before.length, f (number + i) = number + i)
    (hafter : ∀ i < after.length,
      f (number + before.length + i) = number + before.length + 1 + i) :
    (a.renumber f).readLines number (before ++ line :: after) =
      renumbered f (renumber f) (a.readLines number (before ++ after)) := by
  rw [readLines_append, readLines_append, readLines_renumber hbefore]
  apply renumbered_bind
  intro a₁
  rw [readLines, readLine_of_idle hline]
  exact readLines_renumber hafter

/-- Lines that are alike are read alike. -/
theorem readLines_congr (h : List.Forall₂ Line.Alike lines lines') :
    a.readLines number lines' = a.readLines number lines := by
  induction h generalizing a number with
  | nil => rfl
  | @cons line line' lines lines' hline _ ih =>
    have hread : a.readLine number line' = a.readLine number line := by
      simp only [readLine, defineLabel, appendStatement, hline.label, hline.statement]
    rw [readLines, readLines, hread]
    simp only [ih]

end Assembly

/-! ## Texts -/

section Texts

variable {s s' : String}

theorem assemble_eq_of_alike (h : List.Forall₂ Line.Alike (sourceLines s) (sourceLines s')) :
    assemble s' = assemble s := by
  have hread : Assembly.read s' = Assembly.read s := Assembly.readLines_congr h
  rw [assemble, assemble, hread]

/-- The numbers of lines before and after a new one. -/
theorem assemble_of_idle_line {before after : List (List Char)} {line : List Char}
    (hline : Line.Idle line) (hs : sourceLines s = before ++ after)
    (hs' : sourceLines s' = before ++ line :: after) :
    assemble s' = renumbered (fun n => if before.length < n then n + 1 else n) id (assemble s) := by
  generalize hf : (fun n => if before.length < n then n + 1 else n) = f
  have hbefore : ∀ i < before.length, f (1 + i) = 1 + i := by
    intro i hi
    rw [← hf]
    exact if_neg (by omega)
  have hafter : ∀ i < after.length, f (1 + before.length + i) = 1 + before.length + 1 + i := by
    intro i _
    have hlt : before.length < 1 + before.length + i := by omega
    rw [← hf]
    exact (if_pos hlt).trans (Nat.add_right_comm _ _ _)
  have hread : Assembly.read s' = renumbered f (Assembly.renumber f) (Assembly.read s) := by
    change Assembly.empty.readLines 1 (sourceLines s') =
      renumbered f (Assembly.renumber f) (Assembly.empty.readLines 1 (sourceLines s))
    rw [hs, hs', ← Assembly.readLines_insert_idle hline hbefore hafter, Assembly.renumber_empty]
  rw [assemble, assemble, hread]
  apply renumbered_bind
  intro a
  exact Assembly.program_renumber

theorem readable_of_assemble_eq_ok {p : Program} (h : assemble s = .ok p) :
    ∀ line ∈ sourceLines s, ∃ s?, Line.statement? line = .ok s? := by
  obtain ⟨a, hread, -⟩ := exists_of_bind_eq_ok h
  obtain ⟨placed, hplaces, -⟩ := Assembly.read_eq_ok_iff.1 hread
  exact hplaces.readable

end Texts

/-- Layout does not matter. A text with other blanks at the front of its lines, and other blanks and
comments at their ends, is read with the same result. A new line of blanks and a comment, whichever
lines it stands between, leaves an accepted text what it was; an error stays the same, except that
its line is counted one higher if it comes after the new one. In an accepted text each instruction
has its mnemonic, and the ASCII letters of mnemonics may change their case. -/
theorem assemble_ignores_layout (s s' : String) :
    (List.Forall₂ Line.Relaid (sourceLines s) (sourceLines s') → assemble s' = assemble s) ∧
    (∀ (before : List (List Char)) (line : List Char) (after : List (List Char)), Line.Idle line →
      sourceLines s = before ++ after → sourceLines s' = before ++ line :: after →
      (∀ p, assemble s = .ok p → assemble s' = .ok p) ∧
      ∀ e, assemble s = .error e → assemble s' =
        .error ⟨if before.length < e.line then e.line + 1 else e.line, e.fault⟩) ∧
    ∀ p, assemble s = .ok p →
      (∀ line ∈ sourceLines s, Line.carries line = true →
        ∃ before word after, line = before ++ word ++ after ∧ Line.Mnemonic before word after) ∧
      (List.Forall₂ Line.Recased (sourceLines s) (sourceLines s') → assemble s' = .ok p) := by
  refine ⟨?_, ?_, ?_⟩
  · intro h
    exact assemble_eq_of_alike (h.imp fun _ _ hline => Line.alike_of_content_eq hline.content_eq)
  · intro before line after hline hs hs'
    have h := assemble_of_idle_line hline hs hs'
    constructor
    · intro p hp
      rw [h, hp]
      rfl
    · intro e he
      rw [h, he]
      rfl
  · intro p hp
    have hread := readable_of_assemble_eq_ok hp
    constructor
    · intro line hline hcarries
      obtain ⟨s?, hs⟩ := hread line hline
      cases s? with
      | some s => exact Line.exists_mnemonic hs
      | none =>
        rw [Line.statement?_eq_none_iff, hcarries] at hs
        cases hs
    · intro h
      rw [← hp]
      apply assemble_eq_of_alike
      exact ((List.forall₂_and_left _ _).2 ⟨hread, h⟩).imp fun _ _ hline => hline.2.alike hline.1

/-- A jump to its own line with blanks, a comment and a carriage return around it, an error moved by
a new line, and the jump in mixed case. -/
theorem laid_out_jump :
    assemble "x: jmp x" = .ok [⟨.jump, 0, 0, 0⟩] ∧
    assemble "\t x: jmp x # again\r" = assemble "x: jmp x" ∧
    assemble "x:\n \t# none\njmp y" = .error ⟨3, .unknownLabel "y"⟩ ∧
    assemble "x: JmP x" = .ok [⟨.jump, 0, 0, 0⟩] := by
  have hjump : assemble "x: jmp x" = .ok [⟨.jump, 0, 0, 0⟩] := by decide +kernel
  have hunknown : assemble "x:\njmp y" = .error ⟨2, .unknownLabel "y"⟩ := by decide +kernel
  have hrelaid : Line.Relaid ([] ++ "x: jmp x".toList ++ [])
      ("\t ".toList ++ "x: jmp x".toList ++ (" ".toList ++ '#' :: " again\r".toList)) :=
    .intro _ (by decide) (by decide) (.blank (by decide)) (.comment (by decide) _)
  have hidle : Line.Idle (" \t".toList ++ '#' :: " none".toList) := .comment (by decide) _
  have hlead : Line.Lead ("".toList ++ ("x".toList ++ [':']) ++ " ".toList) :=
    .label (by decide) ⟨by decide, by simp [Unbroken, isBlank], by decide⟩ (by decide) (by decide)
  have hop : Opcode.ofMnemonic? "jmp".toList = some .jump := by decide +kernel
  have hends : Line.Ends " x".toList := by
    intro c hc
    obtain rfl : ' ' = c := by simpa using hc
    exact .inl (by decide)
  have hrecased := Line.Recased.mnemonic (Line.Mnemonic.of_ofMnemonic? hlead hends hop)
    (show "JmP".toList.map Char.toUpper = "jmp".toList.map Char.toUpper by decide)
  refine ⟨hjump, ?_, ?_, ?_⟩
  · exact (assemble_ignores_layout _ _).1 (.cons hrelaid .nil)
  · exact ((assemble_ignores_layout _ _).2.1 ["x:".toList] _ ["jmp y".toList] hidle
      (by decide +kernel) (by decide +kernel)).2 _ hunknown
  · exact ((assemble_ignores_layout _ _).2.2 _ hjump).2 (.cons hrecased .nil)

end StackTape
