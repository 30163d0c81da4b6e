import StackTape.Proofs.Assembled

/-!
# Labels and positions

Reading a text collects statements and labels line by line. Here the result is described for all
lines at once: `Places` ties the lines to their statements, and `definitions` lists the labels with
the number of instructions before their lines. A text is read if and only if every line can be read
and no label is defined on two lines (`readLines_eq_ok_iff`), and a label then stands for the
position of the line that defines it, wherever that line is (`Assembly.lookup_join_empty_iff`).
-/

namespace StackTape

/-! ## Single lines -/

namespace Line

/-- Whether a line carries an instruction. -/
def carries (line : List Char) : Bool :=
  !(body line).isEmpty

/-- The operands of the instruction on a line, as they are written. -/
def operands (line : List Char) : List (List Char) :=
  Statement.splitOperands (Text.afterWord (body line))

variable {line : List Char}

theorem statement?_eq_none_iff : statement? line = .ok none ↔ carries line = false := by
  unfold statement? carries
  cases body line with
  | nil => simp
  | cons c text => cases h : Statement.parse (c :: text) <;> simp [h, Functor.map, Except.map]

theorem statement?_eq_some_iff {s : Statement} :
    statement? line = .ok (some s) ↔ carries line = true ∧ Statement.parse (body line) = .ok s := by
  unfold statement? carries
  cases body line with
  | nil => simp
  | cons c text => cases h : Statement.parse (c :: text) <;> simp [h, Functor.map, Except.map]

theorem statement?_eq_error_iff {fault : AssemblyFault} :
    statement? line = .error fault ↔
      carries line = true ∧ Statement.parse (body line) = .error fault := by
  unfold statement? carries
  cases body line with
  | nil => simp
  | cons c text => cases h : Statement.parse (c :: text) <;> simp [h, Functor.map, Except.map]

/-! ## Lines of a text -/

/-- The number of instructions on the lines before line `k`. -/
def position (lines : List (List Char)) (k : Nat) : Nat :=
  (lines.take k).countP carries

/-- Line `k` defines the label. -/
def Defines (lines : List (List Char)) (k : Nat) (label : String) : Prop :=
  lines[k]?.bind label? = some label

instance (lines : List (List Char)) (k : Nat) (label : String) :
    Decidable (Defines lines k label) :=
  inferInstanceAs (Decidable (_ = _))

@[simp]
theorem position_zero (lines : List (List Char)) : position lines 0 = 0 := by
  simp [position]

@[simp]
theorem position_cons_succ (lines : List (List Char)) (k : Nat) :
    position (line :: lines) (k + 1) = (carries line).toNat + position lines k := by
  cases h : carries line <;> simp [position, h, Nat.add_comm]

@[simp]
theorem defines_cons_zero {lines : List (List Char)} {label : String} :
    Defines (line :: lines) 0 label ↔ label? line = some label := by
  simp [Defines]

@[simp]
theorem defines_cons_succ {lines : List (List Char)} {k : Nat} {label : String} :
    Defines (line :: lines) (k + 1) label ↔ Defines lines k label := by
  simp [Defines]

end Line

/-- The labels of lines in order, with the positions they stand for; the instructions before the
first line are counted by `position`. -/
def definitions (position : Nat) : (lines : List (List Char)) → List (String × Nat)
  | [] => []
  | line :: lines =>
    (Line.label? line).toList.map (fun label => (label, position)) ++
      definitions (position + (Line.carries line).toNat) lines

theorem mem_definitions_iff {position : Nat} {lines : List (List Char)} {label : String}
    {value : Nat} :
    (label, value) ∈ definitions position lines ↔
      ∃ k, Line.Defines lines k label ∧ value = position + Line.position lines k := by
  induction lines generalizing position with
  | nil => simp [definitions, Line.Defines]
  | cons line lines ih =>
    have hhead : (label, value) ∈ (Line.label? line).toList.map (fun label => (label, position)) ↔
        Line.label? line = some label ∧ value = position := by
      simp [eq_comm]
    rw [definitions, List.mem_append, hhead, ih]
    constructor
    · rintro (⟨hlabel, rfl⟩ | ⟨k, hk, rfl⟩)
      · exact ⟨0, by simpa using hlabel, by simp⟩
      · exact ⟨k + 1, by simpa using hk, by simp [Nat.add_assoc]⟩
    · rintro ⟨k, hk, rfl⟩
      cases k with
      | zero => exact .inl ⟨by simpa using hk, by simp⟩
      | succ k => exact .inr ⟨k, by simpa using hk, by simp [Nat.add_assoc]⟩

theorem map_fst_definitions (position : Nat) (lines : List (List Char)) :
    (definitions position lines).map Prod.fst = lines.filterMap Line.label? := by
  induction lines generalizing position with
  | nil => rfl
  | cons line lines ih =>
    rw [definitions, List.map_append, ih, List.filterMap_cons]
    cases Line.label? line <;> simp

/-- No label is defined on two lines. -/
def Line.Distinct (lines : List (List Char)) : Prop :=
  ∀ (j k : Nat) (label : String), Defines lines j label → Defines lines k label → j = k

theorem nodup_definitions_iff (position : Nat) (lines : List (List Char)) :
    ((definitions position lines).map Prod.fst).Nodup ↔ Line.Distinct lines := by
  rw [map_fst_definitions, List.Nodup, List.pairwise_filterMap, List.pairwise_iff_getElem]
  constructor
  · intro h j k label hj hk
    -- of two lines one comes first, and then the labels differ
    have hlt : ∀ {j k : Nat}, Line.Defines lines j label → Line.Defines lines k label → ¬j < k := by
      intro j k hj hk hjk
      obtain ⟨_, hline, hlabel⟩ := Option.bind_eq_some_iff.1 hj
      obtain ⟨hj, rfl⟩ := List.getElem?_eq_some_iff.1 hline
      obtain ⟨_, hline', hlabel'⟩ := Option.bind_eq_some_iff.1 hk
      obtain ⟨hk, rfl⟩ := List.getElem?_eq_some_iff.1 hline'
      exact h j k hj hk hjk label hlabel label hlabel' rfl
    have := hlt hj hk
    have := hlt hk hj
    omega
  · intro h j k hj hk hjk label hlabel label' hlabel' heq
    subst heq
    have := h j k label (by simp [Line.Defines, hj, hlabel]) (by simp [Line.Defines, hk, hlabel'])
    omega

/-- In a table without double keys an entry is found by its key. -/
theorem lookup_eq_some_iff_mem {table : List (String × Nat)} (h : (table.map Prod.fst).Nodup)
    {label : String} {value : Nat} :
    table.lookup label = some value ↔ (label, value) ∈ table := by
  induction table with
  | nil => simp
  | cons entry table ih =>
    obtain ⟨label', value'⟩ := entry
    simp only [List.map_cons, List.nodup_cons, List.mem_map, not_exists, not_and] at h
    by_cases heq : label = label'
    · subst heq
      have hrest : (label, value) ∉ table := fun hmem => h.1 _ hmem rfl
      simp [hrest, eq_comm]
    · have hne : (label == label') = false := by simpa using heq
      simp [List.lookup_cons, hne, heq, ih h.2]

/-! ## Reading -/

/-- The statements of lines of which the first has the given number, in order. -/
inductive Places : (number : Nat) → List (List Char) → List PlacedStatement → Prop
  | nil {number : Nat} : Places number [] []
  | cons {number : Nat} {line : List Char} {lines : List (List Char)}
      {placed : List PlacedStatement} {s? : Option Statement}
      (hline : Line.statement? line = .ok s?) (hrest : Places (number + 1) lines placed) :
      Places number (line :: lines) ((s?.map (PlacedStatement.mk number)).toList ++ placed)

theorem exists_places (number : Nat) {lines : List (List Char)}
    (h : ∀ line ∈ lines, ∃ s?, Line.statement? line = .ok s?) :
    ∃ placed, Places number lines placed := by
  induction lines generalizing number with
  | nil => exact ⟨[], .nil⟩
  | cons line lines ih =>
    obtain ⟨s?, hs⟩ := h line List.mem_cons_self
    have hrest : ∀ line' ∈ lines, ∃ s?, Line.statement? line' = .ok s? := fun line' hline' =>
      h line' (List.mem_cons_of_mem _ hline')
    obtain ⟨placed, hplaces⟩ := ih (number + 1) hrest
    exact ⟨_, .cons hs hplaces⟩

theorem Places.readable {number : Nat} {lines : List (List Char)} {placed : List PlacedStatement}
    (h : Places number lines placed) : ∀ line ∈ lines, ∃ s?, Line.statement? line = .ok s? := by
  induction h with
  | nil => simp
  | cons hline _ ih => exact List.forall_mem_cons.2 ⟨⟨_, hline⟩, ih⟩

/-- There is a statement for each line that carries one. -/
theorem Places.forall₂ {number : Nat} {lines : List (List Char)} {placed : List PlacedStatement}
    (h : Places number lines placed) :
    List.Forall₂ (fun line x => Statement.parse (Line.body line) = .ok x.statement)
      (lines.filter Line.carries) placed := by
  induction h with
  | nil => exact .nil
  | cons hline hrest ih =>
    rename_i s?
    cases s? with
    | none =>
      rw [Line.statement?_eq_none_iff] at hline
      rwa [List.filter_cons_of_neg (by simp [hline])]
    | some s =>
      rw [Line.statement?_eq_some_iff] at hline
      rw [List.filter_cons_of_pos hline.1]
      exact .cons hline.2 ih

namespace Assembly

/-- The labels are different. -/
def Distinct (a : Assembly) : Prop := (a.labels.map Prod.fst).Nodup

/-- What one more line adds: its label at the current position, and its statement. -/
def extend (a : Assembly) (label : Option String) (placed : Option PlacedStatement) : Assembly :=
  ⟨a.code ++ placed.toArray, label.toList.map (fun l => (l, a.code.size)) ++ a.labels⟩

/-- What lines and their statements add. -/
def join (a : Assembly) (lines : List (List Char)) (placed : List PlacedStatement) : Assembly :=
  ⟨a.code ++ placed.toArray, (definitions a.code.size lines).reverse ++ a.labels⟩

variable {a a' : Assembly} {number : Nat} {line : List Char} {lines : List (List Char)}

@[simp]
theorem extend_none_none (a : Assembly) : a.extend none none = a := by
  simp [extend]

@[simp]
theorem join_nil (a : Assembly) : a.join [] [] = a := by
  simp [join, definitions]

/-- Lines are joined one by one. -/
theorem join_cons {s? : Option Statement} (hs : Line.statement? line = .ok s?)
    (placed : List PlacedStatement) :
    (a.extend (Line.label? line) (s?.map (PlacedStatement.mk number))).join lines placed =
      a.join (line :: lines) ((s?.map (PlacedStatement.mk number)).toList ++ placed) := by
  have hcarries :
      (Line.carries line).toNat = (s?.map (PlacedStatement.mk number)).toArray.size := by
    cases s? with
    | none => simp [Line.statement?_eq_none_iff.1 hs]
    | some s => simp [(Line.statement?_eq_some_iff.1 hs).1]
  have hreverse : ((Line.label? line).toList.map fun l => (l, a.code.size)).reverse =
      (Line.label? line).toList.map fun l => (l, a.code.size) := by
    cases Line.label? line <;> simp
  simp only [join, extend, definitions, hcarries, List.reverse_append, hreverse, Array.size_append,
    List.append_assoc, mk.injEq, and_true]
  cases s? <;> simp

theorem lookup_eq_none_iff {label : String} :
    a.labels.lookup label = none ↔ label ∉ a.labels.map Prod.fst := by
  simp only [List.lookup_eq_none_iff, List.mem_map, not_exists, not_and, bne_iff_ne]
  exact forall₂_congr fun entry _ => ne_comm

theorem distinct_extend_iff (ha : a.Distinct) {label : Option String}
    {placed : Option PlacedStatement} :
    (a.extend label placed).Distinct ↔ ∀ l, label = some l → a.labels.lookup l = none := by
  unfold Distinct at ha ⊢
  cases label with
  | none => simpa [extend] using ha
  | some l =>
    have hnodup : ((a.extend (some l) placed).labels.map Prod.fst).Nodup ↔
        l ∉ a.labels.map Prod.fst ∧ (a.labels.map Prod.fst).Nodup := List.nodup_cons
    rw [hnodup, ← lookup_eq_none_iff]
    simp [ha]

theorem Distinct.of_join {placed : List PlacedStatement} (h : (a.join lines placed).Distinct) :
    a.Distinct := by
  unfold Distinct join at h
  rw [List.map_append] at h
  exact h.of_append_right

theorem defineLabel_eq_ok_iff :
    a.defineLabel line = .ok a' ↔
      (∀ label, Line.label? line = some label → a.labels.lookup label = none) ∧
        a.extend (Line.label? line) none = a' := by
  unfold defineLabel
  cases Line.label? line with
  | none => simp
  | some label =>
    unfold define
    simp only [Option.some.injEq, forall_eq']
    cases hlookup : a.labels.lookup label with
    | none => simp [extend]
    | some value => simp

theorem appendStatement_eq_ok_iff :
    a.appendStatement number line = .ok a' ↔
      ∃ s?, Line.statement? line = .ok s? ∧
        a.extend none (s?.map (PlacedStatement.mk number)) = a' := by
  unfold appendStatement
  cases hstatement : Line.statement? line with
  | error e => simp [bind, Except.bind]
  | ok s? => cases s? <;> simp [bind, Except.bind, pure, Except.pure, extend]

/-- A line is read if its label is new and its statement is well formed. -/
theorem readLine_eq_ok_iff :
    a.readLine number line = .ok a' ↔
      (∀ label, Line.label? line = some label → a.labels.lookup label = none) ∧
        ∃ s?, Line.statement? line = .ok s? ∧
          a.extend (Line.label? line) (s?.map (PlacedStatement.mk number)) = a' := by
  have hread : a.readLine number line = .ok a' ↔
      ∃ a₁, a.defineLabel line = .ok a₁ ∧ a₁.appendStatement number line = .ok a' := by
    unfold readLine
    cases hdefine : a.defineLabel line with
    | error e => simp [bind, Except.bind]
    | ok a₁ => cases happend : a₁.appendStatement number line <;> simp [bind, Except.bind, happend]
  simp only [hread, defineLabel_eq_ok_iff, appendStatement_eq_ok_iff]
  constructor
  · rintro ⟨a₁, ⟨hnew, rfl⟩, s?, hs, rfl⟩
    exact ⟨hnew, s?, hs, by simp [extend]⟩
  · rintro ⟨hnew, s?, hs, rfl⟩
    exact ⟨_, ⟨hnew, rfl⟩, s?, hs, by simp [extend]⟩

theorem readLines_cons_eq_ok_iff :
    a.readLines number (line :: lines) = .ok a' ↔
      ∃ a₁, a.readLine number line = .ok a₁ ∧ a₁.readLines (number + 1) lines = .ok a' := by
  rw [readLines]
  cases a.readLine number line <;> simp [bind, Except.bind]

/-- Lines are read if and only if each of them can be read for itself and no label comes twice. -/
theorem readLines_eq_ok_iff (ha : a.Distinct) :
    a.readLines number lines = .ok a' ↔
      ∃ placed, Places number lines placed ∧ a'.Distinct ∧ a.join lines placed = a' := by
  induction lines generalizing a number with
  | nil =>
    constructor
    · intro h
      obtain rfl : a = a' := Except.ok.inj h
      exact ⟨[], .nil, ha, join_nil a⟩
    · rintro ⟨placed, hplaces, -, rfl⟩
      cases hplaces
      rw [join_nil]
      rfl
  | cons line lines ih =>
    rw [readLines_cons_eq_ok_iff]
    constructor
    · rintro ⟨a₁, hline, hrest⟩
      obtain ⟨hnew, s?, hs, rfl⟩ := readLine_eq_ok_iff.1 hline
      obtain ⟨placed, hplaces, hdistinct, rfl⟩ := (ih ((distinct_extend_iff ha).2 hnew)).1 hrest
      exact ⟨_, .cons hs hplaces, hdistinct, (join_cons hs placed).symm⟩
    · rintro ⟨placed, hplaces, hdistinct, rfl⟩
      cases hplaces with
      | cons hs hplaces =>
        have hnew := hdistinct
        rw [← join_cons hs] at hnew
        have hnew := hnew.of_join
        refine ⟨_, readLine_eq_ok_iff.2 ⟨(distinct_extend_iff ha).1 hnew, _, hs, rfl⟩, ?_⟩
        exact (ih hnew).2 ⟨_, hplaces, hdistinct, join_cons hs _⟩

/-! ## Whole texts -/

@[simp]
theorem toList_code_join_empty (placed : List PlacedStatement) :
    (empty.join lines placed).code.toList = placed := by
  simp [join, empty]

theorem distinct_empty : empty.Distinct := List.nodup_nil

theorem distinct_join_empty_iff (placed : List PlacedStatement) :
    (empty.join lines placed).Distinct ↔ Line.Distinct lines := by
  rw [← nodup_definitions_iff 0, ← List.nodup_reverse, ← List.map_reverse]
  simp [Distinct, join, empty]

/-- A label stands for the position of the line that defines it. -/
theorem lookup_join_empty_iff (h : Line.Distinct lines) (placed : List PlacedStatement)
    {label : String} {value : Nat} :
    (empty.join lines placed).labels.lookup label = some value ↔
      ∃ k, Line.Defines lines k label ∧ value = Line.position lines k := by
  rw [lookup_eq_some_iff_mem ((distinct_join_empty_iff placed).2 h)]
  simp [join, empty, mem_definitions_iff]

end Assembly

/-- The lines of a text, between its line feeds. -/
def sourceLines (source : String) : List (List Char) :=
  source.toList.splitOn '\n'

theorem Assembly.read_eq_ok_iff {source : String} {a : Assembly} :
    read source = .ok a ↔
      ∃ placed, Places 1 (sourceLines source) placed ∧ Line.Distinct (sourceLines source) ∧
        empty.join (sourceLines source) placed = a := by
  change empty.readLines 1 (sourceLines source) = .ok a ↔ _
  rw [readLines_eq_ok_iff distinct_empty]
  constructor
  · rintro ⟨placed, hplaces, hdistinct, rfl⟩
    exact ⟨placed, hplaces, (distinct_join_empty_iff placed).1 hdistinct, rfl⟩
  · rintro ⟨placed, hplaces, hdistinct, rfl⟩
    exact ⟨placed, hplaces, (distinct_join_empty_iff placed).2 hdistinct, rfl⟩

/-! ## References -/

theorem Opcode.kind_eq_label_iff (op : Opcode) :
    op.kind = .label ↔ op ∈ [.jump, .jumpIfZero, .jumpIfNonzero, .call] := by
  cases op with
  | push w => cases w <;> decide
  | _ => simp [kind]

/-- A statement that comes from an opcode and its operands: it refers to a label if and only if the
opcode takes one, and the label is the operand. -/
structure Statement.Refers (op : Opcode) (operands : List (List Char)) (s : Statement) : Prop where
  opcode : s.opcode = op
  label : op.kind = .label →
    ∃ label : String, operands = [label.toList] ∧ s.reference = some label
  noLabel : op.kind ≠ .label → s.reference = none

theorem Statement.refers_of_ofOperands {op : Opcode} {operands : List (List Char)} {s : Statement}
    (h : ofOperands op operands = .ok s) : Refers op operands s := by
  unfold ofOperands at h
  split at h
  case h_1 hkind =>
    cases h
    exact ⟨rfl, by simp [hkind], fun _ => rfl⟩
  case h_2 hkind | h_3 hkind | h_4 hkind =>
    obtain ⟨value, -, h⟩ := exists_of_bind_eq_ok h
    cases h
    exact ⟨rfl, by simp [hkind], fun _ => rfl⟩
  case h_5 hkind =>
    obtain ⟨base, -, h⟩ := exists_of_bind_eq_ok h
    obtain ⟨bound, -, h⟩ := exists_of_bind_eq_ok h
    cases h
    exact ⟨rfl, by simp [hkind], fun _ => rfl⟩
  case h_6 operand hkind =>
    cases h
    exact ⟨rfl, fun _ => ⟨String.ofList operand, by simp, rfl⟩, fun hne => absurd hkind hne⟩
  case h_7 => cases h

theorem Line.refers_of_parse {line : List Char} {s : Statement}
    (h : Statement.parse (body line) = .ok s) : Statement.Refers s.opcode (operands line) s := by
  unfold Statement.parse at h
  dsimp only at h
  split at h
  · cases h
  · have hs := Statement.refers_of_ofOperands h
    rw [← hs.opcode] at hs
    exact hs

/-- A statement is linked if it has no reference or if its label is defined. -/
theorem Assembly.link_eq_ok_iff {a : Assembly} {placed : PlacedStatement} {i : Instruction} :
    a.link placed = .ok i ↔
      ∃ target, i = ⟨placed.statement.opcode, placed.statement.operand1,
          placed.statement.operand2, target⟩ ∧
        match placed.statement.reference with
        | none => target = 0
        | some label => a.labels.lookup label = some target := by
  unfold link
  dsimp only
  cases placed.statement.reference with
  | none => simp [eq_comm]
  | some label =>
    dsimp only
    cases a.labels.lookup label with
    | none => simp
    | some target => simp [eq_comm]

/-! ## Programs -/

/-- What the instruction on a line is: the statement as it is written, and for a jump or a call the
position of the line that defines its operand as a label. -/
structure Line.Gives (lines : List (List Char)) (line : List Char) (i : Instruction) : Prop where
  statement : ∃ s, Statement.parse (body line) = .ok s ∧
    i.opcode = s.opcode ∧ i.operand1 = s.operand1 ∧ i.operand2 = s.operand2
  target : i.opcode ∈ [.jump, .jumpIfZero, .jumpIfNonzero, .call] →
    ∃ (label : String) (k : Nat), operands line = [label.toList] ∧ Defines lines k label ∧
      i.target = position lines k
  noTarget : i.opcode ∉ [.jump, .jumpIfZero, .jumpIfNonzero, .call] → i.target = 0

section Gives

variable {lines : List (List Char)} {placed : List PlacedStatement} {line : List Char}
  {x : PlacedStatement} {i : Instruction}

theorem Line.gives_of_link (hdistinct : Distinct lines)
    (hparse : Statement.parse (body line) = .ok x.statement)
    (hlink : (Assembly.empty.join lines placed).link x = .ok i) : Gives lines line i := by
  obtain ⟨target, rfl, htarget⟩ := Assembly.link_eq_ok_iff.1 hlink
  have hrefers := refers_of_parse hparse
  constructor
  · exact ⟨_, hparse, rfl, rfl, rfl⟩
  · intro hop
    obtain ⟨label, hoperands, href⟩ := hrefers.label ((Opcode.kind_eq_label_iff _).2 hop)
    simp only [href] at htarget
    obtain ⟨k, hk, rfl⟩ := (Assembly.lookup_join_empty_iff hdistinct placed).1 htarget
    exact ⟨label, k, hoperands, hk, rfl⟩
  · intro hop
    have href := hrefers.noLabel (mt (Opcode.kind_eq_label_iff _).1 hop)
    simpa only [href] using htarget

theorem Line.Gives.link_eq (h : Gives lines line i) (hdistinct : Distinct lines)
    (hparse : Statement.parse (body line) = .ok x.statement) :
    (Assembly.empty.join lines placed).link x = .ok i := by
  obtain ⟨s, hs, hop, h₁, h₂⟩ := h.statement
  obtain rfl : x.statement = s := Except.ok.inj (hparse.symm.trans hs)
  have hrefers := refers_of_parse hparse
  rw [Assembly.link_eq_ok_iff]
  refine ⟨i.target, by rw [← hop, ← h₁, ← h₂], ?_⟩
  by_cases hkind : x.statement.opcode.kind = .label
  · obtain ⟨label, k, hoperands, hk, htarget⟩ :=
      h.target (by rwa [hop, ← Opcode.kind_eq_label_iff])
    obtain ⟨label', hoperands', href⟩ := hrefers.label hkind
    obtain rfl : label = label' := by
      rw [hoperands] at hoperands'
      exact String.toList_inj.1 (List.singleton_inj.1 hoperands')
    simp only [href]
    exact (Assembly.lookup_join_empty_iff hdistinct placed).2 ⟨k, hk, htarget⟩
  · simp only [hrefers.noLabel hkind]
    exact h.noTarget (by rwa [hop, ← Opcode.kind_eq_label_iff])

end Gives

theorem forall₂_comp {α β γ : Type} {R : α → β → Prop} {S : β → γ → Prop} {T : α → γ → Prop}
    (himp : ∀ a b c, R a b → S b c → T a c) {as : List α} {bs : List β} {cs : List γ}
    (hR : List.Forall₂ R as bs) (hS : List.Forall₂ S bs cs) : List.Forall₂ T as cs := by
  induction hR generalizing cs with
  | nil =>
    cases hS
    exact .nil
  | cons hr _ ih =>
    cases hS with
    | cons hs hS => exact .cons (himp _ _ _ hr hs) (ih hS)

/-- A text is accepted if and only if every line that carries an instruction gives one and no label
is defined twice. -/
theorem assemble_eq_ok_iff {source : String} {p : Program} :
    assemble source = .ok p ↔
      List.Forall₂ (Line.Gives (sourceLines source)) ((sourceLines source).filter Line.carries) p ∧
        Line.Distinct (sourceLines source) := by
  constructor
  · intro h
    obtain ⟨a, hread, hprogram⟩ := exists_of_bind_eq_ok h
    obtain ⟨placed, hplaces, hdistinct, rfl⟩ := Assembly.read_eq_ok_iff.1 hread
    have hlink := forall₂_of_mapM_eq_ok hprogram
    rw [Assembly.toList_code_join_empty] at hlink
    refine ⟨forall₂_comp ?_ hplaces.forall₂ hlink, hdistinct⟩
    intro line x i hparse hx
    exact Line.gives_of_link hdistinct hparse hx
  · rintro ⟨hgives, hdistinct⟩
    have hparse : ∀ line ∈ (sourceLines source).filter Line.carries,
        ∃ s, Statement.parse (Line.body line) = .ok s := by
      have h := hgives.imp fun line i hi => And.intro (hi.statement.imp fun s hs => hs.1) hi
      exact ((List.forall₂_and_left _ _).1 h).1
    have hlines : ∀ line ∈ sourceLines source, ∃ s?, Line.statement? line = .ok s? := by
      intro line hline
      cases hcarries : Line.carries line with
      | false => exact ⟨none, Line.statement?_eq_none_iff.2 hcarries⟩
      | true =>
        obtain ⟨s, hs⟩ := hparse line (List.mem_filter.2 ⟨hline, hcarries⟩)
        exact ⟨some s, Line.statement?_eq_some_iff.2 ⟨hcarries, hs⟩⟩
    obtain ⟨placed, hplaces⟩ := exists_places 1 hlines
    have hread := Assembly.read_eq_ok_iff.2 ⟨placed, hplaces, hdistinct, rfl⟩
    rw [assemble, hread]
    apply mapM_eq_ok_of_forall₂
    rw [Assembly.toList_code_join_empty]
    refine forall₂_comp ?_ (List.Forall₂.flip (R := flip _) hplaces.forall₂) hgives
    intro x line i hparse hline
    exact hline.link_eq hdistinct hparse

/-- The results for the members of a list that are kept are found at the numbers of those kept
before. -/
theorem exists_getElem?_of_forall₂_filter {α β : Type} {R : α → β → Prop} {keep : α → Bool}
    {as : List α} {bs : List β} (h : List.Forall₂ R (as.filter keep) bs) {k : Nat} {a : α}
    (hk : as[k]? = some a) (ha : keep a = true) :
    ∃ b, bs[(as.take k).countP keep]? = some b ∧ R a b := by
  induction as generalizing k bs with
  | nil => simp at hk
  | cons a' as ih =>
    cases k with
    | zero =>
      obtain rfl : a' = a := by simpa using hk
      rw [List.filter_cons_of_pos ha] at h
      cases h with
      | cons hr _ => exact ⟨_, rfl, hr⟩
    | succ k =>
      rw [List.getElem?_cons_succ] at hk
      by_cases ha' : keep a' = true
      · rw [List.filter_cons_of_pos ha'] at h
        cases h with
        | cons _ h =>
          rw [List.take_succ_cons, List.countP_cons_of_pos ha', List.getElem?_cons_succ]
          exact ih h hk
      · rw [List.filter_cons_of_neg ha'] at h
        rw [List.take_succ_cons, List.countP_cons_of_neg ha']
        exact ih h hk

/-- The program that is written by a text has one instruction for each line that carries one, in the
order of the lines. No label is defined on two lines. The instruction of a line is found at the
number of instructions on the lines before it, and if it is a jump or a call, its target is the
number of instructions on the lines before the one that defines its label. That line may come
before, after or be the line of the reference, and it may carry an instruction or not. -/
theorem assemble_resolves_labels (source : String) (p : Program) (h : assemble source = .ok p) :
    List.Forall₂ (Line.Gives (sourceLines source)) ((sourceLines source).filter Line.carries) p ∧
      (∀ (j k : Nat) (label : String), Line.Defines (sourceLines source) j label →
        Line.Defines (sourceLines source) k label → j = k) ∧
      ∀ (k : Nat) (line : List Char), (sourceLines source)[k]? = some line →
        Line.carries line = true →
        ∃ i, p[Line.position (sourceLines source) k]? = some i ∧
          (i.opcode ∈ [.jump, .jumpIfZero, .jumpIfNonzero, .call] →
            ∃ label : String, Line.operands line = [label.toList] ∧
              (∃ d, Line.Defines (sourceLines source) d label) ∧
              ∀ d, Line.Defines (sourceLines source) d label →
                i.target = Line.position (sourceLines source) d) := by
  obtain ⟨hgives, hdistinct⟩ := assemble_eq_ok_iff.1 h
  refine ⟨hgives, hdistinct, fun k line hline hcarries => ?_⟩
  obtain ⟨i, hi, hgive⟩ := exists_getElem?_of_forall₂_filter hgives hline hcarries
  refine ⟨i, hi, fun hop => ?_⟩
  obtain ⟨label, d, hoperands, hd, htarget⟩ := hgive.target hop
  refine ⟨label, hoperands, ⟨d, hd⟩, fun d' hd' => ?_⟩
  rw [htarget, hdistinct d d' label hd hd']

/-- Labels on lines of their own, two labels for one position, references forwards, backwards and to
the line itself, and labels behind the last instruction. -/
def labelledText : String :=
  "start:\nagain: JMP end # forwards\n\n# nothing\n jf again\nCALL self\nself: jt self\n end:\ntail:"

theorem labelledText_resolved :
    assemble labelledText = .ok
      [⟨.jump, 0, 0, 4⟩, ⟨.jumpIfZero, 0, 0, 0⟩, ⟨.call, 0, 0, 3⟩, ⟨.jumpIfNonzero, 0, 0, 3⟩] ∧
    List.Forall₂ (Line.Gives (sourceLines labelledText))
      ["again: JMP end # forwards".toList, " jf again".toList, "CALL self".toList,
        "self: jt self".toList]
      [⟨.jump, 0, 0, 4⟩, ⟨.jumpIfZero, 0, 0, 0⟩, ⟨.call, 0, 0, 3⟩, ⟨.jumpIfNonzero, 0, 0, 3⟩] := by
  have h : assemble labelledText = .ok
      [⟨.jump, 0, 0, 4⟩, ⟨.jumpIfZero, 0, 0, 0⟩, ⟨.call, 0, 0, 3⟩, ⟨.jumpIfNonzero, 0, 0, 3⟩] := by
    decide +kernel
  have hlines : (sourceLines labelledText).filter Line.carries =
      ["again: JMP end # forwards".toList, " jf again".toList, "CALL self".toList,
        "self: jt self".toList] := by
    decide +kernel
  exact ⟨h, hlines ▸ (assemble_resolves_labels labelledText _ h).1⟩

end StackTape
