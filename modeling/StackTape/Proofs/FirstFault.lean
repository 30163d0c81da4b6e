import StackTape.Proofs.Labels

/-!
# The first fault of a text

Lines are read in order, and reading stops at the first one that cannot be read after those before
it: it defines a label again, or else its statement is faulty (`Line.FaultAfter`). What follows that
line is never looked at, so the error does not depend on it (`FirstFault.append`). A text without
such a line is linked, and then the first reference to a label that no line defines is reported
(`Places.mapM_link_eq_error_iff`).
-/

namespace StackTape

/-! ## Faults of lines -/

namespace Line

/-- Some line defines the label. -/
def Defined (lines : List (List Char)) (label : String) : Prop :=
  ∃ k, Defines lines k label

/-- What is wrong first with a line that comes after the given ones. -/
inductive FaultAfter (before : List (List Char)) (line : List Char) : AssemblyFault → Prop
  | duplicate {label : String} (hlabel : label? line = some label)
      (hbefore : Defined before label) : FaultAfter before line (.duplicateLabel label)
  | statement {fault : AssemblyFault}
      (hnew : ∀ label, label? line = some label → ¬Defined before label)
      (hline : statement? line = .error fault) : FaultAfter before line fault

/-- Every line can be read for itself, and no label is defined on two lines. -/
structure Faultless (lines : List (List Char)) : Prop where
  readable : ∀ line ∈ lines, ∃ s?, statement? line = .ok s?
  distinct : Distinct lines

/-- The error is that of the first line which cannot be read after those before it. -/
def FirstFault (lines : List (List Char)) (e : AssemblyError) : Prop :=
  ∃ before line after, lines = before ++ line :: after ∧ Faultless before ∧
    FaultAfter before line e.fault ∧ e.line = before.length + 1

/-- Line `k` refers to the label: it carries a jump or a call with the label as its operand. -/
def RefersTo (lines : List (List Char)) (k : Nat) (label : String) : Prop :=
  ∃ line s, lines[k]? = some line ∧ statement? line = .ok (some s) ∧
    s.opcode ∈ [.jump, .jumpIfZero, .jumpIfNonzero, .call] ∧ operands line = [label.toList]

/-- Line `k` is the first one that refers to an unknown label. -/
structure FirstUnknown (known : String → Prop) (lines : List (List Char)) (k : Nat)
    (label : String) : Prop where
  refers : RefersTo lines k label
  unknown : ¬known label
  first : ∀ j < k, ∀ other, RefersTo lines j other → known other

variable {known : String → Prop} {line : List Char} {lines : List (List Char)} {k : Nat}
  {label : String}

/-- What comes after the first fault does not count. -/
theorem FirstFault.append {e : AssemblyError} (h : FirstFault lines e) (more : List (List Char)) :
    FirstFault (lines ++ more) e := by
  obtain ⟨before, line, after, rfl, hrest⟩ := h
  exact ⟨before, line, after ++ more, by simp, hrest⟩

/-- A reference is what the statement on the line refers to. -/
theorem refersTo_iff : RefersTo lines k label ↔
    ∃ line s, lines[k]? = some line ∧ statement? line = .ok (some s) ∧
      s.reference = some label := by
  constructor
  · rintro ⟨line, s, hline, hs, hop, hoperands⟩
    have hrefers := refers_of_parse (statement?_eq_some_iff.1 hs).2
    obtain ⟨label', hoperands', href⟩ := hrefers.label ((Opcode.kind_eq_label_iff _).2 hop)
    obtain rfl : label = label' := by
      rw [hoperands] at hoperands'
      exact String.toList_inj.1 (List.singleton_inj.1 hoperands')
    exact ⟨line, s, hline, hs, href⟩
  · rintro ⟨line, s, hline, hs, href⟩
    have hrefers := refers_of_parse (statement?_eq_some_iff.1 hs).2
    by_cases hkind : s.opcode.kind = .label
    · obtain ⟨label', hoperands, href'⟩ := hrefers.label hkind
      obtain rfl : label = label' := Option.some.inj (href.symm.trans href')
      exact ⟨line, s, hline, hs, (Opcode.kind_eq_label_iff _).1 hkind, hoperands⟩
    · rw [hrefers.noLabel hkind] at href
      cases href

theorem refersTo_cons_succ :
    RefersTo (line :: lines) (k + 1) label ↔ RefersTo lines k label := by
  simp [RefersTo]

theorem refersTo_cons_zero {s? : Option Statement} (hline : statement? line = .ok s?) :
    RefersTo (line :: lines) 0 label ↔ s?.bind Statement.reference = some label := by
  rw [refersTo_iff]
  cases s? <;> simp [hline]

/-- The first reference to an unknown label is on the first line, or on a later one if the first
line refers to no such label. -/
theorem firstUnknown_cons_iff : FirstUnknown known (line :: lines) k label ↔
    (k = 0 ∧ RefersTo (line :: lines) 0 label ∧ ¬known label) ∨
      ∃ j, k = j + 1 ∧ (∀ other, RefersTo (line :: lines) 0 other → known other) ∧
        FirstUnknown known lines j label := by
  constructor
  · intro h
    cases k with
    | zero => exact .inl ⟨rfl, h.refers, h.unknown⟩
    | succ j =>
      refine .inr ⟨j, rfl, h.first 0 (Nat.succ_pos j), refersTo_cons_succ.1 h.refers, h.unknown, ?_⟩
      intro i hi other hother
      exact h.first (i + 1) (Nat.succ_lt_succ hi) other (refersTo_cons_succ.2 hother)
  · rintro (⟨rfl, hrefers, hunknown⟩ | ⟨j, rfl, hzero, h⟩)
    · exact ⟨hrefers, hunknown, fun i hi => absurd hi (Nat.not_lt_zero i)⟩
    · refine ⟨refersTo_cons_succ.2 h.refers, h.unknown, ?_⟩
      intro i hi other hother
      cases i with
      | zero => exact hzero other hother
      | succ i => exact h.first i (Nat.lt_of_succ_lt_succ hi) other (refersTo_cons_succ.1 hother)

end Line

/-- A faulty statement is never reported as an unknown label. -/
theorem Statement.ne_unknownLabel_of_parse {text : List Char} {fault : AssemblyFault}
    (h : parse text = .error fault) (label : String) : fault ≠ .unknownLabel label := by
  rintro rfl
  have hconstant : ∀ op literal, constant op literal ≠ .error (.unknownLabel label) := by
    intro op literal
    unfold constant
    repeat' split
    all_goals simp
  unfold parse at h
  dsimp only at h
  split at h
  · cases h
  · unfold ofOperands at h
    split at h
    case h_1 | h_6 | h_7 => cases h
    case h_2 | h_3 | h_4 =>
      rcases bind_eq_error_iff.1 h with h | ⟨_, -, h⟩
      · exact hconstant _ _ h
      · cases h
    case h_5 =>
      rcases bind_eq_error_iff.1 h with h | ⟨_, -, h⟩
      · exact hconstant _ _ h
      · rcases bind_eq_error_iff.1 h with h | ⟨_, -, h⟩
        · exact hconstant _ _ h
        · cases h

theorem Line.FaultAfter.ne_unknownLabel {before : List (List Char)} {line : List Char}
    {fault : AssemblyFault} (h : FaultAfter before line fault) (label : String) :
    fault ≠ .unknownLabel label := by
  cases h with
  | duplicate => simp
  | statement _ hline =>
    exact Statement.ne_unknownLabel_of_parse (statement?_eq_error_iff.1 hline).2 label

/-! ## Reading -/

theorem sourceLines_append (s t : String) :
    sourceLines (s ++ "\n" ++ t) = sourceLines s ++ sourceLines t := by
  have hlist : (s ++ "\n" ++ t).toList = s.toList ++ '\n' :: t.toList := by simp
  rw [sourceLines, hlist, List.splitOn_append_cons_self]
  rfl

namespace Assembly

variable {a a' : Assembly} {number : Nat} {line : List Char} {lines : List (List Char)}
  {e : AssemblyError}

theorem defineLabel_eq_error_iff {fault : AssemblyFault} :
    a.defineLabel line = .error fault ↔
      ∃ label, Line.label? line = some label ∧ a.labels.lookup label ≠ none ∧
        fault = .duplicateLabel label := by
  unfold defineLabel
  cases Line.label? line with
  | none => simp
  | some label =>
    unfold define
    simp only [Option.some.injEq, exists_eq_left']
    cases a.labels.lookup label with
    | none => simp
    | some value => simp [@eq_comm _ fault]

theorem appendStatement_eq_error_iff {fault : AssemblyFault} :
    a.appendStatement number line = .error fault ↔ Line.statement? line = .error fault := by
  unfold appendStatement
  cases Line.statement? line with
  | error fault' => simp [bind, Except.bind]
  | ok s? => cases s? <;> simp [bind, Except.bind, pure, Except.pure]

/-- A label that has been defined is noticed before a faulty statement. -/
theorem readLine_eq_error_iff : a.readLine number line = .error e ↔ e.line = number ∧
    ((∃ label, Line.label? line = some label ∧ a.labels.lookup label ≠ none ∧
        e.fault = .duplicateLabel label) ∨
      (∀ label, Line.label? line = some label → a.labels.lookup label = none) ∧
        Line.statement? line = .error e.fault) := by
  have hread : a.readLine number line = .error e ↔ e.line = number ∧
      (a.defineLabel line >>= fun a => a.appendStatement number line) = .error e.fault := by
    obtain ⟨n, fault⟩ := e
    unfold readLine
    cases a.defineLabel line >>= fun a => a.appendStatement number line with
    | error fault' => simp [@eq_comm _ n]
    | ok a' => simp
  rw [hread, bind_eq_error_iff, defineLabel_eq_error_iff]
  simp only [defineLabel_eq_ok_iff, appendStatement_eq_error_iff]
  constructor
  · rintro ⟨hnumber, hduplicate | ⟨_, ⟨hnew, -⟩, hs⟩⟩
    · exact ⟨hnumber, .inl hduplicate⟩
    · exact ⟨hnumber, .inr ⟨hnew, hs⟩⟩
  · rintro ⟨hnumber, hduplicate | ⟨hnew, hs⟩⟩
    · exact ⟨hnumber, .inl hduplicate⟩
    · exact ⟨hnumber, .inr ⟨_, ⟨hnew, rfl⟩, hs⟩⟩

/-- Lines are read up to the first one that cannot be read after those before it. -/
theorem readLines_eq_error_iff : a.readLines number lines = .error e ↔
    ∃ before line after a', lines = before ++ line :: after ∧
      a.readLines number before = .ok a' ∧
        a'.readLine (number + before.length) line = .error e := by
  induction lines generalizing a number with
  | nil => simp [readLines]
  | cons line lines ih =>
    rw [readLines, bind_eq_error_iff]
    constructor
    · rintro (hline | ⟨a₁, hline, hrest⟩)
      · exact ⟨[], line, lines, a, rfl, rfl, hline⟩
      · obtain ⟨before, line', after, a', rfl, hbefore, hline'⟩ := ih.1 hrest
        refine ⟨line :: before, line', after, a', rfl, ?_, ?_⟩
        · exact readLines_cons_eq_ok_iff.2 ⟨a₁, hline, hbefore⟩
        · rwa [List.length_cons, Nat.add_comm before.length, ← Nat.add_assoc]
    · rintro ⟨before, line', after, a', hsplit, hbefore, hline'⟩
      cases before with
      | nil =>
        obtain ⟨rfl, rfl⟩ := List.cons_eq_cons.1 hsplit
        obtain rfl : a = a' := Except.ok.inj hbefore
        exact .inl hline'
      | cons first before =>
        obtain ⟨rfl, rfl⟩ := List.cons_eq_cons.1 hsplit
        obtain ⟨a₁, hfirst, hbefore⟩ := readLines_cons_eq_ok_iff.1 hbefore
        rw [List.length_cons, Nat.add_comm before.length, ← Nat.add_assoc] at hline'
        exact .inr ⟨a₁, hfirst, ih.2 ⟨before, line', after, a', rfl, hbefore, hline'⟩⟩

theorem lookup_join_empty_eq_none_iff (h : Line.Distinct lines) (placed : List PlacedStatement)
    {label : String} :
    (empty.join lines placed).labels.lookup label = none ↔ ¬Line.Defined lines label := by
  constructor
  · rintro hnone ⟨k, hk⟩
    rw [(lookup_join_empty_iff h placed).2 ⟨k, hk, rfl⟩] at hnone
    cases hnone
  · intro hno
    cases hlookup : (empty.join lines placed).labels.lookup label with
    | none => rfl
    | some value =>
      obtain ⟨k, hk, -⟩ := (lookup_join_empty_iff h placed).1 hlookup
      exact absurd ⟨k, hk⟩ hno

/-- After faultless lines, a line cannot be read if and only if it has a fault. -/
theorem readLine_join_empty_eq_error_iff (h : Line.Distinct lines)
    (placed : List PlacedStatement) :
    (empty.join lines placed).readLine number line = .error e ↔
      e.line = number ∧ Line.FaultAfter lines line e.fault := by
  rw [readLine_eq_error_iff]
  simp only [ne_eq, lookup_join_empty_eq_none_iff h, not_not]
  refine and_congr_right fun _ => ⟨?_, ?_⟩
  · rintro (⟨label, hlabel, hbefore, hfault⟩ | ⟨hnew, hline⟩)
    · rw [hfault]
      exact .duplicate hlabel hbefore
    · exact .statement hnew hline
  · intro hfault
    generalize e.fault = fault at hfault
    cases hfault with
    | duplicate hlabel hbefore => exact .inl ⟨_, hlabel, hbefore, rfl⟩
    | statement hnew hline => exact .inr ⟨hnew, hline⟩

/-- A text cannot be read if and only if it has a first fault, and that is what is reported. -/
theorem read_eq_error_iff {source : String} :
    read source = .error e ↔ Line.FirstFault (sourceLines source) e := by
  change empty.readLines 1 (sourceLines source) = .error e ↔ _
  rw [readLines_eq_error_iff]
  simp only [readLines_eq_ok_iff distinct_empty]
  constructor
  · rintro ⟨before, line, after, _, hsplit, ⟨placed, hplaces, hdistinct, rfl⟩, hline⟩
    have hdistinct := (distinct_join_empty_iff placed).1 hdistinct
    obtain ⟨hnumber, hfault⟩ := (readLine_join_empty_eq_error_iff hdistinct placed).1 hline
    refine ⟨before, line, after, hsplit, ⟨hplaces.readable, hdistinct⟩, hfault, ?_⟩
    rw [hnumber, Nat.add_comm]
  · rintro ⟨before, line, after, hsplit, hbefore, hfault, hnumber⟩
    obtain ⟨placed, hplaces⟩ := exists_places 1 hbefore.readable
    have hdistinct := (distinct_join_empty_iff placed).2 hbefore.distinct
    refine ⟨before, line, after, _, hsplit, ⟨placed, hplaces, hdistinct, rfl⟩, ?_⟩
    rw [Nat.add_comm 1]
    exact (readLine_join_empty_eq_error_iff hbefore.distinct placed).2 ⟨hnumber, hfault⟩

/-! ## Linking -/

theorem link_eq_error_iff {x : PlacedStatement} :
    a.link x = .error e ↔ ∃ label, x.statement.reference = some label ∧
      a.labels.lookup label = none ∧ e = ⟨x.line, .unknownLabel label⟩ := by
  unfold link
  dsimp only
  cases x.statement.reference with
  | none => simp
  | some label =>
    simp only [Option.some.injEq, exists_eq_left']
    cases a.labels.lookup label <;> simp [@eq_comm _ e]

theorem exists_link_iff {x : PlacedStatement} :
    (∃ i, a.link x = .ok i) ↔
      ∀ label, x.statement.reference = some label → a.labels.lookup label ≠ none := by
  unfold link
  dsimp only
  cases x.statement.reference with
  | none => simp
  | some label =>
    simp only [Option.some.injEq, forall_eq']
    cases a.labels.lookup label <;> simp

end Assembly

/-- Linking the statements of lines fails at the first reference that is not in the table. -/
theorem Places.mapM_link_eq_error_iff {a : Assembly} {number : Nat} {lines : List (List Char)}
    {placed : List PlacedStatement} (h : Places number lines placed) {e : AssemblyError} :
    placed.mapM a.link = .error e ↔
      ∃ k label, Line.FirstUnknown (fun l => a.labels.lookup l ≠ none) lines k label ∧
        e = ⟨number + k, .unknownLabel label⟩ := by
  induction h with
  | nil =>
    constructor
    · intro h
      cases h
    · rintro ⟨k, label, h, -⟩
      obtain ⟨line, s, hline, -⟩ := h.refers
      simp at hline
  | @cons number line lines placed s? hline hrest ih =>
    -- the line itself fails, or it is linked and a later one fails
    have hsplit : ((s?.map (PlacedStatement.mk number)).toList ++ placed).mapM a.link = .error e ↔
        (∃ label, Line.RefersTo (line :: lines) 0 label ∧ a.labels.lookup label = none ∧
          e = ⟨number, .unknownLabel label⟩) ∨
        (∀ label, Line.RefersTo (line :: lines) 0 label → a.labels.lookup label ≠ none) ∧
          placed.mapM a.link = .error e := by
      simp only [Line.refersTo_cons_zero hline]
      cases s? with
      | none => simp
      | some s =>
        simp only [Option.map_some, Option.toList_some, List.singleton_append, List.mapM_cons,
          bind_eq_error_iff, Option.bind_some]
        rw [Assembly.link_eq_error_iff, ← Assembly.exists_link_iff (x := ⟨number, s⟩)]
        simp [pure, Except.pure]
    simp only [hsplit, Line.firstUnknown_cons_iff, ih, not_not]
    constructor
    · rintro (⟨label, hrefers, hnone, rfl⟩ | ⟨hzero, k, label, hfirst, rfl⟩)
      · exact ⟨0, label, .inl ⟨rfl, hrefers, hnone⟩, rfl⟩
      · refine ⟨k + 1, label, .inr ⟨k, rfl, hzero, hfirst⟩, ?_⟩
        rw [Nat.add_right_comm, Nat.add_assoc]
    · rintro ⟨k, label, ⟨rfl, hrefers, hnone⟩ | ⟨j, rfl, hzero, hfirst⟩, rfl⟩
      · exact .inl ⟨label, hrefers, hnone, rfl⟩
      · refine .inr ⟨hzero, j, label, hfirst, ?_⟩
        rw [Nat.add_right_comm, Nat.add_assoc]

/-! ## Whole texts -/

section Assemble

variable {source : String} {e : AssemblyError}

/-- A text is refused for its first fault, or, if it has none, for the first reference to a label
that no line defines. -/
theorem assemble_eq_error_iff :
    assemble source = .error e ↔
      Line.FirstFault (sourceLines source) e ∨
        Line.Faultless (sourceLines source) ∧
          ∃ k label, Line.FirstUnknown (Line.Defined (sourceLines source)) (sourceLines source) k
            label ∧ e = ⟨k + 1, .unknownLabel label⟩ := by
  have hlink : ∀ {placed}, Places 1 (sourceLines source) placed →
      Line.Distinct (sourceLines source) →
      ((Assembly.empty.join (sourceLines source) placed).program = .error e ↔
        ∃ k label, Line.FirstUnknown (Line.Defined (sourceLines source)) (sourceLines source) k
          label ∧ e = ⟨k + 1, .unknownLabel label⟩) := by
    intro placed hplaces hdistinct
    rw [Assembly.program, Assembly.toList_code_join_empty, hplaces.mapM_link_eq_error_iff]
    simp only [ne_eq, Assembly.lookup_join_empty_eq_none_iff hdistinct, not_not, Nat.add_comm 1]
  rw [assemble, bind_eq_error_iff, Assembly.read_eq_error_iff]
  refine or_congr_right ⟨?_, ?_⟩
  · rintro ⟨a, hread, hprogram⟩
    obtain ⟨placed, hplaces, hdistinct, rfl⟩ := Assembly.read_eq_ok_iff.1 hread
    exact ⟨⟨hplaces.readable, hdistinct⟩, (hlink hplaces hdistinct).1 hprogram⟩
  · rintro ⟨hfaultless, hunknown⟩
    obtain ⟨placed, hplaces⟩ := exists_places 1 hfaultless.readable
    have hread := Assembly.read_eq_ok_iff.2 ⟨placed, hplaces, hfaultless.distinct, rfl⟩
    exact ⟨_, hread, (hlink hplaces hfaultless.distinct).2 hunknown⟩

/-- An error that is not about an unknown label is that of the first fault. -/
theorem assemble_eq_error_iff_firstFault (h : ∀ label, e.fault ≠ .unknownLabel label) :
    assemble source = .error e ↔ Line.FirstFault (sourceLines source) e := by
  rw [assemble_eq_error_iff, or_iff_left]
  rintro ⟨-, k, label, -, rfl⟩
  exact h label rfl

end Assemble

/-- The first error is reported. An error other than an unknown label is that of the first line
which cannot be read after those before it, so it stays the same whatever lines follow. An unknown
label is reported if and only if every line can be read, no label is defined twice and some
reference is to a label that no line defines; then it is the first such reference, with the number
of its line. -/
theorem assemble_reports_first (s t : String) :
    (∀ e, assemble s = .error e → (∀ label, e.fault ≠ .unknownLabel label) →
      assemble (s ++ "\n" ++ t) = .error e ∧ Line.FirstFault (sourceLines s) e) ∧
    (∀ e, Line.FirstFault (sourceLines s) e → assemble s = .error e) ∧
    ∀ (number : Nat) (label : String), assemble s = .error ⟨number, .unknownLabel label⟩ ↔
      Line.Faultless (sourceLines s) ∧
        ∃ k, number = k + 1 ∧ Line.RefersTo (sourceLines s) k label ∧
          ¬Line.Defined (sourceLines s) label ∧
          ∀ j < k, ∀ other, Line.RefersTo (sourceLines s) j other →
            Line.Defined (sourceLines s) other := by
  refine ⟨?_, fun e hfirst => assemble_eq_error_iff.2 (.inl hfirst), ?_⟩
  · intro e he hother
    have hfirst := (assemble_eq_error_iff_firstFault hother).1 he
    refine ⟨?_, hfirst⟩
    rw [assemble_eq_error_iff_firstFault hother, sourceLines_append]
    exact hfirst.append (sourceLines t)
  · intro number label
    rw [assemble_eq_error_iff]
    constructor
    · rintro (⟨_, _, _, -, -, hfault, -⟩ | ⟨hfaultless, k, _, hfirst, heq⟩)
      · exact absurd rfl (hfault.ne_unknownLabel label)
      · cases heq
        exact ⟨hfaultless, k, rfl, hfirst.refers, hfirst.unknown, hfirst.first⟩
    · rintro ⟨hfaultless, k, rfl, hrefers, hunknown, hfirst⟩
      exact .inr ⟨hfaultless, k, label, ⟨hrefers, hunknown, hfirst⟩, rfl⟩

/-- A label that is defined again is reported before the mnemonic on its line and before an unknown
label further up. Without such a line, the first of two unknown labels is reported. -/
theorem reported_duplicate_and_unknown :
    assemble "jmp far\na: pop8\na: bad" = .error ⟨3, .duplicateLabel "a"⟩ ∧
    assemble "jmp far\na: pop8\na: bad\nfar: worse" = .error ⟨3, .duplicateLabel "a"⟩ ∧
    Line.Faultless (sourceLines "a: jmp a\n\ncall far # here\njt near") ∧
    Line.RefersTo (sourceLines "a: jmp a\n\ncall far # here\njt near") 2 "far" := by
  have h : assemble "jmp far\na: pop8\na: bad" = .error ⟨3, .duplicateLabel "a"⟩ := by
    decide +kernel
  have h' : assemble "a: jmp a\n\ncall far # here\njt near" = .error ⟨3, .unknownLabel "far"⟩ := by
    decide +kernel
  have hduplicate := (assemble_reports_first _ "far: worse").1 _ h (by simp)
  obtain ⟨hfaultless, k, hk, hrefers, -⟩ := ((assemble_reports_first _ "").2.2 3 "far").1 h'
  obtain rfl : k = 2 := by omega
  exact ⟨h, hduplicate.1, hfaultless, hrefers⟩

end StackTape
