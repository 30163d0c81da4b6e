import StackTape.Event
import StackTape.Proofs.Script
import StackTape.Proofs.Spelling

/-!
# What the statistics say

The statistics count what a session has recorded, whatever the order (`Stats.Tallies`). Their report
shows the ten names that come first in an order in which no two names are equal (`Stats.Ranks`). So
there is only one report on the same names (`Stats.Reports.unique`), and it does not depend on how
the hash map of the counts gives its entries.
-/

namespace StackTape

namespace Stats

variable {s s' : Stats} {names names' : List String} {entries : List (String × Nat)}

/-! ## Counting names -/

/-- The statistics after the given names have been recorded. -/
structure Tallies (s : Stats) (names : List String) : Prop where
  instructions_eq : s.instructions = names.length
  counts_eq : ∀ name : String,
    s.counts[name]? = if name ∈ names then some (names.count name) else none

theorem tallies_empty : empty.Tallies [] where
  instructions_eq := rfl
  counts_eq _ := Std.HashMap.getElem?_empty

namespace Tallies

theorem of_eq (h : s.Tallies names) (hinstructions : s'.instructions = s.instructions)
    (hcounts : s'.counts = s.counts) : s'.Tallies names where
  instructions_eq := hinstructions.trans h.instructions_eq
  counts_eq := hcounts ▸ h.counts_eq

theorem getD_counts (h : s.Tallies names) (name : String) :
    s.counts.getD name 0 = names.count name := by
  rw [Std.HashMap.getD_eq_getD_getElem?, h.counts_eq]
  split
  · rfl
  · next hname => exact (List.count_eq_zero.2 hname).symm

theorem record (h : s.Tallies names) (name : String) :
    (s.record name).Tallies (names ++ [name]) where
  instructions_eq := by rw [Stats.record, h.instructions_eq, List.length_append]; rfl
  counts_eq other := by
    rw [Stats.record, Std.HashMap.getElem?_insert, h.getD_counts, h.counts_eq]
    by_cases heq : name = other
    · simp [heq]
    · have : ¬other = name := fun h => heq h.symm
      simp [heq, this]

/-- The entries of the counts are the recorded names with the numbers of their records. -/
theorem mem_iff (h : s.Tallies names) (hperm : entries.Perm s.counts.toList)
    {entry : String × Nat} :
    entry ∈ entries ↔ entry.1 ∈ names ∧ entry.2 = names.count entry.1 := by
  rw [hperm.mem_iff, Std.HashMap.mem_toList_iff_getElem?_eq_some, h.counts_eq]
  split
  · next hname => simp [hname, eq_comm]
  · next hname => simp [hname]

theorem nodup_keys (hperm : entries.Perm s.counts.toList) : (entries.map Prod.fst).Nodup := by
  rw [(hperm.map Prod.fst).nodup_iff, Std.HashMap.map_fst_toList_eq_keys]
  exact Std.HashMap.nodup_keys

/-- There are as many entries as distinct names. -/
theorem length_eq (h : s.Tallies names) (hperm : entries.Perm s.counts.toList) :
    entries.length = names.dedup.length := by
  have hnames : (entries.map Prod.fst).Perm names.dedup := by
    rw [List.perm_ext_iff_of_nodup (nodup_keys hperm) (List.nodup_dedup names)]
    intro name
    rw [List.mem_dedup, List.mem_map]
    constructor
    · rintro ⟨entry, hmem, rfl⟩
      exact ((h.mem_iff hperm).1 hmem).1
    · exact fun hname => ⟨(name, names.count name), (h.mem_iff hperm).2 ⟨hname, rfl⟩, rfl⟩
  rw [← hnames.length_eq, List.length_map]

end Tallies

/-! ## The order of the breakdown -/

/-- An entry stands before another in the breakdown: it has the larger count, or the same and the
lesser name. -/
def Before (a b : String × Nat) : Prop := b.2 < a.2 ∨ (a.2 = b.2 ∧ a.1 < b.1)

instance (a b : String × Nat) : Decidable (Before a b) :=
  inferInstanceAs (Decidable (_ ∨ _))

theorem Before.asymm {a b : String × Nat} (h : Before a b) : ¬Before b a := by
  rcases h with hcount | ⟨heq, hname⟩ <;> rintro (hcount' | ⟨heq', hname'⟩)
  · omega
  · omega
  · omega
  · exact String.lt_irrefl _ (String.lt_trans hname hname')

theorem precedes_iff {a b : String × Nat} :
    precedes a b = true ↔ b.2 < a.2 ∨ (a.2 = b.2 ∧ a.1 ≤ b.1) := by
  simp [precedes]

theorem precedes_trans (a b c : String × Nat) (hab : precedes a b = true)
    (hbc : precedes b c = true) : precedes a c = true := by
  rw [precedes_iff] at *
  rcases hab with hab | ⟨hab, hle⟩ <;> rcases hbc with hbc | ⟨hbc, hle'⟩
  · exact .inl (hbc.trans hab)
  · exact .inl (hbc ▸ hab)
  · exact .inl (hab ▸ hbc)
  · exact .inr ⟨hab.trans hbc, String.le_trans hle hle'⟩

theorem precedes_total (a b : String × Nat) : (precedes a b || precedes b a) = true := by
  rw [Bool.or_eq_true, precedes_iff, precedes_iff]
  rcases Nat.lt_trichotomy a.2 b.2 with hlt | heq | hlt
  · exact .inr (.inl hlt)
  · rcases String.le_total a.1 b.1 with hle | hle
    · exact .inl (.inr ⟨heq, hle⟩)
    · exact .inr (.inr ⟨heq.symm, hle⟩)
  · exact .inl (.inl hlt)

theorem before_of_precedes {a b : String × Nat} (h : precedes a b = true) (hne : a.1 ≠ b.1) :
    Before a b := by
  rcases precedes_iff.1 h with hlt | ⟨heq, hle⟩
  · exact .inl hlt
  · exact .inr ⟨heq, String.not_le.1 fun hle' => hne (String.le_antisymm hle hle')⟩

theorem pairwise_sorted (entries : List (String × Nat)) :
    (entries.mergeSort precedes).Pairwise fun a b => precedes a b = true :=
  List.pairwise_mergeSort precedes_trans precedes_total entries

/-- The names that a breakdown shows: the ten that come first, or all if there are fewer. -/
structure Ranks (names : List String) (shown : List (String × Nat)) : Prop where
  length_eq : shown.length = min 10 names.dedup.length
  counted : ∀ entry ∈ shown, entry.1 ∈ names ∧ entry.2 = names.count entry.1
  ordered : shown.Pairwise Before
  omitted : ∀ name ∈ names, name ∉ shown.map Prod.fst →
    ∀ entry ∈ shown, Before entry (name, names.count name)

namespace Ranks

variable {shown shown' : List (String × Nat)} {a b : String × Nat}

theorem nodup (h : Ranks names shown) : shown.Nodup :=
  h.ordered.imp fun hab heq => (heq ▸ hab).asymm (heq ▸ hab)

theorem of_perm (h : Ranks names shown) (hnames : names.Perm names') : Ranks names' shown where
  length_eq := by rw [h.length_eq, hnames.dedup.length_eq]
  counted entry hmem := by
    rw [← hnames.mem_iff, ← hnames.count_eq]
    exact h.counted entry hmem
  ordered := h.ordered
  omitted name hname := by
    rw [← hnames.count_eq]
    exact h.omitted name (hnames.mem_iff.2 hname)

/-- What only another ranking shows comes later than all that this one shows. -/
theorem before_of_not_mem (h : Ranks names shown) (h' : Ranks names shown') (ha : a ∈ shown)
    (hb : b ∈ shown') (hnot : b ∉ shown) : Before a b := by
  obtain ⟨hname, hcount⟩ := h'.counted b hb
  have hfst : b.1 ∉ shown.map Prod.fst := by
    intro hmem
    obtain ⟨e, he, hfst⟩ := List.mem_map.1 hmem
    have hsnd : e.2 = b.2 := by rw [(h.counted e he).2, hfst, hcount]
    exact hnot (Prod.ext hfst hsnd ▸ he)
  have hbefore := h.omitted b.1 hname hfst a ha
  rwa [← hcount] at hbefore

theorem subset (h : Ranks names shown) (h' : Ranks names shown') : shown ⊆ shown' := by
  intro a ha
  by_contra hnot
  -- both show as many names, so that the other one shows one that is missing here
  have hmissing : ¬shown' ⊆ shown := by
    intro hsub
    have hlength : shown.length ≤ shown'.length := by rw [h.length_eq, h'.length_eq]
    have hperm := (List.subperm_of_subset h'.nodup hsub).perm_of_length_le hlength
    exact hnot (hperm.mem_iff.2 ha)
  simp only [List.subset_def, not_forall] at hmissing
  obtain ⟨b, hb, hnot'⟩ := hmissing
  exact (h.before_of_not_mem h' ha hb hnot').asymm (h'.before_of_not_mem h hb ha hnot)

/-- Which names are shown, and in which order, is determined. -/
theorem unique (h : Ranks names shown) (h' : Ranks names shown') : shown = shown' := by
  have hperm : shown.Perm shown' :=
    (List.perm_ext_iff_of_nodup h.nodup h'.nodup).2 fun _ => ⟨(h.subset h' ·), (h'.subset h ·)⟩
  exact hperm.eq_of_pairwise (fun _ _ _ _ hab hba => absurd hba hab.asymm) h.ordered h'.ordered

end Ranks

theorem Tallies.ranks_breakdown (h : s.Tallies names) (hperm : entries.Perm s.counts.toList) :
    Ranks names (breakdown entries) := by
  let sorted := entries.mergeSort precedes
  have hsorted : sorted.Perm s.counts.toList :=
    (List.mergeSort_perm entries precedes).trans hperm
  have hkeys : sorted.Pairwise fun a b => a.1 ≠ b.1 := List.pairwise_map.1 (nodup_keys hsorted)
  have hordered : sorted.Pairwise Before :=
    (pairwise_sorted entries).imp₂ (fun _ _ => before_of_precedes) hkeys
  refine ⟨?_, fun entry hmem => ?_, hordered.sublist (List.take_sublist 10 sorted),
    fun name hname hnot entry hmem => ?_⟩
  · rw [breakdown, List.length_take, h.length_eq hsorted]
  · exact (h.mem_iff hsorted).1 (List.mem_of_mem_take hmem)
  · have hin : (name, names.count name) ∈ sorted := (h.mem_iff hsorted).2 ⟨hname, rfl⟩
    -- a name that is not among the first ten is among the others
    rw [← List.take_append_drop 10 sorted] at hin hordered
    rcases List.mem_append.1 hin with hin | hin
    · exact absurd (List.mem_map_of_mem hin) hnot
    · exact (List.pairwise_append.1 hordered).2.2 entry hmem _ hin

/-! ## The report -/

/-- The lines of a report on recorded names, given the entries that it shows. -/
def reportLines (names : List String) (allocated callSites : Nat)
    (shown : List (String × Nat)) : List String :=
  ["Compilation Session Statistics:", s!"  Instructions compiled: {names.length}",
    s!"  States allocated: {allocated}", s!"  Call sites: {callSites}"] ++
  if names = [] then []
  else "  Instruction breakdown:" :: shown.map fun entry => s!"    {entry.1}: {entry.2}"

/-- A text is the report on recorded names: its lines show the names that come first, and each of
them ends with a line feed. -/
def Reports (names : List String) (allocated callSites : Nat) (text : String) : Prop :=
  ∃ shown, Ranks names shown ∧
    text = String.join ((reportLines names allocated callSites shown).map fun line => line ++ "\n")

/-- There is one report on recorded names, whatever their order. -/
theorem Reports.unique {allocated callSites : Nat} {text text' : String}
    (h : Reports names allocated callSites text) (h' : Reports names' allocated callSites text')
    (hnames : names.Perm names') : text = text' := by
  obtain ⟨shown, hshown, rfl⟩ := h
  obtain ⟨shown', hshown', rfl⟩ := h'
  have hempty : names = [] ↔ names' = [] := by
    rw [← List.length_eq_zero_iff, hnames.length_eq, List.length_eq_zero_iff]
  simp only [reportLines, hnames.length_eq, hempty, (hshown.of_perm hnames).unique hshown']

theorem Tallies.linesFrom_eq (h : s.Tallies names) (hperm : entries.Perm s.counts.toList) :
    s.linesFrom entries = reportLines names s.allocated s.callSites (breakdown entries) := by
  have hempty : entries.isEmpty = true ↔ names = [] := by
    rw [List.isEmpty_iff_length_eq_zero, h.length_eq hperm, List.length_eq_zero_iff,
      List.dedup_eq_nil]
  rw [linesFrom, reportLines, h.instructions_eq]
  simp only [hempty]

/-- The statistics report on the recorded names, in whatever order their counts are kept. -/
theorem Tallies.reports (h : s.Tallies names) (hperm : entries.Perm s.counts.toList) :
    Reports names s.allocated s.callSites (s.textFrom entries) := by
  refine ⟨breakdown entries, h.ranks_breakdown hperm, ?_⟩
  rw [textFrom, h.linesFrom_eq hperm]

end Stats

/-! ## Sessions and compilations -/

namespace Operation.Does

variable {op : Operation} {d d' : Draft} {answer : Except IndexFault (List Nat)}

theorem stats_of_none (h : op.Does d answer d') (hop : op.name? = none) :
    d'.stats.instructions = d.stats.instructions ∧ d'.stats.counts = d.stats.counts := by
  cases h with
  | record => cases hop
  | _ => exact ⟨rfl, rfl⟩

theorem stats_of_record {name : String} (h : (Operation.record name).Does d answer d') :
    d'.stats = d.stats.record name := by
  cases h with
  | record => rfl
  | grow hop | edit hop | fault hop => cases hop

theorem callSites_eq (h : op.Does d answer d') :
    d'.stats.callSites = op.noted?.getD d.stats.callSites := by
  cases h with
  | @grow op _ hop =>
    cases op with
    | fresh | freshBlock => rfl
    | _ => cases hop
  | @edit op _ hop | @fault op _ hop =>
    cases op with
    | setFallback | addRule => rfl
    | _ => cases hop
  | _ => rfl

end Operation.Does

namespace Session

/-- The statistics of a session count what it has recorded. -/
theorem run_tallies (ops : List Operation) :
    (run ops).draft.stats.Tallies (recorded ops) := by
  induction ops using List.reverseRecOn with
  | nil => exact Stats.tallies_empty
  | append_singleton ops op ih =>
    obtain ⟨answer, d, hdoes, hstep⟩ := exists_step (run ops) op
    rw [run_concat, hstep, recorded_append]
    cases hop : op.name? with
    | none =>
      have hnone : recorded [op] = [] := List.filterMap_cons_none hop
      rw [hnone, List.append_nil]
      exact ih.of_eq (hdoes.stats_of_none hop).1 (hdoes.stats_of_none hop).2
    | some name =>
      cases op <;> cases hop
      change d.stats.Tallies (recorded ops ++ [name])
      rw [hdoes.stats_of_record]
      exact ih.record name

theorem run_callSites (ops : List Operation) : (run ops).draft.stats.callSites =
    (ops.filterMap Operation.noted?).getLast?.getD 0 := by
  induction ops using List.reverseRecOn with
  | nil => rfl
  | append_singleton ops op ih =>
    obtain ⟨answer, d, hdoes, hstep⟩ := exists_step (run ops) op
    rw [run_concat, hstep, List.filterMap_append, hdoes.callSites_eq, ih]
    cases hop : op.noted? <;> simp [hop]

end Session

theorem Opcode.mnemonic_injective : Function.Injective Opcode.mnemonic := fun op op' h =>
  Option.some.inj ((ofMnemonic?_mnemonic op).symm.trans (h ▸ ofMnemonic?_mnemonic op'))

theorem Program.count_mnemonics (p : Program) (op : Opcode) :
    (p.map fun i => i.opcode.mnemonic).count op.mnemonic = p.countP fun i => i.opcode = op := by
  rw [List.count_eq_countP, List.countP_map]
  refine List.countP_congr fun i _ => ?_
  simp [Opcode.mnemonic_injective.eq_iff]

/-- The names that a program records. -/
def Program.mnemonics (p : Program) : List String :=
  p.map fun i => i.opcode.mnemonic

/-- The statistics of a compilation are those of its program and its machine. -/
structure Compilation.Accounts (c : Compilation) (p : Program) : Prop where
  instructions_eq : c.stats.instructions = p.length
  callSites_eq : c.stats.callSites = p.callCount
  size_eq : c.machine.states.size = c.stats.allocated + 2
  count_eq : ∀ op : Opcode, c.stats.counts.getD op.mnemonic 0 = p.countP fun i => i.opcode = op
  /-- Nothing else is counted. -/
  mem_counts_iff : ∀ name : String, name ∈ c.stats.counts ↔ ∃ i ∈ p, i.opcode.mnemonic = name

section Compile

variable {o : Options} {p : Program} {c : Compilation} (h : compile o p = .ok c)

include h

theorem tallies_of_compile : c.stats.Tallies p.mnemonics := by
  obtain ⟨ops, hdraft, -, hnames, -⟩ := exists_session h
  have htallies := Session.run_tallies ops
  rwa [hdraft, hnames] at htallies

theorem accounts_of_compile : c.Accounts p := by
  obtain ⟨ops, hdraft, hnoted, -⟩ := exists_session h
  have htallies := tallies_of_compile h
  have hsites := Session.run_callSites ops
  have hsize := (Session.run_tracks ops).size_eq
  rw [hdraft, hnoted] at hsites
  rw [hdraft] at hsize
  refine ⟨?_, hsites, hsize, fun op => ?_, fun name => ?_⟩
  · rw [htallies.instructions_eq, Program.mnemonics, List.length_map]
  · rw [htallies.getD_counts, Program.mnemonics, Program.count_mnemonics]
  · rw [Std.HashMap.mem_iff_isSome_getElem?, htallies.counts_eq, ← List.mem_map]
    split
    · next hname => exact iff_of_true rfl hname
    · next hname => exact iff_of_false Bool.false_ne_true hname

/-- The message at the end of a compilation is the report on its program and its machine. -/
theorem reports_of_compile : Stats.Reports p.mnemonics (c.machine.states.size - 2) p.callCount
    (Event.statistics c.stats).message := by
  have haccounts := accounts_of_compile h
  have hreports := (tallies_of_compile h).reports (.refl c.stats.counts.toList)
  rwa [← haccounts.callSites_eq, haccounts.size_eq]

end Compile

/-- The statistics are exact, and their report does not depend on the order in which names are
recorded or counts are kept. The last event of a compilation tells how many instructions and calls
its program has, how many states its machine has besides the sinks, and how often each opcode
occurs, and its message is the report on these numbers. Sessions that record the same names equally
often give the same report if they agree on the rest; its lines, each with a line feed at its end,
show the names that come first by number and spelling, and there is only one such report. -/
theorem statistics_exact_and_unordered :
    (∀ {o : Options} {p : Program} {c : Compilation}, compile o p = .ok c →
      (compileEvents p (compile o p)).getLast? = some (.statistics c.stats) ∧ c.Accounts p ∧
      Stats.Reports p.mnemonics (c.machine.states.size - 2) p.callCount
        (Event.statistics c.stats).message) ∧
    (∀ {ops ops' : List Operation} {entries entries' : List (String × Nat)},
      (Session.recorded ops).Perm (Session.recorded ops') →
      (Session.run ops).draft.stats.allocated = (Session.run ops').draft.stats.allocated →
      (Session.run ops).draft.stats.callSites = (Session.run ops').draft.stats.callSites →
      entries.Perm (Session.run ops).draft.stats.counts.toList →
      entries'.Perm (Session.run ops').draft.stats.counts.toList →
      (Session.run ops).draft.stats.textFrom entries =
        (Session.run ops').draft.stats.textFrom entries') ∧
    (∀ {ops : List Operation} {entries : List (String × Nat)},
      entries.Perm (Session.run ops).draft.stats.counts.toList →
      (∃ shown, Stats.Ranks (Session.recorded ops) shown ∧
        (Session.run ops).draft.stats.linesFrom entries =
          ["Compilation Session Statistics:",
            s!"  Instructions compiled: {(Session.recorded ops).length}",
            s!"  States allocated: {(Session.run ops).draft.stats.allocated}",
            s!"  Call sites: {(Session.run ops).draft.stats.callSites}"] ++
          if Session.recorded ops = [] then []
          else "  Instruction breakdown:" ::
            shown.map fun entry => s!"    {entry.1}: {entry.2}") ∧
      (Session.run ops).draft.stats.textFrom entries =
        String.join (((Session.run ops).draft.stats.linesFrom entries).map fun line =>
          line ++ "\n")) ∧
    (∀ s : Stats, (Event.statistics s).message = s.text ∧ s.text = s.textFrom s.counts.toList) ∧
    ∀ {names names' : List String} {allocated callSites : Nat} {text text' : String},
      Stats.Reports names allocated callSites text →
      Stats.Reports names' allocated callSites text' → names.Perm names' → text = text' := by
  refine ⟨fun {o p c} h => ⟨?_, accounts_of_compile h, reports_of_compile h⟩,
    fun hnames hallocated hsites hperm hperm' => ?_, fun {ops _} hperm => ⟨?_, rfl⟩,
    fun s => ⟨rfl, rfl⟩, Stats.Reports.unique⟩
  · rw [h, compileEvents]
    exact List.getLast?_append_cons ..
  · have hreports := (Session.run_tallies _).reports hperm
    have hreports' := (Session.run_tallies _).reports hperm'
    rw [hallocated, hsites] at hreports
    exact hreports.unique hreports' hnames
  · have htallies := Session.run_tallies ops
    exact ⟨_, htallies.ranks_breakdown hperm, htallies.linesFrom_eq hperm⟩

/-- A program that has one instruction twice. -/
def Program.pushTwice : Program :=
  [⟨.push .w8, 1, 0, 0⟩, ⟨.pop .w8, 0, 0, 0⟩, ⟨.push .w8, 2, 0, 0⟩, ⟨.accept, 0, 0, 0⟩]

theorem pushTwice_ranks :
    Stats.Ranks Program.pushTwice.mnemonics [("PUSH8", 2), ("ACCEPT", 1), ("POP8", 1)] := by
  constructor <;> decide

theorem callOnce_statistics :
    (∃ c, compile {} Program.callOnce = .ok c ∧ c.stats.instructions = 5 ∧ c.stats.callSites = 1 ∧
      c.stats.counts.getD "CALL" 0 = 1) ∧
    (∃ c, compile {} Program.pushTwice = .ok c ∧ (Event.statistics c.stats).message =
      "Compilation Session Statistics:\n  Instructions compiled: 4\n  States allocated: 5\n" ++
        "  Call sites: 0\n  Instruction breakdown:\n    PUSH8: 2\n    ACCEPT: 1\n    POP8: 1\n") ∧
    (Session.run [.record "CALL", .fresh, .record "RET", .record "CALL"]).draft.stats.text =
      (Session.run [.record "RET", .record "CALL", .record "CALL", .fresh]).draft.stats.text ∧
    ∃ shown, Stats.Ranks ["CALL", "RET", "CALL"] shown := by
  obtain ⟨hexact, hunordered, hreport, -, hunique⟩ := statistics_exact_and_unordered
  obtain ⟨c, hc⟩ := callOnce_compiles
  have haccounts := (hexact hc).2.1
  obtain ⟨⟨shown, hranks, -⟩, -⟩ :=
    @hreport [.record "CALL", .record "RET", .record "CALL"] _ (.refl _)
  refine ⟨⟨c, hc, haccounts.instructions_eq, haccounts.callSites_eq, haccounts.count_eq .call⟩, ?_,
    hunordered (.swap "RET" "CALL" ["CALL"]) (by decide) (by decide) (.refl _) (.refl _), shown,
    hranks⟩
  have hsites : CallSites.ofProgram? Program.pushTwice = some ⟨[]⟩ := rfl
  obtain ⟨c, hc⟩ := exists_compile (o := {}) hsites (by decide)
  have hsize : (compile {} Program.pushTwice).map (fun c => c.machine.states.size) = .ok 7 := by
    decide +kernel
  rw [hc] at hsize
  have hseven : c.machine.states.size = 7 := Except.ok.inj hsize
  have hmessage := (hexact hc).2.2
  rw [hseven] at hmessage
  exact ⟨c, hc, hunique hmessage ⟨_, pushTwice_ranks, by decide +kernel⟩ (.refl _)⟩

end StackTape
