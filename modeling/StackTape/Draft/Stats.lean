import Std.Data.HashMap
import StackTape.Opcode

/-!
# Statistics of a draft

What has been allocated and compiled, and the text that reports it. The names of the opcodes are
counted in a hash map, which gives its entries in no particular order; the report sorts them.
-/

namespace StackTape

/-- Counts kept while a machine is drafted. -/
structure Stats where
  /-- States handed out, the two sinks not counted. -/
  allocated : Nat
  /-- Instructions compiled so far. -/
  instructions : Nat
  /-- How often each opcode was compiled, by name; those that never were have no entry. -/
  counts : Std.HashMap String Nat
  callSites : Nat

namespace Stats

/-- Nothing has happened yet. -/
def empty : Stats := ⟨0, 0, ∅, 0⟩

/-- Count an instruction whose opcode has the given name. -/
def record (s : Stats) (name : String) : Stats :=
  { s with
    instructions := s.instructions + 1
    counts := s.counts.insert name (s.counts.getD name 0 + 1) }

/-- The order of the breakdown: larger counts first, equal counts by name. -/
def precedes (a b : String × Nat) : Bool :=
  b.2 < a.2 || (a.2 == b.2 && a.1 ≤ b.1)

/-- The ten first of the given entries in the order of the breakdown. -/
def breakdown (entries : List (String × Nat)) : List (String × Nat) :=
  (entries.mergeSort precedes).take 10

/-- The lines of the report, if the counts give their entries in the given order. -/
def linesFrom (s : Stats) (entries : List (String × Nat)) : List String :=
  ["Compilation Session Statistics:",
    s!"  Instructions compiled: {s.instructions}",
    s!"  States allocated: {s.allocated}",
    s!"  Call sites: {s.callSites}"] ++
  if entries.isEmpty then []
  else "  Instruction breakdown:" ::
    (breakdown entries).map fun entry => s!"    {entry.1}: {entry.2}"

/-- The report, a line feed after each line, if the counts give their entries in the given order. -/
def textFrom (s : Stats) (entries : List (String × Nat)) : String :=
  String.join ((s.linesFrom entries).map fun line => line ++ "\n")

/-- The report. -/
def text (s : Stats) : String := s.textFrom s.counts.toList

end Stats

end StackTape
