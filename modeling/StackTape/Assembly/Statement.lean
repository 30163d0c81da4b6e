import StackTape.Opcode
import StackTape.Text.Basic

/-!
# Lines of assembly text

A line holds an optional definition `label:`, at most one instruction, and a comment from the
first `#` on. Mnemonics may be written in either case, and commas separate operands. An integer
literal is decimal, hexadecimal after `0x`, binary after `0b`, or octal after a leading `0`; it has
at least one digit and a value that fits a 64-bit word.
-/

namespace StackTape

/-! ## Errors -/

/-- What is wrong with a line of assembly text. -/
inductive AssemblyFault where
  | unknownOpcode (mnemonic : String)
  | operandCount (opcode : Opcode) (found : Nat)
  | invalidInteger (literal : String)
  | integerRange (opcode : Opcode) (value : Nat)
  | unknownLabel (label : String)
  | duplicateLabel (label : String)
  deriving DecidableEq

/-- The text of a fault. -/
def AssemblyFault.message : AssemblyFault → String
  | unknownOpcode mnemonic => s!"unknown opcode `{mnemonic}`"
  | operandCount op found => s!"{op.mnemonic} takes {op.kind.count} operand(s), {found} given"
  | invalidInteger literal => s!"invalid integer literal `{literal}`"
  | integerRange op value =>
    s!"{value} does not fit operand of {op.mnemonic} (max {op.kind.maxValue})"
  | unknownLabel label => s!"reference to unknown label `{label}`"
  | duplicateLabel label => s!"label `{label}` already defined"

/-- A fault with the number of its line; lines count from 1. -/
structure AssemblyError where
  line : Nat
  fault : AssemblyFault
  deriving DecidableEq

/-- The text of an error. -/
def AssemblyError.message (e : AssemblyError) : String :=
  s!"line {e.line}: {e.fault.message}"

/-! ## Integer literals -/

namespace Literal

/-- The value of an ASCII digit or letter as a digit in the given radix. -/
def digit? (radix : Nat) (c : Char) : Option Nat :=
  let value? :=
    if '0' ≤ c ∧ c ≤ '9' then some (c.toNat - '0'.toNat)
    else if 'a' ≤ c ∧ c ≤ 'z' then some (c.toNat - 'a'.toNat + 10)
    else if 'A' ≤ c ∧ c ≤ 'Z' then some (c.toNat - 'A'.toNat + 10)
    else none
  value?.filter (· < radix)

/-- The number that a sequence of digit values stands for. -/
def ofDigits (radix : Nat) (digits : List Nat) : Nat :=
  digits.foldl (fun n d => n * radix + d) 0

/-- The 64-bit number written by one or more digits. -/
def digits? (radix : Nat) (cs : List Char) : Option Nat :=
  if cs.isEmpty then none
  else ((cs.mapM (digit? radix)).map (ofDigits radix)).filter (· < 0x10000000000000000)

/-- The number that a literal stands for. -/
def parse? : List Char → Option Nat
  | '0' :: 'x' :: cs | '0' :: 'X' :: cs => digits? 16 cs
  | '0' :: 'b' :: cs | '0' :: 'B' :: cs => digits? 2 cs
  | '0' :: c :: cs => digits? 8 (c :: cs)
  | cs => digits? 10 cs

end Literal

/-! ## Statements -/

/-- An instruction whose reference to a label is not resolved yet. -/
structure Statement where
  opcode : Opcode
  operand1 : Nat := 0
  operand2 : Nat := 0
  reference : Option String := none
  deriving DecidableEq

namespace Statement

/-- The operands after a mnemonic. -/
def splitOperands (text : List Char) : List (List Char) :=
  if text.isEmpty then [] else (text.splitOn ',').map Text.trim

/-- The value of a constant operand of `op`. -/
def constant (op : Opcode) (literal : List Char) : Except AssemblyFault Nat :=
  match Literal.parse? literal with
  | none => .error (.invalidInteger (String.ofList literal))
  | some value =>
    if value ≤ op.kind.maxValue then .ok value else .error (.integerRange op value)

/-- The statement that applies `op` to operands as written. -/
def ofOperands (op : Opcode) (operands : List (List Char)) : Except AssemblyFault Statement :=
  match op.kind, operands with
  | .none, [] => .ok { opcode := op }
  | .const8, [a] | .const16, [a] | .const32, [a] => do
    return { opcode := op, operand1 := ← constant op a }
  | .const32Pair, [a, b] => do
    return { opcode := op, operand1 := ← constant op a, operand2 := ← constant op b }
  | .label, [a] => .ok { opcode := op, reference := some (String.ofList a) }
  | _, _ => .error (.operandCount op operands.length)

/-- The statement written by a mnemonic and its operands. -/
def parse (text : List Char) : Except AssemblyFault Statement :=
  let word := Text.firstWord text
  match Opcode.ofMnemonic? word with
  | none => .error (.unknownOpcode (String.ofList word))
  | some op => ofOperands op (splitOperands (Text.afterWord text))

end Statement

namespace Line

/-- What a line says: the part before the comment, without the blanks around it. -/
def content (line : List Char) : List Char :=
  Text.trim (line.takeWhile fun c => c != '#')

/-- The label that a line defines: its first word without the colon at the end. -/
def label? (line : List Char) : Option String :=
  let word := Text.firstWord (content line)
  if word.getLast? = some ':' then some (String.ofList word.dropLast) else none

/-- What follows the definition of a label, or the whole content where there is none. -/
def body (line : List Char) : List Char :=
  match label? line with
  | some _ => Text.afterWord (content line)
  | none => content line

/-- The statement on a line, if it has one. -/
def statement? (line : List Char) : Except AssemblyFault (Option Statement) :=
  match body line with
  | [] => .ok none
  | text => some <$> Statement.parse text

end Line

end StackTape
