import StackTape.Machine.Basic

/-!
# Opcodes and instructions of the stack machine

The opcodes come in families: most exist in three widths, and the accesses to variables once for
each kind of frame. `Opcode.all` lists them in the order of their codes. A program is a list of
instructions, each an opcode with its operands.
-/

namespace StackTape

/-- The width of a value on the stack. -/
inductive Width where
  | w8
  | w16
  | w32
  deriving DecidableEq

namespace Width

/-- The number of cells that a value takes. -/
def bytes : Width → Nat
  | w8 => 1
  | w16 => 2
  | w32 => 4

/-- The number of bits, as it ends a mnemonic. -/
def suffix : Width → String
  | w8 => "8"
  | w16 => "16"
  | w32 => "32"

/-- All widths, narrow ones first. -/
def all : List Width := [w8, w16, w32]

end Width

/-- The areas of the stack that hold variables. -/
inductive Frame where
  | locals
  | args
  | globals
  deriving DecidableEq

namespace Frame

/-- The symbol that marks where the variables of a frame begin. -/
def marker : Frame → Nat
  | locals => Symbol.basePointer
  | args => Symbol.argPointer
  | globals => Symbol.globalPointer

/-- The name of a frame inside a mnemonic. -/
def name : Frame → String
  | locals => "LOCAL"
  | args => "ARG"
  | globals => "GLOBAL"

end Frame

/-- Operations that replace the two values on top of the stack by one. -/
inductive BinOp where
  | add
  | sub
  | and
  | or
  | xor
  deriving DecidableEq

/-- The start of the mnemonic of an operation. -/
def BinOp.name : BinOp → String
  | add => "ADD"
  | sub => "SUB"
  | and => "AND"
  | or => "OR"
  | xor => "XOR"

/-- What is written after a mnemonic. -/
inductive OperandKind where
  | none
  | const8
  | const16
  | const32
  /-- The base offset of an indirect access and the bound of its index. -/
  | const32Pair
  | label
  deriving DecidableEq

namespace OperandKind

/-- The largest value of a constant operand, or of a position for a label. -/
def maxValue : OperandKind → Nat
  | none => 0
  | const8 => 255
  | const16 => 65535
  | const32 | const32Pair | label => 4294967295

/-- The number of operands. -/
def count : OperandKind → Nat
  | none => 0
  | const8 | const16 | const32 | label => 1
  | const32Pair => 2

end OperandKind

/-- The operations of the stack machine. -/
inductive Opcode where
  | push (w : Width)
  | pop (w : Width)
  | dup (w : Width)
  | swap (w : Width)
  | enter
  | alloc
  | free
  | load (f : Frame) (w : Width)
  | loadIndirect (f : Frame) (w : Width)
  | store (f : Frame) (w : Width)
  | storeIndirect (f : Frame) (w : Width)
  | makeArgs
  | binary (op : BinOp) (w : Width)
  | indexShift
  | jump
  | jumpIfZero
  | jumpIfNonzero
  | call
  | ret
  | setReturn (w : Width)
  | accept
  | reject
  deriving DecidableEq

/-- A number that stands for no opcode. -/
structure UnsupportedOpcode where
  code : Nat
  deriving DecidableEq

/-- The text that refuses a code. -/
def UnsupportedOpcode.message (e : UnsupportedOpcode) : String :=
  s!"Unsupported opcode value {e.code}"

namespace Opcode

/-- The name of an opcode in assembly text. -/
def mnemonic : Opcode → String
  | push w => "PUSH" ++ w.suffix
  | pop w => "POP" ++ w.suffix
  | dup w => "DUP" ++ w.suffix
  | swap w => "SWAP" ++ w.suffix
  | enter => "ENTER"
  | alloc => "ALLOC"
  | free => "FREE"
  | load f w => "GET" ++ f.name ++ w.suffix
  | loadIndirect f w => "GET" ++ f.name ++ "IND" ++ w.suffix
  | store f w => "SET" ++ f.name ++ w.suffix
  | storeIndirect f w => "SET" ++ f.name ++ "IND" ++ w.suffix
  | makeArgs => "MAKEARGS"
  | binary op w => op.name ++ w.suffix
  | indexShift => "IDXSHFT"
  | jump => "JMP"
  | jumpIfZero => "JF"
  | jumpIfNonzero => "JT"
  | call => "CALL"
  | ret => "RET"
  | setReturn w => "SETRET" ++ w.suffix
  | accept => "ACCEPT"
  | reject => "REJECT"

/-- What an opcode takes as operands. -/
def kind : Opcode → OperandKind
  | push .w8 => .const8
  | push .w16 => .const16
  | push .w32 | swap _ | alloc | free | load _ _ | store _ _ | makeArgs | indexShift => .const32
  | loadIndirect _ _ | storeIndirect _ _ => .const32Pair
  | jump | jumpIfZero | jumpIfNonzero | call => .label
  | pop _ | dup _ | enter | binary _ _ | ret | setReturn _ | accept | reject => .none

/-- The width of the values that an opcode works on; opcodes without a width count as 8-bit. -/
def width : Opcode → Width
  | push w | pop w | dup w | swap w | load _ w | loadIndirect _ w | store _ w | storeIndirect _ w
  | binary _ w | setReturn w => w
  | enter | alloc | free | makeArgs | indexShift | jump | jumpIfZero | jumpIfNonzero | call | ret
  | accept | reject => .w8

/-- The frame whose variables an opcode accesses. -/
def frame? : Opcode → Option Frame
  | load f _ | loadIndirect f _ | store f _ | storeIndirect f _ => some f
  | _ => none

/-- The accesses to the variables of one frame, in the order of their codes. -/
def accesses (f : Frame) : List Opcode :=
  Width.all.map (load f) ++ Width.all.map (loadIndirect f) ++ Width.all.map (store f) ++
    Width.all.map (storeIndirect f)

/-- All opcodes, in the order of their codes. -/
def all : List Opcode :=
  Width.all.map push ++ Width.all.map pop ++ Width.all.map dup ++ Width.all.map swap ++
    [enter, alloc, free] ++ accesses .locals ++ accesses .args ++ [makeArgs] ++
    accesses .globals ++ Width.all.map (binary .add) ++ Width.all.map (binary .sub) ++
    Width.all.map (binary .and) ++ Width.all.map (binary .or) ++ Width.all.map (binary .xor) ++
    [indexShift, jump, jumpIfZero, jumpIfNonzero, call, ret] ++ Width.all.map setReturn ++
    [accept, reject]

/-- The number that stands for an opcode. -/
def code (op : Opcode) : Nat := all.idxOf op

/-- The opcode with the given code, if there is one. -/
def ofCode? (code : Nat) : Option Opcode := all[code]?

/-- The opcode with the given code, or the refusal of the code. -/
def ofCode (code : Nat) : Except UnsupportedOpcode Opcode :=
  match ofCode? code with
  | some op => .ok op
  | none => .error ⟨code⟩

/-- The opcode with the given mnemonic, in which the case of ASCII letters does not matter. -/
def ofMnemonic? (word : List Char) : Option Opcode :=
  all.find? fun op => op.mnemonic.toList == word.map Char.toUpper

theorem mem_all (op : Opcode) : op ∈ all := by
  cases op with
  | push w | pop w | dup w | swap w | setReturn w => cases w <;> decide
  | load f w | loadIndirect f w | store f w | storeIndirect f w =>
    cases f <;> cases w <;> decide
  | binary b w => cases b <;> cases w <;> decide
  | _ => decide

@[simp]
theorem ofCode?_code (op : Opcode) : ofCode? op.code = some op := by
  have h : all.idxOf op < all.length := List.idxOf_lt_length_of_mem (mem_all op)
  rw [ofCode?, code, List.getElem?_eq_getElem h, List.getElem_idxOf h]

end Opcode

/-! ## Instructions and programs

An instruction is an opcode with its two constant operands and the position it may jump to. The
fields that its opcode does not use may hold anything, and its text does not show them. -/

/-- An instruction of the stack machine. -/
structure Instruction where
  opcode : Opcode
  operand1 : Nat := 0
  operand2 : Nat := 0
  target : Nat := 0
  deriving DecidableEq

/-- The text of an instruction: the mnemonic and the operands that its opcode uses. -/
def Instruction.text (i : Instruction) : String :=
  match i.opcode.kind with
  | .none => i.opcode.mnemonic
  | .const8 | .const16 | .const32 => s!"{i.opcode.mnemonic} {i.operand1}"
  | .const32Pair => s!"{i.opcode.mnemonic} {i.operand1}, {i.operand2}"
  | .label => s!"{i.opcode.mnemonic} {i.target}"

/-- A program is the list of its instructions; positions count from 0, and the length of the
program is the position after the last instruction. -/
abbrev Program := List Instruction

end StackTape
