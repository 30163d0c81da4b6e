import StackTape.CallSites
import StackTape.Proofs.Tape

/-!
# The reference interpreter

What a program means, without a machine: a state is a position, the first free cell of the stack and
a tape, and a step does one instruction (`Instruction.effect`). The stack grows to the right, values
have their least significant byte first, and a variable is found from the nearest marker of its
frame. A value that is not made of bytes is rejected; a search for a marker that is not there never
ends, and neither does a direct access beyond the free cell. Past its end a program rejects.
-/

namespace StackTape

/-- Where an instruction hands over: to a position of the program or to the accepting sink. -/
inductive Exit where
  | goto (position : Nat)
  | accept

/-- The id of the call at a position: the number of calls before it. -/
def Program.callId (p : Program) (position : Nat) : Nat :=
  Program.callCount (p.take position)

/-! ## Values -/

/-- What an operation makes of two values of `n` bytes. -/
def BinOp.eval (op : BinOp) (n lower top : Nat) : Nat :=
  match op with
  | .add => (lower + top) % 256 ^ n
  | .sub => (lower + 256 ^ n - top) % 256 ^ n
  | .and => lower &&& top
  | .or => lower ||| top
  | .xor => lower ^^^ top

/-- The tape on which a value takes the place of the two topmost ones, all of `n` bytes. -/
def replaceTwo (t : Int → Nat) (h : Int) (n v : Nat) : Int → Nat :=
  overlay (overlay t (h - n) h fun _ => 0) (h - (2 * n : Nat)) (h - n) fun c =>
    Draft.byteAt v (c - (h - (2 * n : Nat))).toNat

/-- Copy `n` bytes from `src` on to the cells from `dst` on, one after the other. -/
def copyBytes (t : Int → Nat) (src dst : Int) : (n : Nat) → Int → Nat
  | 0 => t
  | n + 1 =>
    Function.update (copyBytes t src dst n) (dst + n) (copyBytes t src dst n (src + n))

/-- Pop `n` bytes from the stack whose free cell is `h`, the byte after `j` others to the cell
`dst j`. A popped cell and the free cell above it are cleared. -/
def popBytes (t : Int → Nat) (dst : Nat → Int) (h : Int) : (n : Nat) → Int → Nat
  | 0 => t
  | n + 1 =>
    let u := popBytes t dst h n
    Function.update (Function.update (Function.update u (h - n) 0) (dst n) (u (h - n - 1)))
      (h - n - 1) 0

namespace Reference

/-! ## Variables -/

/-- Push the variable at `offset` after the nearest marker. -/
noncomputable def load (w : Width) (marker offset : Nat) : Action Unit := fun h t =>
  match nearest? t marker h with
  | none => .hang
  | some m =>
    if m + 1 + offset < h then
      if ∀ j < w.bytes, copyBytes t (m + 1 + offset) h j (m + 1 + offset + j) < 256 then
        .leave () (h + w.bytes) (copyBytes t (m + 1 + offset) h w.bytes)
      else .reject
    else if t (m + 1 + offset) < 256 ∧ m + 1 + offset ≠ h then .hang
    else .reject

/-- Pop a value into the variable at `offset` after the nearest marker, last byte first. -/
noncomputable def store (w : Width) (marker offset : Nat) : Action Unit := fun h t =>
  if t (h - 1) < 256 then
    match nearest? t marker h with
    | none => .hang
    | some m =>
      if m + offset + w.bytes < h - 1 then
        if ∀ j < w.bytes, popBytes t (fun j => m + offset + w.bytes - j) h j (h - j - 1) < 256 then
          .leave () (h - w.bytes) (popBytes t (fun j => m + offset + w.bytes - j) h w.bytes)
        else .reject
      else .hang
  else .reject

/-- Pop an index of four bytes that is below `bound`. -/
def popIndex (bound : Nat) : Action Nat := fun h t =>
  if Data t (h - 4) h ∧ value t (h - 4) 4 < bound then
    .leave (value t (h - 4) 4) (h - 4) (overlay t (h - 4) (h + 1) fun _ => 0)
  else .reject

/-! ## Calls and returns -/

/-- Put an id of two bytes in the place of the nearest argument marker, and the marker and the
arguments behind it. -/
noncomputable def call (id : Nat) : Action Unit := fun h t =>
  match nearest? t Symbol.argPointer h with
  | none => .hang
  | some a =>
    if Data t (a + 1) h then
      .leave () (h + 2) (overlay t a (h + 2) fun c =>
        if c = a then Draft.byteAt id 0 else if c = a + 1 then Draft.byteAt id 1
        else if c = a + 2 then Symbol.argPointer else t (c - 2))
    else .reject

/-- Clear the stack down to the nearest argument marker, at the free cell or below it, and the id
under the marker. -/
noncomputable def ret : Action Nat := fun h t =>
  match nearest? t Symbol.argPointer (h + 1) with
  | none => .hang
  | some a =>
    if Data t (a - 2) a then
      .leave (value t (a - 2) 2) (a - 2) (overlay t (a - 2) (h + 1) fun _ => 0)
    else .reject

/-- Pop a value into the cells below the id that is under the nearest argument marker. -/
noncomputable def setReturn (w : Width) : Action Unit := fun h t =>
  if t (h - 1) < 256 then
    match nearest? t Symbol.argPointer h with
    | none => .hang
    | some a =>
      if Data t (h - w.bytes) h then
        .leave () (h - w.bytes)
          (overlay (overlay t (h - w.bytes) (h + 1) fun _ => 0) (a - 2 - w.bytes) (a - 2)
            fun c => t (c + (h - a + 2)))
      else .reject
  else .reject

/-- Pop a byte and tell whether it is 0. -/
def popFlag : Action Bool := fun h t =>
  if t (h - 1) < 256 then .leave (decide (t (h - 1) = 0)) (h - 1) (Function.update t (h - 1) 0)
  else .reject

end Reference

/-! ## Instructions -/

/-- What an instruction does to the free cell and the tape, and where it goes on. -/
noncomputable def Instruction.effect (p : Program) (position : Nat) (i : Instruction) :
    Action Exit :=
  match i.opcode with
  | .push w => next fun h t =>
    .leave () (h + w.bytes)
      (overlay t h (h + w.bytes) fun c => Draft.byteAt i.operand1 (c - h).toNat)
  | .pop w => next fun h t =>
    .leave () (h - w.bytes) (overlay t (h - w.bytes + 1) (h + 1) fun _ => 0)
  | .dup w => next fun h t =>
    if Data t (h - w.bytes) h then
      .leave () (h + w.bytes) (overlay t h (h + w.bytes) fun c => t (c - w.bytes))
    else .reject
  | .swap w => next fun h t =>
    if Data t (h - w.bytes) h ∧
        Data t (h - (2 * w.bytes + i.operand1 : Nat)) (h - (w.bytes + i.operand1 : Nat)) then
      .leave () h
        (overlay (overlay t (h - w.bytes) h fun c => t (c - (w.bytes + i.operand1 : Nat)))
          (h - (2 * w.bytes + i.operand1 : Nat)) (h - (w.bytes + i.operand1 : Nat))
          fun c => t (c + (w.bytes + i.operand1 : Nat)))
    else .reject
  | .enter => next fun h t => .leave () (h + 1) (Function.update t h Symbol.basePointer)
  | .alloc => next fun h t =>
    .leave () (h + i.operand1) (overlay t h (h + i.operand1) fun _ => 0)
  | .free => next fun h t =>
    .leave () (h - i.operand1) (overlay t (h - i.operand1) (h + 1) fun _ => 0)
  | .makeArgs => next fun h t =>
    if Data t (h - i.operand1) h then
      .leave () (h + 1) (overlay t (h - i.operand1) (h + 1) fun c =>
        if c = h - i.operand1 then Symbol.argPointer else t (c - 1))
    else .reject
  | .load f w => next (Reference.load w f.marker i.operand1)
  | .loadIndirect f w => next do
    let index ← Reference.popIndex i.operand2
    Reference.load w f.marker (i.operand1 + index)
  | .store f w => next (Reference.store w f.marker i.operand1)
  | .storeIndirect f w => next do
    let index ← Reference.popIndex i.operand2
    Reference.store w f.marker (i.operand1 + index)
  | .binary op w => next fun h t =>
    if Data t (h - (2 * w.bytes : Nat)) h then
      .leave () (h - w.bytes) (replaceTwo t h w.bytes (op.eval w.bytes
        (value t (h - (2 * w.bytes : Nat)) w.bytes) (value t (h - w.bytes) w.bytes)))
    else .reject
  | .indexShift => next fun h t =>
    if Data t (h - 4) h then
      .leave () h (overlay t (h - 4) h fun c =>
        Draft.byteAt (value t (h - 4) 4 * 2 ^ i.operand1 % 2 ^ 32) (c - (h - 4)).toNat)
    else .reject
  | .jump => pure (.goto i.target)
  | .jumpIfZero => do
    let zero ← Reference.popFlag
    return .goto (if zero then i.target else position + 1)
  | .jumpIfNonzero => do
    let zero ← Reference.popFlag
    return .goto (if zero then position + 1 else i.target)
  | .call => do
    Reference.call (p.callId position)
    return .goto i.target
  | .ret => do
    let id ← Reference.ret
    match p.returnAddresses[id]? with
    | some q => pure (.goto q)
    | none => fun _ _ => .reject
  | .setReturn w => next (Reference.setReturn w)
  | .accept => pure .accept
  | .reject => fun _ _ => .reject
where
  /-- Go on at the next position. -/
  next (a : Action Unit) : Action Exit := do
    a
    return .goto (position + 1)

/-! ## Programs -/

namespace Reference

/-- What the interpreter is at between two instructions. -/
structure State where
  position : Nat
  head : Int
  tape : Int → Nat

/-- The stack is empty, above the marker of the global variables. -/
def initial : State := ⟨0, 1, Function.update (fun _ => 0) 0 Symbol.globalPointer⟩

/-- One instruction of a program. -/
noncomputable def step (p : Program) (s : State) : Ending Exit :=
  match p[s.position]? with
  | some i => i.effect p s.position s.head s.tape
  | none => .reject

/-- The states that the run of a program passes. -/
inductive Reachable (p : Program) : State → Prop
  | initial : Reachable p initial
  | goto {s : State} {q : Nat} {h : Int} {t : Int → Nat} (hs : Reachable p s)
      (hstep : step p s = .leave (.goto q) h t) : Reachable p ⟨q, h, t⟩

/-- One instruction leads from the first state to the second. -/
def Steps (p : Program) (s s' : State) : Prop :=
  step p s = .leave (.goto s'.position) s'.head s'.tape

theorem reachable_iff {p : Program} {s : State} :
    Reachable p s ↔ Relation.ReflTransGen (Steps p) initial s := by
  constructor
  · intro h
    induction h with
    | initial => exact .refl
    | goto _ hstep ih => exact ih.tail hstep
  · intro h
    induction h with
    | refl => exact .initial
    | tail _ hstep ih => exact .goto ih hstep

/-- The run of a program ends in acceptance, with the given free cell and tape. -/
def Accepts (p : Program) (h : Int) (t : Int → Nat) : Prop :=
  ∃ s, Reachable p s ∧ step p s = .leave .accept h t

/-- The run of a program ends in rejection. -/
def Rejects (p : Program) : Prop := ∃ s, Reachable p s ∧ step p s = .reject

/-- The run of a program does not end: every instruction is followed by another one, or one of them
never ends. -/
def Diverges (p : Program) : Prop :=
  ∀ s, Reachable p s → (∃ q h t, step p s = .leave (.goto q) h t) ∨ step p s = .hang

end Reference

end StackTape
