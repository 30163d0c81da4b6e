import StackTape.Proofs.Outcome
import StackTape.Proofs.Session

/-!
# Constructions as sequences of operations

A gadget does nothing to a draft but hand out states and wire them (`DraftM.Scripted`), and it does
that by operations. So every compilation is a session (`exists_session`): its operations record the
instructions of the program one after the other, note its calls once, and ask for entry states of
positions of the program and of its end.
-/

namespace StackTape

/-- The draft that a construction leaves, at fault or not. -/
def DraftM.leave {α : Type} (x : DraftM α) (d : Draft) : Draft :=
  match x d with
  | .ok _ d' => d'
  | .error _ d' => d'

namespace Operation

/-- The name that an operation counts. -/
def name? : Operation → Option String
  | record name => some name
  | _ => none

/-- The number of call sites that an operation notes. -/
def noted? : Operation → Option Nat
  | noteCallSites count => some count
  | _ => none

/-- An operation that hands out states, entry states only to positions that may be asked for, or
wires them. -/
structure Wires (asked : Nat → Prop) (op : Operation) : Prop where
  name?_eq : op.name? = none
  noted?_eq : op.noted? = none
  asked : ∀ q, op = .entryAt q → asked q

end Operation

/-- The draft after operations, which go on after a fault. -/
def Draft.after (d : Draft) (ops : List Operation) : Draft :=
  ops.foldl (fun d op => op.perform.leave d) d

namespace Draft

theorem after_append (d : Draft) (ops ops' : List Operation) :
    d.after (ops ++ ops') = (d.after ops).after ops' := List.foldl_append

end Draft

namespace Session

/-- The names that operations count, in order. -/
def recorded (ops : List Operation) : List String := ops.filterMap Operation.name?

theorem recorded_append (ops ops' : List Operation) :
    recorded (ops ++ ops') = recorded ops ++ recorded ops' := List.filterMap_append

/-- The draft of a session is what its operations leave. -/
theorem draft_run (ops : List Operation) : (run ops).draft = Draft.initial.after ops := by
  induction ops using List.reverseRecOn with
  | nil => rfl
  | append_singleton ops op ih =>
    rw [run_concat, Draft.after_append, ← ih]
    change ((run ops).step op).draft = op.perform.leave (run ops).draft
    rw [step, DraftM.leave]
    cases op.perform (run ops).draft <;> rfl

end Session

/-! ## Constructions that hand out and wire states -/

namespace DraftM

variable {α β : Type} {x : DraftM α} {f : α → DraftM β} {d d' : Draft} {asked : Nat → Prop}

/-- What a construction does to a draft is done by operations that hand out states or wire them, and
it asks for no entry states but those of certain positions. -/
def Scripted (asked : Nat → Prop) (x : DraftM α) : Prop :=
  ∀ d, ∃ ops : List Operation, (∀ op ∈ ops, op.Wires asked) ∧ x.leave d = d.after ops

theorem leave_of_ok {a : α} (h : x d = .ok a d') : x.leave d = d' := by
  rw [leave, h]

theorem leave_bind_pure (x : DraftM α) (g : α → β) (d : Draft) :
    (x >>= fun a => pure (g a)).leave d = x.leave d := by
  rw [leave, leave, bind_apply]
  cases x d <;> rfl

namespace Scripted

theorem pure (a : α) : Scripted asked (Pure.pure a : DraftM α) :=
  fun _ => ⟨[], List.forall_mem_nil _, rfl⟩

theorem bind (hx : Scripted asked x) (hf : ∀ a, Scripted asked (f a)) :
    Scripted asked (x >>= f) := by
  intro d
  obtain ⟨ops, hops, hd⟩ := hx d
  cases h : x d with
  | ok a d' =>
    obtain ⟨ops', hops', hd'⟩ := hf a d'
    refine ⟨ops ++ ops', fun op hop => (List.mem_append.1 hop).elim (hops op) (hops' op), ?_⟩
    rw [Draft.after_append, ← hd, leave_of_ok h, ← hd', leave, bind_apply, h, leave]
  | error fault d' =>
    refine ⟨ops, hops, ?_⟩
    rw [← hd, leave, leave, bind_apply, h]

theorem of_perform (op : Operation) (hop : op.Wires asked)
    (h : ∀ d, op.perform.leave d = x.leave d) : Scripted asked x :=
  fun d => ⟨[op], fun _ hmem => List.mem_singleton.1 hmem ▸ hop, (h d).symm⟩

theorem forM {f : β → DraftM Unit} (h : ∀ b, Scripted asked (f b)) (l : List β) :
    Scripted asked (l.forM f) := by
  induction l with
  | nil => exact pure ()
  | cons b l ih => exact (h b).bind fun _ => ih

theorem mapM {f : β → DraftM α} (h : ∀ b, Scripted asked (f b)) (l : List β) :
    Scripted asked (l.mapM f) := by
  induction l with
  | nil => exact pure []
  | cons b l ih =>
    rw [List.mapM_cons]
    exact (h b).bind fun a => ih.bind fun as => pure (a :: as)

end Scripted

end DraftM

namespace Draft

open DraftM

variable {asked : Nat → Prop}

theorem fresh_scripted : Scripted asked fresh :=
  .of_perform .fresh ⟨rfl, rfl, nofun⟩ (leave_bind_pure fresh _)

theorem freshBlock_scripted (n : Nat) : Scripted asked (freshBlock n) :=
  .of_perform (.freshBlock n) ⟨rfl, rfl, nofun⟩ (leave_bind_pure (freshBlock n) _)

theorem entryAt_scripted {q : Nat} (hq : asked q) : Scripted asked (entryAt q) :=
  .of_perform (.entryAt q) ⟨rfl, rfl, fun _ h => Operation.entryAt.inj h ▸ hq⟩
    (leave_bind_pure (entryAt q) _)

theorem setFallback_scripted (s : Nat) (t : Transition) : Scripted asked (setFallback s t) :=
  .of_perform (.setFallback s t) ⟨rfl, rfl, nofun⟩ (leave_bind_pure (setFallback s t) _)

theorem leave_addRules_nil (s : Nat) (d : Draft) : (addRules s []).leave d = d := by
  rcases Nat.lt_or_ge s d.states.size with hlt | hle
  · rw [leave, addRules, rewire_apply hlt]
    simp only [List.append_nil]
    exact congrArg (fun states => { d with states }) (Array.set_getElem_self hlt)
  · rw [leave, addRules, rewire_apply_of_le hle]

theorem leave_addRules_cons (s : Nat) (t : Transition) (ts : List Transition) (d : Draft) :
    (addRules s (t :: ts)).leave d = (addRules s ts).leave ((addRules s [t]).leave d) := by
  rcases Nat.lt_or_ge s d.states.size with hlt | hle
  · simp [leave, addRules, rewire, hlt]
  · simp [leave, addRules, rewire_apply_of_le hle]

theorem addRules_scripted (s : Nat) (ts : List Transition) : Scripted asked (addRules s ts) := by
  intro d
  induction ts generalizing d with
  | nil => exact ⟨[], List.forall_mem_nil _, leave_addRules_nil s d⟩
  | cons t ts ih =>
    obtain ⟨ops, hops, hd⟩ := ih ((addRules s [t]).leave d)
    refine ⟨.addRule s t :: ops, List.forall_mem_cons.2 ⟨⟨rfl, rfl, nofun⟩, hops⟩, ?_⟩
    rw [leave_addRules_cons, hd]
    exact congrArg (after · ops) (leave_bind_pure (addRules s [t]) _ d).symm

theorem trail_scripted (t : Nat → Transition) (count s : Nat) :
    Scripted asked (trail t count s) := by
  induction count generalizing s with
  | zero => exact .pure s
  | succ count ih =>
    exact fresh_scripted.bind fun next => (setFallback_scripted s _).bind fun _ => ih next

theorem walk_scripted (move : Direction) (distance s : Nat) :
    Scripted asked (walk move distance s) :=
  trail_scripted _ distance s

theorem scan_scripted (move : Direction) (s : Nat) (found : Transition) :
    Scripted asked (scan move s found) :=
  (setFallback_scripted s _).bind fun _ => addRules_scripted s _

theorem chain_scripted {link : Nat → Nat → Nat → DraftM Unit}
    (h : ∀ i s next, Scripted asked (link i s next)) (count entry exit : Nat) :
    Scripted asked (chain count entry exit link) := by
  suffices hgo : ∀ remaining index s, Scripted asked (chain.go exit link remaining index s) from
    hgo count 0 entry
  intro remaining index s
  fun_induction chain.go exit link remaining index s with
  | case1 => exact .pure ()
  | case2 index s => exact h index s exit
  | case3 remaining index s ih =>
    exact fresh_scripted.bind fun next => (h index s next).bind fun _ => ih next

theorem branch_scripted {arm : Fin 256 → DraftM Transition} (h : ∀ b, Scripted asked (arm b))
    (s : Nat) : Scripted asked (branch s arm) :=
  (Scripted.mapM h allBytes).bind fun rules => addRules_scripted s rules

end Draft

/-! ## Gadgets -/

namespace Gadget

open Draft DraftM

variable {asked : Nat → Prop}

theorem push_scripted (w : Width) (value entry exit : Nat) :
    Scripted asked (push w value entry exit) :=
  chain_scripted (fun _ s _ => setFallback_scripted s _) w.bytes entry exit

theorem pop_scripted (w : Width) (entry exit : Nat) : Scripted asked (pop w entry exit) :=
  chain_scripted (fun _ s _ => setFallback_scripted s _) w.bytes entry exit

theorem copyByte_scripted (distance entry exit : Nat) :
    Scripted asked (copyByte distance entry exit) :=
  (walk_scripted _ _ entry).bind fun source => branch_scripted (fun _ =>
    fresh_scripted.bind fun carry => (walk_scripted _ _ carry).bind fun dest =>
      (setFallback_scripted dest _).bind fun _ => .pure _) source

theorem dup_scripted (w : Width) (entry exit : Nat) : Scripted asked (dup w entry exit) :=
  chain_scripted (fun _ s next => copyByte_scripted w.bytes s next) w.bytes entry exit

theorem exchangeByte_scripted (span entry exit : Nat) :
    Scripted asked (exchangeByte span entry exit) := by
  refine (freshBlock_scripted 256).bind fun back => ?_
  refine (branch_scripted (fun upper => ?_) entry).bind fun _ => .forM (fun lower => ?_) allBytes
  · exact fresh_scripted.bind fun carry => (walk_scripted _ _ carry).bind fun partner =>
      (addRules_scripted partner _).bind fun _ => .pure _
  · exact (walk_scripted _ _ _).bind fun cell => setFallback_scripted cell _

theorem swap_scripted (w : Width) (offset entry exit : Nat) :
    Scripted asked (swap w offset entry exit) :=
  (walk_scripted _ _ entry).bind fun lowest =>
    chain_scripted (fun _ s next => exchangeByte_scripted _ s next) w.bytes lowest exit

theorem alloc_scripted (cells entry exit : Nat) : Scripted asked (alloc cells entry exit) := by
  unfold alloc
  split
  · exact setFallback_scripted entry _
  · exact chain_scripted (fun _ s _ => setFallback_scripted s _) cells entry exit

theorem free_scripted (cells entry exit : Nat) : Scripted asked (free cells entry exit) :=
  (trail_scripted _ cells entry).bind fun last => setFallback_scripted last _

theorem shiftUp_scripted (exit cells : Nat) (carried : Block 256) :
    Scripted asked (shiftUp exit cells carried) := by
  induction cells generalizing carried with
  | zero => exact .forM (fun _ => setFallback_scripted _ _) allBytes
  | succ cells ih =>
    exact (freshBlock_scripted 256).bind fun next =>
      (Scripted.forM (fun _ => addRules_scripted _ _) allBytes).bind fun _ => ih next

theorem makeArgs_scripted (cells entry exit : Nat) :
    Scripted asked (makeArgs cells entry exit) := by
  cases cells with
  | zero => exact setFallback_scripted entry _
  | succ cells =>
    exact (walk_scripted _ _ entry).bind fun lowest => (freshBlock_scripted 256).bind fun carried =>
      (addRules_scripted lowest _).bind fun _ => shiftUp_scripted exit cells carried

theorem branchOnZero_scripted (entry onZero onNonzero : Nat) :
    Scripted asked (branchOnZero entry onZero onNonzero) :=
  fresh_scripted.bind fun condition => (setFallback_scripted entry _).bind fun _ =>
    addRules_scripted condition _

theorem combineColumn_scripted (distance : Nat) (column : Nat → Nat → Nat → Column)
    (sources : List (Nat × Nat)) (plain carry : Nat) :
    Scripted asked (combineColumn distance column sources plain carry) :=
  Scripted.forM (fun _ => Scripted.forM (fun source : Nat × Nat => fresh_scripted.bind fun split =>
    (addRules_scripted source.1 _).bind fun _ => (walk_scripted _ _ split).bind fun cell =>
      addRules_scripted cell _) sources) allBytes

theorem columns_scripted (distance : Nat) (column : Nat → Nat → Nat → Column) (exit : Nat)
    (remaining : Nat) (sources : List (Nat × Nat)) :
    Scripted asked (columns distance column exit remaining sources) := by
  fun_induction columns distance column exit remaining sources with
  | case1 => exact .pure ()
  | case2 sources => exact combineColumn_scripted distance column sources exit exit
  | case3 remaining sources ih =>
    refine fresh_scripted.bind fun plain => fresh_scripted.bind fun carry => ?_
    refine (combineColumn_scripted distance column sources plain carry).bind fun _ => ?_
    exact (walk_scripted _ _ plain).bind fun plain' => (walk_scripted _ _ carry).bind fun carry' =>
      ih plain' carry'

theorem carryChain_scripted (w : Width) (column : Nat → Nat → Nat → Column) (entry exit : Nat) :
    Scripted asked (carryChain w column entry exit) :=
  (walk_scripted _ _ entry).bind fun _ => columns_scripted _ _ _ _ _

theorem bitColumns_scripted (w : Width) (op : Nat → Nat → Nat) (exit remaining s : Nat) :
    Scripted asked (bitColumns w op exit remaining s) := by
  induction remaining generalizing s with
  | zero => exact .pure s
  | succ remaining ih =>
    unfold bitColumns
    extract_lets rest
    have hrest : ∀ merge, Scripted asked (rest merge) := by
      refine fun merge => (branch_scripted (fun top => ?_) s).bind fun _ =>
        (walk_scripted _ _ merge).bind ih
      exact fresh_scripted.bind fun split => (walk_scripted _ _ split).bind fun cell =>
        (addRules_scripted cell _).bind fun _ => .pure _
    split
    · exact (Scripted.pure exit).bind hrest
    · exact fresh_scripted.bind hrest

theorem bitwise_scripted (w : Width) (op : Nat → Nat → Nat) (entry exit : Nat) :
    Scripted asked (bitwise w op entry exit) := by
  refine fresh_scripted.bind fun top => (setFallback_scripted entry _).bind fun _ =>
    (bitColumns_scripted w op exit w.bytes top).bind fun last => ?_
  split
  · exact setFallback_scripted last _
  · exact .pure _

theorem binary_scripted (op : BinOp) (w : Width) (entry exit : Nat) :
    Scripted asked (binary op w entry exit) := by
  cases op with
  | add | sub => exact carryChain_scripted w _ entry exit
  | and | or | xor => exact bitwise_scripted w _ entry exit

theorem shiftColumns_scripted (amount exit remaining : Nat) (carried : Block 256) :
    Scripted asked (shiftColumns amount exit remaining carried) := by
  induction remaining generalizing carried with
  | zero => exact .forM (fun _ => addRules_scripted _ _) allBytes
  | succ remaining ih =>
    exact (freshBlock_scripted 256).bind fun next =>
      (Scripted.forM (fun _ => addRules_scripted _ _) allBytes).bind fun _ => ih next

theorem indexShift_scripted (amount entry exit : Nat) :
    Scripted asked (indexShift amount entry exit) :=
  (walk_scripted _ _ entry).bind fun lowest => (freshBlock_scripted 256).bind fun carried =>
    (addRules_scripted lowest _).bind fun _ => shiftColumns_scripted amount exit 2 carried

theorem fetchByte_scripted (marker distance entry exit : Nat) :
    Scripted asked (fetchByte marker distance entry exit) := by
  refine fresh_scripted.bind fun seek => (setFallback_scripted entry _).bind fun _ =>
    fresh_scripted.bind fun found => (scan_scripted _ seek _).bind fun _ =>
      (walk_scripted _ _ found).bind fun cell => branch_scripted (fun v => ?_) cell
  exact fresh_scripted.bind fun carry => (scan_scripted _ carry _).bind fun _ => .pure _

theorem load_scripted (w : Width) (marker offset entry exit : Nat) :
    Scripted asked (load w marker offset entry exit) :=
  chain_scripted (fun _ s next => fetchByte_scripted marker _ s next) w.bytes entry exit

theorem deliverByte_scripted (marker : Nat) (move : Direction) (distance entry exit : Nat) :
    Scripted asked (deliverByte marker move distance entry exit) := by
  refine fresh_scripted.bind fun top => (setFallback_scripted entry _).bind fun _ =>
    fresh_scripted.bind fun back => (branch_scripted (fun v => ?_) top).bind fun _ =>
      scan_scripted _ back _
  exact fresh_scripted.bind fun seek => fresh_scripted.bind fun found =>
    (scan_scripted _ seek _).bind fun _ => (walk_scripted _ _ found).bind fun cell =>
      (setFallback_scripted cell _).bind fun _ => .pure _

theorem store_scripted (w : Width) (marker offset entry exit : Nat) :
    Scripted asked (store w marker offset entry exit) :=
  chain_scripted (fun _ s next => deliverByte_scripted marker _ _ s next) w.bytes entry exit

theorem joinLevels_scripted {m n : Nat} (move : Direction) (parents : Block m)
    (children : Block n) : Scripted asked (joinLevels move parents children) :=
  .forM (fun _ => addRules_scripted _ _) _

theorem popIndex_scripted (bound entry : Nat) : Scripted asked (popIndex bound entry) := by
  refine fresh_scripted.bind fun top => (setFallback_scripted entry _).bind fun _ => ?_
  refine (freshBlock_scripted _).bind fun level3 => (freshBlock_scripted _).bind fun level2 =>
    (freshBlock_scripted _).bind fun level1 => (freshBlock_scripted _).bind fun leaves => ?_
  exact (addRules_scripted top _).bind fun _ => (joinLevels_scripted _ level3 level2).bind fun _ =>
    (joinLevels_scripted _ level2 level1).bind fun _ =>
      (joinLevels_scripted _ level1 leaves).bind fun _ => .pure leaves

theorem indirect_scripted {access : Nat → Nat → DraftM Unit}
    (h : ∀ index s, Scripted asked (access index s)) (bound entry : Nat) :
    Scripted asked (indirect bound access entry) :=
  (popIndex_scripted bound entry).bind fun leaves =>
    Scripted.forM (fun index : Fin bound => h index leaves[index]) _

theorem insertByte_scripted (inserted entry exit : Nat) :
    Scripted asked (insertByte inserted entry exit) :=
  fresh_scripted.bind fun seek => (setFallback_scripted entry _).bind fun _ =>
    fresh_scripted.bind fun shift => (scan_scripted _ seek _).bind fun _ =>
      (freshBlock_scripted 256).bind fun _ => (addRules_scripted shift _).bind fun _ =>
        .forM (fun _ => addRules_scripted _ _) allBytes

theorem call_scripted (id entry target : Nat) : Scripted asked (call id entry target) :=
  chain_scripted (fun _ s next => insertByte_scripted _ s next) 2 entry target

theorem resume_scripted {sites : CallSites} (hasked : ∀ a ∈ sites.addresses, asked a)
    (id v : Nat) : Scripted asked (do
      let address ← answer (sites.returnAddress id)
      return (⟨v, 0, .stay, ← entryAt address⟩ : Transition)) := by
  cases h : sites.returnAddress id with
  | error fault => exact fun d => ⟨[], List.forall_mem_nil _, rfl⟩
  | ok address =>
    have hmem := List.mem_of_getElem? (CallSites.returnAddress_eq_ok_iff.1 h)
    exact (entryAt_scripted (hasked address hmem)).bind fun _ => .pure _

theorem returnPage_scripted {sites : CallSites} (hasked : ∀ a ∈ sites.addresses, asked a)
    (high page : Nat) : Scripted asked (returnPage high sites page) :=
  fresh_scripted.bind fun low => (addRules_scripted high _).bind fun _ =>
    (Scripted.mapM (fun v => resume_scripted hasked _ v) _).bind
      fun rules => addRules_scripted low rules

theorem ret_scripted {sites : CallSites} (hasked : ∀ a ∈ sites.addresses, asked a) (entry : Nat) :
    Scripted asked (ret sites entry) := by
  refine fresh_scripted.bind fun high => (setFallback_scripted entry _).bind fun _ =>
    (addRules_scripted entry _).bind fun _ => ?_
  split
  · exact .forM (returnPage_scripted hasked high) _
  · exact .pure ()

theorem setReturn_scripted (w : Width) (entry exit : Nat) :
    Scripted asked (setReturn w entry exit) :=
  chain_scripted (fun _ s next => deliverByte_scripted _ _ _ s next) w.bytes entry exit

end Gadget

/-! ## Compilations -/

namespace Draft

open DraftM Gadget

variable {asked : Nat → Prop} {sites : CallSites} {position : Nat}

/-- An instruction asks for its own entry state and for those of its successors. -/
theorem emit_scripted {i : Instruction} (hposition : asked position)
    (hasked : ∀ q ∈ i.successors sites position, asked q) :
    Scripted asked (emit sites position i) := by
  refine (entryAt_scripted hposition).bind fun entry => ?_
  have hgoto : ∀ {x : Nat → DraftM Unit} {q : Nat}, q ∈ i.successors sites position →
      (∀ next, Scripted asked (x next)) → Scripted asked (do x (← entryAt q)) :=
    fun hq hx => (entryAt_scripted (hasked _ hq)).bind hx
  obtain ⟨opcode, operand1, operand2, target⟩ := i
  have hnext := fun {x} => hgoto (x := x) (q := position + 1)
  have hjump := fun {x} => hgoto (x := x) (q := target)
  cases opcode with
  | push w => exact hnext List.mem_cons_self (push_scripted w operand1 entry)
  | pop w => exact hnext List.mem_cons_self (pop_scripted w entry)
  | dup w => exact hnext List.mem_cons_self (dup_scripted w entry)
  | swap w => exact hnext List.mem_cons_self (swap_scripted w operand1 entry)
  | enter => exact hnext List.mem_cons_self fun _ => setFallback_scripted entry _
  | alloc => exact hnext List.mem_cons_self (alloc_scripted operand1 entry)
  | free => exact hnext List.mem_cons_self (free_scripted operand1 entry)
  | load f w => exact hnext List.mem_cons_self (load_scripted w f.marker operand1 entry)
  | loadIndirect f w =>
    exact hnext List.mem_cons_self fun next =>
      indirect_scripted (fun _ s => load_scripted w _ _ s next) _ entry
  | store f w => exact hnext List.mem_cons_self (store_scripted w f.marker operand1 entry)
  | storeIndirect f w =>
    exact hnext List.mem_cons_self fun next =>
      indirect_scripted (fun _ s => store_scripted w _ _ s next) _ entry
  | makeArgs => exact hnext List.mem_cons_self (makeArgs_scripted operand1 entry)
  | binary op w => exact hnext List.mem_cons_self (binary_scripted op w entry)
  | indexShift => exact hnext List.mem_cons_self (indexShift_scripted operand1 entry)
  | setReturn w => exact hnext List.mem_cons_self (setReturn_scripted w entry)
  | jump => exact hjump List.mem_cons_self fun _ => setFallback_scripted entry _
  | call => exact hjump List.mem_cons_self (call_scripted _ entry)
  | jumpIfZero =>
    exact hnext List.mem_cons_self fun next => hjump (List.mem_cons_of_mem _ List.mem_cons_self)
      fun onZero => branchOnZero_scripted entry onZero next
  | jumpIfNonzero =>
    exact hnext List.mem_cons_self fun next => hjump (List.mem_cons_of_mem _ List.mem_cons_self)
      (branchOnZero_scripted entry next)
  | ret => exact ret_scripted hasked entry
  | accept | reject => exact setFallback_scripted entry _

/-- Instructions that are emitted without fault are recorded in order. -/
theorem exists_after_emitFrom (asked : Nat → Prop) {p : Program} {d d' : Draft}
    (hasked : ∀ j i, p[j]? = some i →
      asked (position + j) ∧ ∀ q ∈ i.successors sites (position + j), asked q)
    (h : emitFrom sites position p d = .ok () d') :
    ∃ ops : List Operation, d' = d.after ops ∧ ops.filterMap Operation.noted? = [] ∧
      Session.recorded ops = (p.map fun i => i.opcode.mnemonic) ∧
        ∀ q, .entryAt q ∈ ops → asked q := by
  induction p generalizing d position with
  | nil =>
    cases h
    exact ⟨[], rfl, rfl, rfl, fun q hq => absurd hq List.not_mem_nil⟩
  | cons i p ih =>
    obtain ⟨hposition, hsuccessors⟩ := hasked 0 i rfl
    obtain ⟨ops, hops, hd⟩ := emit_scripted hposition hsuccessors d
    rw [emitFrom, bind_apply] at h
    cases hi : emit sites position i d with
    | error fault d₁ =>
      rw [hi] at h
      cases h
    | ok u d₁ =>
      rw [hi] at h
      have hrest : ∀ j i', p[j]? = some i' → asked (position + 1 + j) ∧
          ∀ q ∈ i'.successors sites (position + 1 + j), asked q := by
        intro j i' hj
        rw [Nat.add_assoc, Nat.add_comm 1 j]
        exact hasked (j + 1) i' hj
      obtain ⟨ops', rfl, hnoted, hnames, hasked'⟩ := ih hrest h
      rw [Nat.add_zero, leave_of_ok hi] at hd
      have hnone : ∀ {β : Type} (f : Operation → Option β), (∀ op ∈ ops, f op = none) →
          ops.filterMap f = [] := fun f hf => List.filterMap_eq_nil_iff.2 hf
      refine ⟨ops ++ .record i.opcode.mnemonic :: ops', ?_, ?_, ?_, fun q hq => ?_⟩
      · rw [after_append, ← hd]
        rfl
      · rw [List.filterMap_append, hnone _ fun op hop => (hops op hop).noted?_eq, List.nil_append]
        exact hnoted
      · rw [Session.recorded_append, Session.recorded, hnone _ fun op hop => (hops op hop).name?_eq,
          List.nil_append, List.map_cons, ← hnames]
        rfl
      · rcases List.mem_append.1 hq with hq | hq
        · exact (hops _ hq).asked q rfl
        · refine hasked' q ((List.mem_cons.1 hq).resolve_left fun heq => ?_)
          cases heq

end Draft

/-- What a compilation is made of: the draft of its program. -/
theorem exists_build_of_compile {o : Options} {p : Program} {c : Compilation}
    (h : compile o p = .ok c) : p.violation? o = none ∧
      ∃ sites start, CallSites.ofProgram? p = some sites ∧
        Draft.build sites p (Draft.forSites sites) =
          .ok start ⟨c.machine.states, c.entries, c.stats⟩ := by
  unfold compile at h
  split at h
  · cases h
  next sites hs =>
    unfold compileWith at h
    split at h
    · cases h
    next hv =>
      split at h
      next start d hd =>
        cases h
        exact ⟨hv, sites, start, hs, hd⟩
      · cases h

/-- The successors of an instruction that keeps the contract of its operands are positions of the
program or its end. -/
theorem Program.le_length_of_mem_successors {o : Options} {p : Program} {sites : CallSites}
    {i : Instruction} {j q : Nat} (hs : CallSites.ofProgram? p = some sites)
    (hv : p.violation? o = none) (hi : p[j]? = some i) (hq : q ∈ i.successors sites j) :
    q ≤ p.length := by
  have hnext : j + 1 ≤ p.length := (List.getElem?_eq_some_iff.1 hi).1
  have hjump : i.opcode ∈ [.jump, .jumpIfZero, .jumpIfNonzero, .call] → i.target ≤ p.length :=
    fun hop => Nat.not_lt.1 fun hbeyond =>
      Program.violation?_eq_none_iff.1 hv j i _ hi (.target hop hbeyond)
  unfold Instruction.successors at hq
  cases hop : i.opcode with
  | ret =>
    rw [hop, CallSites.addresses_eq hs] at hq
    exact (Program.mem_returnAddresses hq).2
  | jump | call =>
    simp only [hop, List.mem_singleton] at hq
    exact hq ▸ hjump (by simp [hop])
  | jumpIfZero | jumpIfNonzero =>
    simp only [hop, List.mem_cons, List.not_mem_nil, or_false] at hq
    rcases hq with rfl | rfl
    · exact hnext
    · exact hjump (by simp [hop])
  | accept | reject => simp [hop] at hq
  | _ =>
    simp only [hop, List.mem_singleton] at hq
    exact hq ▸ hnext

/-- Every compilation is a session, which records the instructions of the program in order, notes
its calls once, and asks for entry states of positions of the program and of its end. -/
theorem exists_session {o : Options} {p : Program} {c : Compilation} (h : compile o p = .ok c) :
    ∃ ops : List Operation, (Session.run ops).draft = ⟨c.machine.states, c.entries, c.stats⟩ ∧
      ops.filterMap Operation.noted? = [p.callCount] ∧
        Session.recorded ops = (p.map fun i => i.opcode.mnemonic) ∧
          ∀ q, .entryAt q ∈ ops → q ≤ p.length := by
  obtain ⟨hv, sites, start, hs, hbuild⟩ := exists_build_of_compile h
  have hcount : sites.count = p.callCount := by
    rw [CallSites.count, CallSites.addresses_eq hs, Program.length_returnAddresses]
  obtain ⟨opening, hopened, hnoted₀, hnames₀, hasked₀⟩ : ∃ opening : List Operation,
      Draft.opened sites = Draft.initial.after opening ∧
        opening.filterMap Operation.noted? = [sites.count] ∧
          Session.recorded opening = [] ∧ ∀ q, .entryAt q ∈ opening → q ≤ p.length := by
    refine ⟨[.noteCallSites sites.count, .fresh, .entryAt 0,
      .setFallback 2 (.write Symbol.globalPointer .right 3)], rfl, rfl, rfl, fun q hq => ?_⟩
    obtain rfl : q = 0 := by simpa using hq
    exact Nat.zero_le _
  have hasked : ∀ j i, p[j]? = some i →
      0 + j ≤ p.length ∧ ∀ q ∈ i.successors sites (0 + j), q ≤ p.length := by
    intro j i hi
    rw [Nat.zero_add]
    exact ⟨(List.getElem?_eq_some_iff.1 hi).1.le,
      fun q => Program.le_length_of_mem_successors hs hv hi⟩
  rw [Draft.build_apply, DraftM.bind_apply] at hbuild
  split at hbuild
  next u d hd =>
    cases hbuild
    obtain ⟨ops, hops, hnoted, hnames, hasked⟩ :=
      Draft.exists_after_emitFrom (· ≤ p.length) hasked hd
    refine ⟨opening ++ ops, ?_, ?_, ?_, fun q hq => ?_⟩
    · rw [Session.draft_run, hops, hopened, Draft.after_append]
    · rw [List.filterMap_append, hnoted₀, hnoted, hcount, List.append_nil]
    · rw [Session.recorded_append, hnames₀, hnames, List.nil_append]
    · exact (List.mem_append.1 hq).elim (hasked₀ q) (hasked q)
  · cases hbuild

/-- No position behind the end of a compiled program has an entry state. -/
theorem le_length_of_entry {o : Options} {p : Program} {c : Compilation} (h : compile o p = .ok c)
    {q id : Nat} (hq : c.entries[q]? = some id) : q ≤ p.length := by
  obtain ⟨ops, hdraft, -, -, hasked⟩ := exists_session h
  refine hasked q ?_
  have hmem : q ∈ (Session.run ops).log.asked :=
    (Session.run_tracks ops).asked_iff.2 ⟨id, by rw [hdraft]; exact hq⟩
  obtain ⟨⟨op, answer⟩, hlog, hop⟩ := List.mem_filterMap.1 hmem
  rw [← Session.map_fst_log ops]
  cases op <;> cases hop
  exact List.mem_map_of_mem hlog

end StackTape
