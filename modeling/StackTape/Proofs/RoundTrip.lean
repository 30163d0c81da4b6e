import StackTape.Machine.Binary
import StackTape.Proofs.WellFormed

/-!
# Reading undoes writing

The binary form of a machine is described once more, as a list of bytes without any buffer
(`Machine.bytes`). `Machine.encode` writes these bytes, and a reader that `Takes` them gives back
what they stand for and stops behind them, whatever follows. All numbers of the machine have to be
64-bit words (`Machine.Fits`); the inputs of fallbacks, which are not stored, come back as
wildcards.
-/

namespace StackTape

/-! ## Bytes -/

/-- A number that a 64-bit word can hold. -/
def IsWord (n : Nat) : Prop := n ≤ Symbol.wildcard

instance (n : Nat) : Decidable (IsWord n) := inferInstanceAs (Decidable (n ≤ _))

/-- The `width` low bytes of a number, least significant first. -/
def littleEndian : (width n : Nat) → List UInt8
  | 0, _ => []
  | width + 1, n => n.toUInt8 :: littleEndian width (n / 256)

@[simp]
theorem length_littleEndian (width n : Nat) : (littleEndian width n).length = width := by
  induction width generalizing n with
  | zero => rfl
  | succ width ih => rw [littleEndian, List.length_cons, ih]

/-- Output, direction and target of a transition. -/
def Transition.actionBytes (t : Transition) : List UInt8 :=
  littleEndian 8 t.output ++ ([t.move.code] ++ littleEndian 8 t.next)

/-- An explicit transition. -/
def Transition.bytes (t : Transition) : List UInt8 :=
  littleEndian 8 t.input ++ t.actionBytes

/-- The record of the state with index `id`. -/
def State.bytes (id : Nat) (s : State) : List UInt8 :=
  littleEndian 8 id ++ (littleEndian 8 s.rules.length ++
    (s.fallback.actionBytes ++ s.rules.flatMap Transition.bytes))

/-- The records of states of which the first has the given index. -/
def State.records : (id : Nat) → List State → List UInt8
  | _, [] => []
  | id, s :: rest => s.bytes id ++ records (id + 1) rest

/-- A whole machine. -/
def Machine.bytes (m : Machine) : List UInt8 :=
  littleEndian 8 m.start ++ (littleEndian 8 m.accept ++ (littleEndian 8 m.reject ++
    (littleEndian 8 m.states.size ++ State.records 0 m.states.toList)))

/-! ## Writing -/

section Writing

variable (out : ByteArray)

theorem toList_putBytes (width n : Nat) :
    (putBytes out width n).data.toList = out.data.toList ++ littleEndian width n := by
  induction width generalizing out n with
  | zero => rw [putBytes, littleEndian, List.append_nil]
  | succ width ih =>
    rw [putBytes, ih, littleEndian, ByteArray.data_push, Array.toList_push, List.append_assoc]
    rfl

theorem toList_putWord (n : Nat) :
    (putWord out n).data.toList = out.data.toList ++ littleEndian 8 n :=
  toList_putBytes out 8 n

theorem toList_putAction (t : Transition) :
    (Transition.putAction out t).data.toList = out.data.toList ++ t.actionBytes := by
  rw [Transition.putAction, toList_putWord, ByteArray.data_push, Array.toList_push,
    toList_putWord, Transition.actionBytes]
  simp only [List.append_assoc]

theorem toList_putRules (rules : List Transition) :
    (rules.foldl Transition.put out).data.toList =
      out.data.toList ++ rules.flatMap Transition.bytes := by
  induction rules generalizing out with
  | nil => simp
  | cons r rules ih =>
    rw [List.foldl_cons, ih, Transition.put, toList_putAction, toList_putWord,
      List.flatMap_cons, Transition.bytes]
    simp only [List.append_assoc]

theorem toList_putState (id : Nat) (s : State) :
    (State.put out id s).data.toList = out.data.toList ++ s.bytes id := by
  rw [State.put, toList_putRules, toList_putAction, toList_putWord, toList_putWord, State.bytes]
  simp only [List.append_assoc]

theorem toList_putStates (id : Nat) (states : List State) :
    ((states.zipIdx id).foldl (fun out (s, id) => s.put out id) out).data.toList =
      out.data.toList ++ State.records id states := by
  induction states generalizing out id with
  | nil => simp [State.records]
  | cons s states ih =>
    rw [List.zipIdx_cons, List.foldl_cons, ih, toList_putState, State.records, List.append_assoc]

end Writing

theorem Machine.toList_encode (m : Machine) : m.encode.data.toList = m.bytes := by
  rw [Machine.encode, toList_putStates, Machine.bytes]
  simp only [toList_putWord, List.append_assoc]
  rfl

/-! ## Reading -/

namespace Reader

variable {α β : Type}

@[simp]
theorem pure_apply (a : α) (bytes : ByteArray) (position : Nat) :
    (pure a : Reader α) bytes position = .ok a position := rfl

theorem bind_apply (x : Reader α) (f : α → Reader β) (bytes : ByteArray) (position : Nat) :
    (x >>= f) bytes position =
      match x bytes position with
      | .ok a position' => f a bytes position'
      | .error e position' => .error e position' := by
  change EStateM.bind (x bytes) (fun a => f a bytes) position = _
  unfold EStateM.bind
  cases x bytes position <;> rfl

/-- Wherever the bytes stand in a sequence, the reader takes exactly them and gives the value. -/
def Takes (x : Reader α) (taken : List UInt8) (a : α) : Prop :=
  ∀ (bytes : ByteArray) (before after : List UInt8),
    bytes.data.toList = before ++ (taken ++ after) →
      x bytes before.length = .ok a (before.length + taken.length)

theorem Takes.pure (a : α) : Takes (Pure.pure a) [] a :=
  fun _ _ _ _ => rfl

theorem Takes.bind {x : Reader α} {f : α → Reader β} {taken taken' : List UInt8} {a : α} {b : β}
    (hx : Takes x taken a) (hf : Takes (f a) taken' b) : Takes (x >>= f) (taken ++ taken') b := by
  intro bytes before after h
  rw [List.append_assoc] at h
  have hrest := hf bytes (before ++ taken) after (by rw [h, List.append_assoc])
  rw [List.length_append] at hrest
  rw [bind_apply, hx bytes before (taken' ++ after) h, List.length_append, ← Nat.add_assoc]
  exact hrest

/-- A reader whose value is only wrapped up. -/
theorem Takes.map {x : Reader α} {taken : List UInt8} {a : α} (hx : Takes x taken a) (f : α → β) :
    Takes (do return f (← x)) taken (f a) := by
  have h := hx.bind (f := fun a => Pure.pure (f a)) (Takes.pure (f a))
  rwa [List.append_nil] at h

theorem byte_takes (b : UInt8) : Takes byte [b] b := by
  intro bytes before after h
  have hlt : before.length < bytes.size := by
    have hlen := congrArg List.length h
    simp only [Array.length_toList, List.length_append, List.length_cons] at hlen
    change before.length < bytes.data.size
    omega
  have hget : bytes[before.length] = b := by
    change bytes.data[before.length] = b
    rw [← Array.getElem_toList]
    simp [h]
  rw [byte, dif_pos hlt, hget]
  rfl

theorem number_takes {width n : Nat} (hn : n < 256 ^ width) :
    Takes (number width) (littleEndian width n) n := by
  induction width generalizing n with
  | zero =>
    obtain rfl : n = 0 := by simpa using hn
    exact .pure 0
  | succ width ih =>
    have hhigh : n / 256 < 256 ^ width := by
      rw [Nat.div_lt_iff_lt_mul (by decide)]
      rwa [pow_succ] at hn
    have hvalue : n.toUInt8.toNat + 256 * (n / 256) = n := by
      rw [Nat.toUInt8, UInt8.toNat_ofNat']
      omega
    have hrest := (ih hhigh).map fun high => n.toUInt8.toNat + 256 * high
    rw [hvalue] at hrest
    exact Takes.bind (f := fun low : UInt8 => do return low.toNat + 256 * (← number width))
      (byte_takes n.toUInt8) hrest

theorem word_takes {n : Nat} (hn : IsWord n) : Takes word (littleEndian 8 n) n := by
  refine number_takes ?_
  rw [IsWord, Symbol.wildcard] at hn
  omega

theorem direction_takes (d : Direction) : Takes direction [d.code] d := by
  change Takes direction ([d.code] ++ []) d
  refine Takes.bind (byte_takes d.code) ?_
  rw [Direction.ofCode?_code]
  exact .pure d

theorem action_takes {t : Transition} (ho : IsWord t.output) (hn : IsWord t.next) (input : Nat) :
    Takes (action input) t.actionBytes { t with input } :=
  (word_takes ho).bind ((direction_takes t.move).bind ((word_takes hn).map _))

end Reader

/-! ## Machines of words -/

/-- A transition whose numbers are words. -/
structure Transition.Fits (t : Transition) : Prop where
  input : IsWord t.input
  output : IsWord t.output
  next : IsWord t.next

/-- A state whose numbers are words, the number of its explicit transitions among them. -/
structure State.Fits (s : State) : Prop where
  count : IsWord s.rules.length
  rules : ∀ r ∈ s.rules, r.Fits
  fallback : s.fallback.Fits

/-- A machine whose numbers are words, the number of its states among them. -/
structure Machine.Fits (m : Machine) : Prop where
  start : IsWord m.start
  accept : IsWord m.accept
  reject : IsWord m.reject
  count : IsWord m.states.size
  states : ∀ s ∈ m.states, s.Fits

/-- The state as it is read back. -/
def State.stored (s : State) : State :=
  { s with fallback := { s.fallback with input := Symbol.wildcard } }

/-- The machine as it is read back: the inputs of fallbacks are not stored. -/
def Machine.stored (m : Machine) : Machine :=
  { m with states := m.states.map State.stored }

namespace Reader

theorem transition_takes {t : Transition} (ht : t.Fits) : Takes transition t.bytes t :=
  (word_takes ht.input).bind (action_takes ht.output ht.next t.input)

theorem rulesFrom_takes {rules : List Transition} (hr : ∀ r ∈ rules, r.Fits)
    (taken : Array Transition) :
    Takes (state.rulesFrom taken rules.length) (rules.flatMap Transition.bytes)
      (taken ++ rules.toArray) := by
  induction rules generalizing taken with
  | nil =>
    rw [Array.append_empty]
    exact .pure taken
  | cons r rules ih =>
    have hrest := ih (fun r' h => hr r' (List.mem_cons_of_mem _ h)) (taken.push r)
    have hpush : taken.push r ++ rules.toArray = taken ++ (r :: rules).toArray := by simp
    rw [hpush] at hrest
    exact (transition_takes (hr r List.mem_cons_self)).bind hrest

theorem state_takes {id : Nat} {s : State} (hid : IsWord id) (hs : s.Fits) :
    Takes (state id) (s.bytes id) s.stored := by
  have hrules := rulesFrom_takes hs.rules #[]
  rw [Array.empty_append] at hrules
  refine (word_takes hid).bind ?_
  rw [if_neg (not_not.2 rfl)]
  exact (word_takes hs.count).bind
    ((action_takes hs.fallback.output hs.fallback.next _).bind (hrules.map _))

theorem statesFrom_takes {states : List State} (hs : ∀ s ∈ states, s.Fits) (taken : Array State)
    (hcount : IsWord (taken.size + states.length)) :
    Takes (statesFrom taken states.length) (State.records taken.size states)
      (taken ++ (states.map State.stored).toArray) := by
  induction states generalizing taken with
  | nil =>
    rw [List.map_nil, Array.append_empty]
    exact .pure taken
  | cons s states ih =>
    rw [List.length_cons] at hcount
    have hid : IsWord taken.size := Nat.le_trans (Nat.le_add_right _ _) hcount
    have hrest := ih (fun s' h => hs s' (List.mem_cons_of_mem _ h)) (taken.push s.stored)
      (by rwa [Array.size_push, Nat.add_assoc, Nat.add_comm 1])
    have hpush : taken.push s.stored ++ (states.map State.stored).toArray =
        taken ++ ((s :: states).map State.stored).toArray := by simp
    rw [hpush, Array.size_push] at hrest
    exact (state_takes hid (hs s List.mem_cons_self)).bind hrest

theorem machine_takes {m : Machine} (hm : m.Fits) : Takes machine m.bytes m.stored := by
  have hfits : ∀ s ∈ m.states.toList, s.Fits := fun s h => hm.states s (Array.mem_toList_iff.1 h)
  have hstates := statesFrom_takes hfits #[] (by simpa using hm.count)
  rw [Array.empty_append, Array.length_toList] at hstates
  rw [← Array.toList_map] at hstates
  exact (word_takes hm.start).bind ((word_takes hm.accept).bind ((word_takes hm.reject).bind
    ((word_takes hm.count).bind (hstates.map _))))

end Reader

/-! ## The length of the binary form -/

theorem Transition.length_actionBytes (t : Transition) : t.actionBytes.length = 17 := by
  simp [actionBytes]

theorem State.length_bytes (id : Nat) (s : State) :
    (s.bytes id).length = 33 + 25 * s.rules.length := by
  have hrules : (s.rules.flatMap Transition.bytes).length = 25 * s.rules.length := by
    simp [List.length_flatMap, Transition.bytes, Transition.length_actionBytes, Nat.mul_comm]
  simp only [bytes, List.length_append, length_littleEndian, Transition.length_actionBytes, hrules]
  omega

theorem State.length_records (id : Nat) (states : List State) :
    (records id states).length =
      33 * states.length + 25 * (states.map (·.rules.length)).sum := by
  induction states generalizing id with
  | nil => rfl
  | cons s states ih =>
    simp only [records, List.length_append, length_bytes, ih, List.length_cons, List.map_cons,
      List.sum_cons]
    omega

theorem Machine.transitionCount_eq (m : Machine) :
    m.transitionCount = (m.states.toList.map (·.rules.length)).sum := by
  rw [transitionCount, ← Array.foldl_toList, List.sum_eq_foldl, List.foldl_map]

theorem Machine.length_bytes (m : Machine) :
    m.bytes.length = 32 + 33 * m.states.size + 25 * m.transitionCount := by
  simp only [bytes, List.length_append, length_littleEndian, State.length_records,
    Array.length_toList, transitionCount_eq]
  omega

/-! ## Whole machines -/

theorem Machine.decode_stored {m : Machine} (hm : m.Fits) (rest : ByteArray) :
    Machine.decode (m.encode ++ rest) =
      .ok (m.stored, 32 + 33 * m.states.size + 25 * m.transitionCount) := by
  have hbytes : (m.encode ++ rest).data.toList = [] ++ (m.bytes ++ rest.data.toList) := by
    rw [ByteArray.data_append, Array.toList_append, toList_encode, List.nil_append]
  have hread := Reader.machine_takes hm _ _ _ hbytes
  rw [List.length_nil, Nat.zero_add, length_bytes] at hread
  rw [decode, hread]

theorem State.stored_eq_iff (s : State) : s.stored = s ↔ s.fallback.input = Symbol.wildcard := by
  obtain ⟨rules, input, output, move, next⟩ := s
  simp [stored, eq_comm]

theorem Machine.stored_eq_iff (m : Machine) :
    m.stored = m ↔ ∀ s ∈ m.states, s.fallback.input = Symbol.wildcard := by
  have hstates : m.stored = m ↔ m.states.map State.stored = m.states.map id := by
    obtain ⟨start, accept, reject, states⟩ := m
    simp [stored]
  rw [hstates, Array.map_inj_left]
  exact forall₂_congr fun s _ => s.stored_eq_iff

theorem Symbol.Writable.isWord {v : Nat} (hv : Symbol.Writable v) : IsWord v := by
  rcases hv with hle | rfl
  · exact Nat.le_trans hle (by decide)
  · exact Nat.le_refl _

/-- A well-formed machine fits words if its states can be counted by a word. -/
theorem Machine.WellFormed.fits {m : Machine} (hm : m.WellFormed) (hcount : IsWord m.states.size) :
    m.Fits := by
  have hlt : ∀ {id : Nat}, id < m.states.size → IsWord id := fun h =>
    Nat.le_trans (Nat.le_of_lt h) hcount
  refine ⟨hlt hm.start_lt, ?_, ?_, hcount, fun s hs => ?_⟩
  · rw [hm.accept_eq]
    exact Nat.zero_le _
  · rw [hm.reject_eq]
    exact (by decide : IsWord Sink.reject)
  · obtain ⟨id, hid, rfl⟩ := Array.mem_iff_getElem.1 hs
    have hwf := hm.state id _ (Array.getElem?_eq_getElem hid)
    refine ⟨?_, fun r hr => ⟨?_, (hwf.output r hr).isWord, hlt (hwf.leads r hr).1⟩, ?_⟩
    · -- the inputs are different symbols of the tape alphabet
      have hsub : m.states[id].rules.map (·.input) ⊆ List.range (Symbol.globalPointer + 1) := by
        intro v hv
        obtain ⟨r, hr, rfl⟩ := List.mem_map.1 hv
        exact List.mem_range.2 (Nat.lt_succ_of_le (hwf.input r hr))
      have hlen := (List.subperm_of_subset hwf.distinct hsub).length_le
      rw [List.length_map, List.length_range] at hlen
      exact Nat.le_trans hlen (by decide)
    · exact Nat.le_trans (hwf.input r hr) (by decide)
    · refine ⟨?_, hwf.fallback_output.isWord, hlt hwf.fallback_leads.1⟩
      rw [hwf.fallback_input]
      exact Nat.le_refl _

/-- A compiled machine loses nothing in its binary form. -/
theorem Machine.WellFormed.stored_eq {m : Machine} (hm : m.WellFormed) : m.stored = m := by
  rw [Machine.stored_eq_iff]
  intro s hs
  obtain ⟨id, hid, rfl⟩ := Array.mem_iff_getElem.1 hs
  exact (hm.state id _ (Array.getElem?_eq_getElem hid)).fallback_input

/-- Reading undoes writing. From the binary form of a machine of words, whatever follows it, the
machine is read back up to the inputs of its fallbacks, and the bytes that are taken are those that
were written: 32 for the machine, 33 for each state and 25 for each explicit transition. So a
machine comes back as it was if and only if the fallbacks have the wildcard for their input. That is
so for every compiled machine, and its numbers are words if the number of its states is one. -/
theorem decode_encode_append :
    (∀ (m : Machine) (rest : ByteArray), m.Fits →
      Machine.decode (m.encode ++ rest) =
        .ok (m.stored, 32 + 33 * m.states.size + 25 * m.transitionCount) ∧
      m.encode.size = 32 + 33 * m.states.size + 25 * m.transitionCount ∧
      ((∃ n, Machine.decode (m.encode ++ rest) = .ok (m, n)) ↔
        ∀ s ∈ m.states, s.fallback.input = Symbol.wildcard)) ∧
    ∀ (o : Options) (p : Program) (c : Compilation) (rest : ByteArray), compile o p = .ok c →
      IsWord c.machine.states.size →
      Machine.decode (c.machine.encode ++ rest) =
        .ok (c.machine, 32 + 33 * c.machine.states.size + 25 * c.machine.transitionCount) := by
  refine ⟨fun m rest hm => ⟨Machine.decode_stored hm rest, ?_, ?_⟩, fun o p c rest hc hcount => ?_⟩
  · rw [← Machine.length_bytes, ← Machine.toList_encode]
    rfl
  · rw [Machine.decode_stored hm rest, ← m.stored_eq_iff]
    constructor
    · rintro ⟨n, h⟩
      exact congrArg Prod.fst (Except.ok.inj h)
    · intro h
      exact ⟨_, by rw [h]⟩
  · obtain ⟨-, sites, σ, hf⟩ := exists_finishes hc
    have hm := hf.wellFormed
    have hread := Machine.decode_stored (hm.fits hcount) rest
    rwa [hm.stored_eq] at hread

theorem decoded_with_rest :
    (∃ c, compile {} [⟨.push .w16, 258, 0, 0⟩, ⟨.pop .w8, 0, 0, 0⟩, ⟨.accept, 0, 0, 0⟩] = .ok c ∧
      c.machine.states.size = 7 ∧ Machine.decode (c.machine.encode ++ ⟨#[255]⟩) =
        .ok (c.machine, 32 + 33 * c.machine.states.size + 25 * c.machine.transitionCount)) ∧
    Machine.decode (Machine.encode ⟨0, 0, 1, #[⟨[⟨3, 4, .left, 1⟩], ⟨7, 8, .stay, 0⟩⟩]⟩ ++
      ⟨#[255]⟩) =
      .ok (⟨0, 0, 1, #[⟨[⟨3, 4, .left, 1⟩], ⟨Symbol.wildcard, 8, .stay, 0⟩⟩]⟩, 90) := by
  refine ⟨?_, ?_⟩
  · have hsites : CallSites.ofProgram? [⟨.push .w16, 258, 0, 0⟩, ⟨.pop .w8, 0, 0, 0⟩,
        ⟨.accept, 0, 0, 0⟩] = some ⟨[]⟩ := rfl
    obtain ⟨c, hc⟩ := exists_compile (o := {}) hsites (by decide)
    have hsize : (compile {} [⟨.push .w16, 258, 0, 0⟩, ⟨.pop .w8, 0, 0, 0⟩,
        ⟨.accept, 0, 0, 0⟩]).map (fun c => c.machine.states.size) = .ok 7 := by decide +kernel
    rw [hc] at hsize
    have hseven : c.machine.states.size = 7 := Except.ok.inj hsize
    have hword : IsWord c.machine.states.size := by
      rw [hseven]
      decide
    exact ⟨c, hc, hseven, decode_encode_append.2 _ _ c _ hc hword⟩
  · have hfits : Machine.Fits ⟨0, 0, 1, #[⟨[⟨3, 4, .left, 1⟩], ⟨7, 8, .stay, 0⟩⟩]⟩ := by
      refine ⟨by decide, by decide, by decide, by decide, fun s hs => ?_⟩
      obtain rfl := Array.mem_singleton.1 hs
      refine ⟨by decide, fun r hr => ?_, by decide, by decide, by decide⟩
      obtain rfl := List.mem_singleton.1 hr
      exact ⟨by decide, by decide, by decide⟩
    have hread := (decode_encode_append.1 _ ⟨#[255]⟩ hfits).1
    simpa [Machine.stored, State.stored, Machine.transitionCount] using hread

end StackTape
