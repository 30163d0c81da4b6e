import StackTape.Proofs.Verdict

/-!
# Writing undoes reading

Whatever bytes a machine is read from, writing it gives back the bytes that the reader has taken. So
the reader accepts what begins with a written machine and nothing else. It does so at one byte: a
verdict does not depend on what follows, and whatever is cut short before it is reported as such.
Counts in the bytes can be as large as a word without the reader going on for longer than there are
bytes.
-/

namespace StackTape

namespace Reader

/-! ## Counts that the bytes cannot fill

A count can be any word. The rounds of a loop are bounded by the bytes nevertheless: a round that
does not end the reading takes some. -/

/-- Take a state record, in at most `rounds` rounds for its explicit transitions. -/
def stateWithin (rounds expected : Nat) : Reader State := do
  let found ← word
  if found ≠ expected then
    throw (.stateIndex expected found)
  let count ← word
  let fallback ← action Symbol.wildcard
  let rules ← state.rulesFrom #[] (min count rounds)
  return ⟨rules.toList, fallback⟩

/-- Take `count` state records after those in `taken`, each within the given rounds. -/
def statesWithin (rounds : Nat) (taken : Array State) : (count : Nat) → Reader (Array State)
  | 0 => return taken
  | count + 1 => do statesWithin rounds (taken.push (← stateWithin rounds taken.size)) count

/-- Take a machine, with no loop going on for more than the given rounds. -/
def machineWithin (rounds : Nat) : Reader Machine := do
  let start ← word
  let accept ← word
  let reject ← word
  let count ← word
  return ⟨start, accept, reject, ← statesWithin rounds #[] (min count rounds)⟩

section Rounds

variable {bytes : ByteArray} {position rounds : Nat}

theorem rulesFrom_min (taken : Array Transition) (count : Nat) (hp : position ≤ bytes.size)
    (hr : bytes.size < position + 25 * rounds) :
    state.rulesFrom taken (min count rounds) bytes position =
      state.rulesFrom taken count bytes position := by
  -- a round that does not end the reading takes 25 bytes, so the bytes run out before the rounds
  induction rounds generalizing taken count position with
  | zero => omega
  | succ rounds ih =>
    cases count with
    | zero => rw [Nat.zero_min]
    | succ count =>
      rw [Nat.add_min_add_right]
      refine transition_decides.bind_congr hp ?_
      rintro _ t ⟨rfl, -⟩ hle
      have hlen : t.bytes.length = 25 := by
        simp [Transition.bytes, Transition.length_actionBytes]
      rw [hlen] at hle ⊢
      exact ih (taken.push t) count hle (by omega)

theorem stateWithin_apply (id : Nat) (hp : position ≤ bytes.size)
    (hr : bytes.size < position + 25 * rounds) :
    stateWithin rounds id bytes position = state id bytes position := by
  refine word_decides.bind_congr hp ?_
  intro taken found _ hp
  split
  · rfl
  · refine word_decides.bind_congr hp ?_
    intro taken count _ hp
    refine (action_decides _).bind_congr hp ?_
    intro taken fallback _ hp
    rw [bind_apply, bind_apply, rulesFrom_min #[] count hp (by omega)]

theorem statesWithin_apply (taken : Array State) (count : Nat) (hp : position ≤ bytes.size)
    (hr : bytes.size < position + 25 * rounds) :
    statesWithin rounds taken count bytes position = statesFrom taken count bytes position := by
  induction count generalizing taken position with
  | zero => rfl
  | succ count ih =>
    rw [statesWithin, statesFrom, bind_apply, stateWithin_apply taken.size hp hr, ← bind_apply]
    refine (state_decides taken.size).bind_congr hp ?_
    intro bytes s _ hp
    exact ih (taken.push s) hp (by omega)

theorem statesFrom_min (taken : Array State) (count : Nat) (hp : position ≤ bytes.size)
    (hr : bytes.size < position + 25 * rounds) :
    statesFrom taken (min count rounds) bytes position = statesFrom taken count bytes position := by
  induction rounds generalizing taken count position with
  | zero => omega
  | succ rounds ih =>
    cases count with
    | zero => rw [Nat.zero_min]
    | succ count =>
      rw [Nat.add_min_add_right]
      refine (state_decides taken.size).bind_congr hp ?_
      rintro _ s ⟨rfl, -⟩ hle
      rw [State.length_bytes] at hle ⊢
      exact ih (taken.push s) count hle (by omega)

/-- The counts that a machine claims make no difference beyond the rounds for which there are
bytes. -/
theorem machineWithin_apply {b : ByteArray} (hr : b.size < 25 * rounds) :
    machineWithin rounds b 0 = machine b 0 := by
  refine word_decides.bind_congr (Nat.zero_le _) ?_
  intro taken start _ hp
  refine word_decides.bind_congr hp ?_
  intro taken accept _ hp
  refine word_decides.bind_congr hp ?_
  intro taken reject _ hp
  refine word_decides.bind_congr hp ?_
  intro taken count _ hp
  rw [bind_apply, bind_apply, statesWithin_apply #[] _ hp (by omega),
    statesFrom_min #[] count hp (by omega)]

end Rounds

end Reader

/-! ## Writing undoes reading -/

namespace Machine

open Reader

variable {b : ByteArray} {m : Machine} {n : Nat} {r : Except FormatError Machine}

theorem decode_of_stop (h : Reader.machine b 0 = stop r n) : decode b = r.map (·, n) := by
  rw [decode, h]
  cases r <;> rfl

theorem stop_of_decode (h : decode b = .ok (m, n)) : Reader.machine b 0 = stop (.ok m) n := by
  unfold decode at h
  split at h
  · next m' n' hm =>
    cases h
    exact hm
  · cases h

theorem size_encode (m : Machine) : m.encode.size = m.bytes.length := by
  rw [← toList_encode, Array.length_toList, ByteArray.size_data]

/-- The reader takes the binary form of the machine that it gives, and the numbers of the machine
are words. -/
theorem exists_append_of_decode (h : decode b = .ok (m, n)) :
    m.Fits ∧ n = m.encode.size ∧ ∃ rest, b = m.encode ++ rest := by
  obtain ⟨taken, after, hb, hn, hs⟩ :=
    machine_decides.settled_of_stop (stop_of_decode h) (by simp)
  obtain ⟨rfl, hfits⟩ := hs.post m rfl
  refine ⟨hfits, by rw [size_encode, hn], ⟨⟨after.toArray⟩, ?_⟩⟩
  apply ByteArray.ext
  apply Array.toList_inj.1
  rw [hb, ByteArray.data_append, Array.toList_append, toList_encode]

theorem decode_encode_left (hm : m.Fits) (rest : ByteArray) :
    decode (m.encode ++ rest) = .ok (m.stored, m.encode.size) := by
  rw [decode_stored hm rest, size_encode, length_bytes]

/-- The bytes that the reader takes from the front are the binary form of the machine. -/
theorem encode_eq_extract (h : decode b = .ok (m, n)) : m.encode = b.extract 0 n := by
  obtain ⟨-, rfl, rest, rfl⟩ := exists_append_of_decode h
  exact (ByteArray.extract_append_eq_left rfl).symm

end Machine

/-- Writing undoes reading. Whatever bytes a machine is read from, it has words for its numbers, and
its binary form is exactly what the reader has taken. So a sequence is accepted if and only if it
starts with the binary form of some machine of words; this start is the only one of its kind, and
from two different ones never the same machine is read. -/
theorem encode_decode_exact :
    (∀ (b : ByteArray) (m : Machine) (n : Nat), Machine.decode b = .ok (m, n) →
      m.Fits ∧ n ≤ b.size ∧ m.encode = b.extract 0 n) ∧
    (∀ b : ByteArray, (∃ m n, Machine.decode b = .ok (m, n)) ↔
      ∃ m rest, Machine.Fits m ∧ b = m.encode ++ rest) ∧
    (∀ (m m' : Machine) (rest rest' : ByteArray), m.Fits → m'.Fits →
      m.encode ++ rest = m'.encode ++ rest' → m.encode = m'.encode) ∧
    ∀ (b b' : ByteArray) (m : Machine) (n n' : Nat), Machine.decode b = .ok (m, n) →
      Machine.decode b' = .ok (m, n') → b.extract 0 n = b'.extract 0 n' := by
  refine ⟨fun b m n h => ?_, fun b => ⟨?_, ?_⟩, fun m m' rest rest' hm hm' heq => ?_,
    fun b b' m n n' h h' => ?_⟩
  · obtain ⟨hfits, hn, rest, hb⟩ := Machine.exists_append_of_decode h
    refine ⟨hfits, ?_, Machine.encode_eq_extract h⟩
    rw [hn, hb, ByteArray.size_append]
    exact Nat.le_add_right _ _
  · rintro ⟨m, n, h⟩
    obtain ⟨hfits, -, rest, hb⟩ := Machine.exists_append_of_decode h
    exact ⟨m, rest, hfits, hb⟩
  · rintro ⟨m, rest, hm, rfl⟩
    exact ⟨m.stored, m.encode.size, Machine.decode_encode_left hm rest⟩
  · have h := Machine.decode_encode_left hm rest
    rw [heq, Machine.decode_encode_left hm' rest', Except.ok.injEq, Prod.mk.injEq] at h
    exact ByteArray.append_inj_left heq h.2.symm
  · rw [← Machine.encode_eq_extract h, ← Machine.encode_eq_extract h']

/-- A machine of one state whose fallback has the given input. -/
def Machine.oneState (input : Nat) : Machine :=
  ⟨2, 0, 1, #[⟨[], ⟨input, 8, .left, 9⟩⟩]⟩

theorem Machine.oneState_fits {input : Nat} (h : IsWord input) : (oneState input).Fits := by
  have hsmall : ∀ n < 10, IsWord n := by decide
  refine ⟨hsmall 2 (by decide), hsmall 0 (by decide), hsmall 1 (by decide), hsmall 1 (by decide),
    fun s hs => ?_⟩
  obtain rfl := Array.mem_singleton.1 hs
  exact ⟨hsmall 0 (by decide), by simp, h, hsmall 8 (by decide), hsmall 9 (by decide)⟩

/-- The binary form of `Machine.oneState` with the given byte for the direction, and one more byte
behind it. -/
def oneRecord (direction : UInt8) : ByteArray :=
  ⟨#[2, 0, 0, 0, 0, 0, 0, 0, 0, 0, 0, 0, 0, 0, 0, 0, 1, 0, 0, 0, 0, 0, 0, 0, 1, 0, 0, 0, 0, 0, 0, 0,
    0, 0, 0, 0, 0, 0, 0, 0, 0, 0, 0, 0, 0, 0, 0, 0, 8, 0, 0, 0, 0, 0, 0, 0, direction,
    9, 0, 0, 0, 0, 0, 0, 0, 255]⟩

theorem oneRecord_exact :
    Machine.decode (oneRecord 1) = .ok (.oneState Symbol.wildcard, 65) ∧
    (Machine.oneState Symbol.wildcard).encode = (oneRecord 1).extract 0 65 ∧
    (Machine.oneState 7).encode = (Machine.oneState Symbol.wildcard).encode ∧
    (oneRecord 1).extract 0 65 = (oneRecord 1 ++ ⟨#[0]⟩).extract 0 65 := by
  obtain ⟨hexact, -, hunique, hsame⟩ := encode_decode_exact
  have h : Machine.decode (oneRecord 1) = .ok (.oneState Symbol.wildcard, 65) := rfl
  have h' : Machine.decode (oneRecord 1 ++ ⟨#[0]⟩) = .ok (.oneState Symbol.wildcard, 65) := rfl
  exact ⟨h, (hexact _ _ _ h).2.2,
    hunique _ _ ⟨#[255]⟩ ⟨#[255]⟩ (Machine.oneState_fits (by decide))
      (Machine.oneState_fits (by decide)) rfl,
    hsame _ _ _ _ _ h h'⟩

/-! ## Verdicts fall at one byte -/

theorem toList_extract_zero (b : ByteArray) (n : Nat) :
    (b.extract 0 n).data.toList = b.data.toList.take n := by
  simp [ByteArray.data_extract]

namespace Machine

open Reader

variable {b b' : ByteArray} {n k : Nat} {r : Except FormatError Machine}

/-- A verdict stands for all sequences with the same bytes up to it. -/
theorem stop_of_extract_eq (h : Reader.machine b 0 = stop r n) (hr : r ≠ .error .truncated)
    (heq : b'.extract 0 n = b.extract 0 n) : Reader.machine b' 0 = stop r n := by
  obtain ⟨taken, after, hb, rfl, hs⟩ := machine_decides.settled_of_stop h hr
  have htake : b'.data.toList.take taken.length = taken := by
    rw [← toList_extract_zero, heq, toList_extract_zero, hb, List.take_left]
  have hstop := hs.stops b' [] (b'.data.toList.drop taken.length) (by
    rw [List.nil_append]
    conv_lhs => rw [← List.take_append_drop taken.length b'.data.toList, htake])
  rwa [List.length_nil, Nat.zero_add] at hstop

/-- Before the byte at which the verdict falls, the reader asks for more bytes. -/
theorem decode_extract_of_lt (h : Reader.machine b 0 = stop r n) (hr : r ≠ .error .truncated)
    (hk : k < n) : decode (b.extract 0 k) = .error .truncated := by
  obtain ⟨taken, after, hb, rfl, hs⟩ := machine_decides.settled_of_stop h hr
  have hshort : (b.extract 0 k).data.toList = [] ++ taken.take k := by
    rw [toList_extract_zero, hb, List.take_append_of_le_length (Nat.le_of_lt hk), List.nil_append]
  have hcut : taken = taken.take k ++ taken[k] :: taken.drop (k + 1) := by
    rw [← List.drop_eq_getElem_cons hk, List.take_append_drop]
  exact decode_of_stop (hs.starves _ _ _ hcut (b.extract 0 k) [] hshort)

end Machine

/-- The reader decides at one byte. Whatever counts it finds, nothing changes when its loops are cut
off after the rounds for which there can be bytes. It stops within the bytes: it runs out of them,
or reads a machine, or finds a byte that is no direction or a record out of its place. A verdict
that is reached after `n` bytes stands for every sequence that starts with these `n` bytes, and on
fewer of them the reader reports that the buffer cannot be filled. So it does on every binary form
that is cut short. -/
theorem decode_decides_promptly :
    (∀ (b : ByteArray) (rounds : Nat), b.size < 25 * rounds →
      Reader.machineWithin rounds b 0 = Reader.machine b 0) ∧
    (∀ b : ByteArray, ∃ r n, Reader.machine b 0 = Reader.stop r n ∧ n ≤ b.size ∧
      Machine.decode b = r.map (·, n) ∧ ∀ e, r = .error e → e = .truncated ∨ e.Shown) ∧
    (∀ (b : ByteArray) (r : Except FormatError Machine) (n : Nat),
      Reader.machine b 0 = Reader.stop r n → r ≠ .error .truncated →
      (∀ b' : ByteArray, b'.extract 0 n = b.extract 0 n → Reader.machine b' 0 = Reader.stop r n) ∧
      ∀ k, k < n → Machine.decode (b.extract 0 k) = .error .truncated) ∧
    (∀ (m : Machine) (k : Nat), m.Fits → k < m.encode.size →
      Machine.decode (m.encode.extract 0 k) = .error .truncated) ∧
    FormatError.truncated.message = "I/O error: failed to fill whole buffer" := by
  refine ⟨fun b rounds => Reader.machineWithin_apply, fun b => ?_, fun b r n h hr => ?_,
    fun m k hm hk => ?_, rfl⟩
  · rcases Reader.machine_decides.cases (Nat.zero_le b.size) with h | ⟨taken, r, hs, hle, -, h⟩
    · refine ⟨_, _, h, Nat.le_refl _, Machine.decode_of_stop h, ?_⟩
      rintro e ⟨⟩
      exact .inl rfl
    · exact ⟨r, _, h, hle, Machine.decode_of_stop h, fun e he => .inr (hs.shown e he)⟩
  · exact ⟨fun b' => Machine.stop_of_extract_eq h hr, fun k => Machine.decode_extract_of_lt h hr⟩
  · have hread := Machine.decode_encode_left hm .empty
    rw [ByteArray.append_empty] at hread
    exact Machine.decode_extract_of_lt (Machine.stop_of_decode hread) (by simp) hk

/-- The start of a machine that claims to have as many states as a word can count. -/
def hugeClaim : ByteArray :=
  ⟨Array.replicate 24 0 ++ Array.replicate 8 255⟩

theorem oneRecord_decided :
    Reader.machineWithin 2 hugeClaim 0 = Reader.machine hugeClaim 0 ∧
    Machine.decode hugeClaim = .error .truncated ∧
    Machine.decode (oneRecord 3) = .error (.invalidDirection 3) ∧
    Machine.decode ((oneRecord 3).extract 0 57) = .error (.invalidDirection 3) ∧
    Machine.decode ((oneRecord 3).extract 0 56) = .error .truncated ∧
    Machine.decode ((Machine.oneState 7).encode.extract 0 64) = .error .truncated := by
  obtain ⟨hrounds, -, hverdict, hshort, -⟩ := decode_decides_promptly
  have hclaim : Reader.machineWithin 2 hugeClaim 0 = Reader.machine hugeClaim 0 :=
    hrounds hugeClaim 2 (by decide)
  have h : Reader.machine (oneRecord 3) 0 = Reader.stop (.error (.invalidDirection 3)) 57 := rfl
  obtain ⟨hsame, hfewer⟩ := hverdict _ _ _ h (by simp)
  have h57 := hsame ((oneRecord 3).extract 0 57) (by simp [ByteArray.extract_extract])
  refine ⟨hclaim, ?_, Machine.decode_of_stop h, Machine.decode_of_stop h57, hfewer 56 (by decide),
    hshort _ 64 (Machine.oneState_fits (by decide)) (by decide)⟩
  exact Machine.decode_of_stop (r := .error .truncated) (n := 32) (hclaim.symm.trans rfl)

end StackTape
