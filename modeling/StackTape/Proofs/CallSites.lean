import StackTape.Proofs.Driver

/-!
# Ids of calls and return addresses

The return addresses of a program ascend strictly, so halving finds the only place where an address
can stand (`CallSites.bisect?_of_getElem?`). The id of a call is the number of calls before it, and
the address with that id is the position after the call: calls and ids determine each other.
-/

namespace StackTape

variable {p : Program} {sites : CallSites} {i : Instruction} {j id : Nat}

/-! ## Return addresses -/

namespace Program

theorem length_returnAddresses (p : Program) : p.returnAddresses.length = p.callCount := by
  rw [returnAddresses, List.length_filterMap_eq_countP, callCount]
  conv_rhs => rw [← List.zipIdx_map_fst 0 p, List.countP_map]
  congr 1
  funext x
  by_cases h : x.1.opcode = .call <;> simp [h]

theorem returnAddresses_append_cons (p q : Program) (hop : i.opcode = .call) :
    ∃ after, returnAddresses (p ++ i :: q) = p.returnAddresses ++ (p.length + 1) :: after := by
  simp only [returnAddresses, List.zipIdx_append, List.zipIdx_cons, List.filterMap_append,
    List.filterMap_cons, hop, if_true, Nat.zero_add]
  exact ⟨_, rfl⟩

/-- The return addresses before that of a call are those of the calls before it. -/
theorem returnAddresses_split (hi : p[j]? = some i) (hop : i.opcode = .call) :
    ∃ after, p.returnAddresses = Program.returnAddresses (p.take j) ++ (j + 1) :: after := by
  obtain ⟨hj, rfl⟩ := List.getElem?_eq_some_iff.1 hi
  have hsplit : p.take j ++ p[j] :: p.drop (j + 1) = p := by
    rw [← List.drop_eq_getElem_cons hj, List.take_append_drop]
  obtain ⟨after, h⟩ := returnAddresses_append_cons (p.take j) (p.drop (j + 1)) hop
  rw [hsplit, List.length_take_of_le (Nat.le_of_lt hj)] at h
  exact ⟨after, h⟩

theorem exists_call_of_mem {a : Nat} (ha : a ∈ p.returnAddresses) :
    ∃ j i, p[j]? = some i ∧ i.opcode = .call ∧ a = j + 1 := by
  simp only [returnAddresses, List.mem_filterMap] at ha
  obtain ⟨⟨i, j⟩, hx, hj⟩ := ha
  have hi := List.mem_zipIdx_iff_getElem?.1 hx
  split at hj
  · next hop =>
    cases hj
    exact ⟨j, i, hi, hop, rfl⟩
  · cases hj

theorem mem_returnAddresses {a : Nat} (ha : a ∈ p.returnAddresses) : 0 < a ∧ a ≤ p.length := by
  obtain ⟨j, i, hi, -, rfl⟩ := exists_call_of_mem ha
  exact ⟨Nat.succ_pos j, (List.getElem?_eq_some_iff.1 hi).1⟩

theorem pairwise_returnAddresses (p : Program) : p.returnAddresses.Pairwise (· < ·) := by
  have hpositions : p.zipIdx.Pairwise fun x y => x.2 < y.2 := by
    rw [← List.pairwise_map (f := Prod.snd), List.zipIdx_map_snd]
    exact List.pairwise_lt_range'
  refine hpositions.filterMap _ ?_
  rintro ⟨i, q⟩ ⟨i', q'⟩ hlt a ha b hb
  obtain ⟨-, rfl⟩ : i.opcode = .call ∧ q + 1 = a := by simpa using ha
  obtain ⟨-, rfl⟩ : i'.opcode = .call ∧ q' + 1 = b := by simpa using hb
  exact Nat.succ_lt_succ hlt

/-- The id of a call is the number of calls before it, and it stands for the position after the
call. -/
theorem getElem?_returnAddresses (hi : p[j]? = some i) (hop : i.opcode = .call) :
    p.returnAddresses[p.callId j]? = some (j + 1) := by
  obtain ⟨after, hsplit⟩ := returnAddresses_split hi hop
  rw [hsplit, callId, ← length_returnAddresses, List.getElem?_append_right le_rfl, Nat.sub_self]
  rfl

theorem getElem?_returnAddresses_eq_some_iff :
    p.returnAddresses[id]? = some (j + 1) ↔
      ∃ i, p[j]? = some i ∧ i.opcode = .call ∧ p.callId j = id := by
  constructor
  · intro h
    obtain ⟨j', i, hi, hop, hj⟩ := exists_call_of_mem (List.mem_of_getElem? h)
    obtain rfl : j = j' := Nat.succ.inj hj
    have hnodup : p.returnAddresses.Nodup := p.pairwise_returnAddresses.imp Nat.ne_of_lt
    have hid : id < p.returnAddresses.length := (List.getElem?_eq_some_iff.1 h).1
    have hsame := h.trans (getElem?_returnAddresses hi hop).symm
    exact ⟨i, hi, hop, ((List.getElem?_inj hid hnodup).1 hsame).symm⟩
  · rintro ⟨i, hi, hop, rfl⟩
    exact getElem?_returnAddresses hi hop

end Program

/-! ## Halving -/

namespace CallSites

variable {table : Array Nat} {value low high index : Nat} {h : high ≤ table.size}

/-- What is found stands where it was found. -/
theorem getElem?_of_bisect? (hfound : bisect? table value low high h = some index) :
    table[index]? = some value := by
  fun_induction bisect? table value low high h with
  | case1 low high h hlow middle hmiddle hvalue =>
    obtain rfl := Option.some.inj hfound
    exact Array.getElem?_eq_some_iff.2 ⟨by omega, hvalue⟩
  | case2 low high h hlow middle hmiddle hvalue hless ih => exact ih hfound
  | case3 low high h hlow middle hmiddle hvalue hless ih => exact ih hfound
  | case4 => cases hfound

/-- In an ascending table, what stands between the bounds is found. -/
theorem bisect?_of_getElem? (hasc : table.toList.Pairwise (· < ·)) (hlow : low ≤ index)
    (hhigh : index < high) (hget : table[index]? = some value) :
    bisect? table value low high h = some index := by
  obtain ⟨hindex, rfl⟩ := Array.getElem?_eq_some_iff.1 hget
  have hlt : ∀ {a b : Nat} (ha : a < table.size) (hb : b < table.size), a < b →
      table[a] < table[b] := fun ha hb hab => List.pairwise_iff_getElem.1 hasc _ _ ha hb hab
  fun_induction bisect? table table[index] low high h with
  | case1 low high h hlow middle hmiddle hvalue =>
    -- no two entries are equal
    rcases Nat.lt_trichotomy index middle with hcase | hcase | hcase
    · exact absurd hvalue (Nat.ne_of_gt (hlt hindex (by omega) hcase))
    · rw [hcase]
    · exact absurd hvalue (Nat.ne_of_lt (hlt (by omega) hindex hcase))
  | case2 low high h hlow middle hmiddle hvalue hless ih =>
    refine ih (Nat.not_le.1 fun hle => ?_) hhigh
    rcases Nat.lt_or_eq_of_le hle with hcase | rfl
    · exact Nat.lt_asymm hless (hlt hindex (by omega) hcase)
    · exact hvalue rfl
  | case3 low high h hlow middle hmiddle hvalue hless ih =>
    refine ih (by assumption) (Nat.not_le.1 fun hle => ?_)
    rcases Nat.lt_or_eq_of_le hle with hcase | rfl
    · exact hless (hlt (by omega) hindex hcase)
    · exact hvalue rfl
  | case4 => omega

/-! ## Ids -/

theorem addresses_eq (hs : CallSites.ofProgram? p = some sites) :
    sites.addresses = p.returnAddresses := by
  simp only [CallSites.ofProgram?] at hs
  split at hs
  · cases hs
    rfl
  · cases hs

theorem ofProgram?_eq (p : Program) :
    ofProgram? p = if p.callCount ≤ 65536 then some ⟨p.returnAddresses⟩ else none := by
  rw [ofProgram?, Program.length_returnAddresses, maxCallSites]

theorem index?_eq_some_iff (hs : ofProgram? p = some sites) {address : Nat} :
    sites.index? address = some id ↔ p.returnAddresses[id]? = some address := by
  have htable : ∀ k : Nat, sites.addresses.toArray[k]? = p.returnAddresses[k]? := by
    simp [addresses_eq hs]
  constructor
  · intro hfound
    rw [← htable]
    exact getElem?_of_bisect? hfound
  · intro hget
    have hasc : sites.addresses.toArray.toList.Pairwise (· < ·) := by
      rw [addresses_eq hs]
      exact p.pairwise_returnAddresses
    rw [← htable] at hget
    exact bisect?_of_getElem? hasc (Nat.zero_le id) (Array.getElem?_eq_some_iff.1 hget).1 hget

/-- An index is a number of two bytes, since there are not too many calls. -/
theorem idAt?_eq_index? (hs : ofProgram? p = some sites) (position : Nat) :
    sites.idAt? position = sites.index? (position + 1) := by
  rw [idAt?]
  cases hindex : sites.index? (position + 1) with
  | none => rfl
  | some index =>
    have hlt : index < p.returnAddresses.length :=
      (List.getElem?_eq_some_iff.1 ((index?_eq_some_iff hs).1 hindex)).1
    have hle : sites.addresses.length ≤ 65536 := length_le hs
    rw [addresses_eq hs] at hle
    rw [Option.map_some, UInt16.toNat_ofNat_of_lt' (Nat.lt_of_lt_of_le hlt hle)]

theorem idAt?_eq_some_iff (hs : ofProgram? p = some sites) :
    sites.idAt? j = some id ↔ ∃ i, p[j]? = some i ∧ i.opcode = .call ∧ p.callId j = id := by
  rw [idAt?_eq_index? hs, index?_eq_some_iff hs, Program.getElem?_returnAddresses_eq_some_iff]

theorem idAt?_eq (hs : CallSites.ofProgram? p = some sites) (hi : p[j]? = some i)
    (hop : i.opcode = .call) : sites.idAt? j = some (p.callId j) :=
  (idAt?_eq_some_iff hs).2 ⟨i, hi, hop, rfl⟩

/-- The call sites number the calls of a program. -/
structure Numbers (sites : CallSites) (p : Program) : Prop where
  count_eq : sites.count = p.callCount
  /-- The id of a call is the number of calls before it, and nothing but a call has an id. -/
  idAt?_iff : ∀ q k : Nat, sites.idAt? q = some k ↔
    ∃ i, p[q]? = some i ∧ i.opcode = .call ∧ Program.callCount (p.take q) = k
  returnAddress_eq : ∀ q k : Nat, sites.idAt? q = some k → sites.returnAddress k = .ok (q + 1)
  /-- Two bytes hold every index. -/
  untruncated : ∀ q : Nat, sites.idAt? q = sites.index? (q + 1)
  injective : ∀ q q' k : Nat, sites.idAt? q = some k → sites.idAt? q' = some k → q = q'
  surjective : ∀ k < sites.count, ∃ q, sites.idAt? q = some k

theorem numbers (hs : ofProgram? p = some sites) : sites.Numbers p := by
  have haddress : ∀ {q k : Nat}, sites.idAt? q = some k → sites.addresses[k]? = some (q + 1) := by
    intro q k hid
    rwa [idAt?_eq_index? hs, index?_eq_some_iff hs, ← addresses_eq hs] at hid
  refine ⟨?_, fun q k => idAt?_eq_some_iff hs, fun q k hid => ?_, idAt?_eq_index? hs,
    fun q q' k hid hid' => ?_, fun k hk => ?_⟩
  · rw [count, addresses_eq hs, Program.length_returnAddresses]
  · exact returnAddress_eq_ok_iff.2 (haddress hid)
  · have hsame := (haddress hid).symm.trans (haddress hid')
    exact Nat.succ.inj (Option.some.inj hsame)
  · rw [count, addresses_eq hs] at hk
    have hget := List.getElem?_eq_getElem hk
    obtain ⟨q, i, -, -, hq⟩ := Program.exists_call_of_mem (List.mem_of_getElem? hget)
    refine ⟨q, ?_⟩
    rw [idAt?_eq_index? hs, index?_eq_some_iff hs, hget, hq]

end CallSites

/-- A program has call sites unless it has more calls than two bytes can tell apart. Then each call
has the number of calls before it for its id, without loss, and nothing else has one; the return
address with that id is the position after the call, different calls have different ids, and each
id is that of a call. -/
theorem callSites_number_calls (p : Program) :
    (CallSites.ofProgram? p = none ↔ 65536 < p.callCount) ∧
      ∀ sites, CallSites.ofProgram? p = some sites → sites.Numbers p := by
  refine ⟨?_, fun sites hs => CallSites.numbers hs⟩
  rw [CallSites.ofProgram?_eq]
  split
  · next hle => simp [Nat.not_lt.2 hle]
  · next hgt => simp [Nat.not_le.1 hgt]

/-- With as many calls as two bytes can tell apart, the last one has an id of its own. -/
theorem last_id_of_two_bytes :
    ∃ sites, CallSites.ofProgram? (List.replicate 65536 ⟨.call, 0, 0, 0⟩) = some sites ∧
      sites.idAt? 65535 = some 65535 ∧ sites.returnAddress 65535 = .ok 65536 := by
  have hcount : ∀ n, Program.callCount (List.replicate n ⟨.call, 0, 0, 0⟩) = n := by
    intro n
    simp [Program.callCount, List.countP_replicate]
  have hs := CallSites.ofProgram?_eq (List.replicate 65536 ⟨.call, 0, 0, 0⟩)
  rw [hcount, if_pos (Nat.le_refl _)] at hs
  have hnumbers := (callSites_number_calls _).2 _ hs
  have hid := (hnumbers.idAt?_iff 65535 65535).2 ⟨⟨.call, 0, 0, 0⟩,
    by rw [List.getElem?_replicate, if_pos (by decide)], rfl,
    by rw [List.take_replicate, hcount]; rfl⟩
  exact ⟨_, hs, hid, hnumbers.returnAddress_eq 65535 65535 hid⟩

end StackTape
