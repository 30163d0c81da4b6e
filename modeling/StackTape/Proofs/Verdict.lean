import StackTape.Proofs.RoundTrip

/-!
# What a reader decides, and at which byte

A reader comes to a verdict, which is a value or an error that the bytes show, or the bytes end
before it can. `Reader.Decides` says that a verdict falls at one byte: from there on it stands
whatever follows, and with fewer bytes the reader starves. It also carries what the taken bytes say
about the value, and for machines that is everything: the bytes are those that writing the machine
gives (`Reader.machine_decides`).
-/

namespace StackTape

theorem Direction.code_of_ofCode? {b : UInt8} {d : Direction} (h : ofCode? b.toNat = some d) :
    d.code = b := by
  apply UInt8.toNat_inj.1
  unfold ofCode? at h
  split at h
  case h_4 => cases h
  all_goals
    next hb =>
      cases h
      exact hb.symm

/-- The errors that the bytes read so far show, whatever follows them. -/
def FormatError.Shown : FormatError → Prop
  | invalidDirection byte => Direction.ofCode? byte.toNat = none
  | stateIndex expected found => found ≠ expected
  | truncated => False

namespace Reader

variable {α β : Type}

/-- The end of a reading with the given outcome at a position. -/
def stop (r : Except FormatError α) (position : Nat) : EStateM.Result FormatError Nat α :=
  match r with
  | .ok a => .ok a position
  | .error e => .error e position

/-! ## Verdicts -/

/-- The reader runs out of bytes where a sequence ends with the given ones. -/
def Starves (x : Reader α) (rest : List UInt8) : Prop :=
  ∀ (bytes : ByteArray) (before : List UInt8), bytes.data.toList = before ++ rest →
    x bytes before.length = stop (.error .truncated) bytes.size

/-- The reader takes exactly the given bytes, wherever they stand and whatever follows, and comes
to an outcome; it starves on any fewer of them. -/
structure Settled (x : Reader α) (post : List UInt8 → α → Prop) (taken : List UInt8)
    (r : Except FormatError α) : Prop where
  post : ∀ a, r = .ok a → post taken a
  shown : ∀ e, r = .error e → e.Shown
  stops : ∀ (bytes : ByteArray) (before after : List UInt8),
    bytes.data.toList = before ++ (taken ++ after) →
      x bytes before.length = stop r (before.length + taken.length)
  starves : ∀ (short : List UInt8) (b : UInt8) (rest : List UInt8), taken = short ++ b :: rest →
    Starves x short

/-- On every input the reader starves or is settled by the bytes at its front; `post` relates the
bytes that it takes to the value that it gives. -/
def Decides (x : Reader α) (post : List UInt8 → α → Prop) : Prop :=
  ∀ input : List UInt8, Starves x input ∨
    ∃ taken after r, input = taken ++ after ∧ Settled x post taken r

theorem Starves.bind {x : Reader α} {rest : List UInt8} (hx : Starves x rest)
    (f : α → Reader β) : Starves (x >>= f) rest := by
  intro bytes before h
  rw [bind_apply, hx bytes before h]
  rfl

/-- A reader that goes on after the bytes which settle the first one, and starves there. -/
theorem Settled.bind_starves {x : Reader α} {f : α → Reader β} {P : List UInt8 → α → Prop}
    {taken rest : List UInt8} {a : α} (hx : Settled x P taken (.ok a)) (hf : Starves (f a) rest) :
    Starves (x >>= f) (taken ++ rest) := by
  intro bytes before h
  have hrest := hf bytes (before ++ taken) (by rw [h, List.append_assoc])
  rw [List.length_append] at hrest
  rw [bind_apply, hx.stops bytes before rest h]
  exact hrest

/-- An error of the first reader is one of the whole. -/
theorem Settled.bind_error {x : Reader α} {P : List UInt8 → α → Prop} {taken : List UInt8}
    {e : FormatError} (hx : Settled x P taken (.error e)) (f : α → Reader β)
    (R : List UInt8 → β → Prop) : Settled (x >>= f) R taken (.error e) where
  post b h := by cases h
  shown e' h := by
    cases h
    exact hx.shown e rfl
  stops bytes before after h := by
    rw [bind_apply, hx.stops bytes before after h]
    rfl
  starves short b rest h := (hx.starves short b rest h).bind f

theorem Settled.bind {x : Reader α} {f : α → Reader β} {P : List UInt8 → α → Prop}
    {R : List UInt8 → β → Prop} {taken taken' : List UInt8} {a : α} {r : Except FormatError β}
    (hx : Settled x P taken (.ok a)) (hf : Settled (f a) (fun t b => R (taken ++ t) b) taken' r) :
    Settled (x >>= f) R (taken ++ taken') r where
  post := hf.post
  shown := hf.shown
  stops bytes before after h := by
    rw [List.append_assoc] at h
    have hrest := hf.stops bytes (before ++ taken) after (by rw [h, List.append_assoc])
    rw [List.length_append] at hrest
    rw [bind_apply, hx.stops bytes before (taken' ++ after) h, List.length_append,
      ← Nat.add_assoc]
    exact hrest
  starves short b rest h := by
    -- the cut falls into the bytes of the second reader or into those of the first
    rcases List.append_eq_append_iff.1 h with ⟨short', rfl, h'⟩ | ⟨tail, rfl, h'⟩
    · exact hx.bind_starves (hf.starves short' b rest h')
    · cases tail with
      | nil =>
        have hnil := hx.bind_starves (hf.starves [] b rest h'.symm)
        rwa [List.append_nil, List.append_nil] at hnil
      | cons c tail => exact (hx.starves short c tail rfl).bind f

/-- Two readers in a row. What the first one takes may be used for the second. -/
theorem Decides.bind {x : Reader α} {f : α → Reader β} {P : List UInt8 → α → Prop}
    {R : List UInt8 → β → Prop} (hx : Decides x P)
    (hf : ∀ taken a, P taken a → Decides (f a) fun taken' b => R (taken ++ taken') b) :
    Decides (x >>= f) R := by
  intro input
  rcases hx input with hs | ⟨taken, after, r, rfl, h⟩
  · exact .inl (hs.bind f)
  · cases r with
    | error e => exact .inr ⟨taken, after, .error e, rfl, h.bind_error f R⟩
    | ok a =>
      rcases hf taken a (h.post a rfl) after with hs | ⟨taken', after', r, rfl, h'⟩
      · exact .inl (h.bind_starves hs)
      · exact .inr ⟨taken ++ taken', after', r, by rw [List.append_assoc], h.bind h'⟩

theorem Decides.mono {x : Reader α} {P Q : List UInt8 → α → Prop} (hx : Decides x P)
    (h : ∀ taken a, P taken a → Q taken a) : Decides x Q := by
  intro input
  rcases hx input with hs | ⟨taken, after, r, rfl, hr⟩
  · exact .inl hs
  · exact .inr ⟨taken, after, r, rfl, fun a ha => h taken a (hr.post a ha), hr.shown, hr.stops,
      hr.starves⟩

/-- A reader that knows its outcome before it has taken a byte. -/
theorem Decides.of_stop {x : Reader α} {r : Except FormatError α} {R : List UInt8 → α → Prop}
    (hx : ∀ bytes position, x bytes position = stop r position) (hpost : ∀ a, r = .ok a → R [] a)
    (hshown : ∀ e, r = .error e → e.Shown) : Decides x R := by
  intro input
  refine .inr ⟨[], input, r, rfl, hpost, hshown, fun bytes before _ _ => hx bytes _, ?_⟩
  intro short b rest h
  simp at h

theorem Decides.pure {a : α} {R : List UInt8 → α → Prop} (h : R [] a) :
    Decides (Pure.pure a) R := by
  apply Decides.of_stop (r := .ok a) (fun _ _ => rfl)
  · rintro a' ⟨⟩
    exact h
  · rintro e ⟨⟩

theorem Decides.throw (e : FormatError) (h : e.Shown) (R : List UInt8 → α → Prop) :
    Decides (throw e) R := by
  apply Decides.of_stop (r := .error e) (fun _ _ => rfl)
  · rintro a ⟨⟩
  · rintro e' ⟨⟩
    exact h

/-! ## The readers -/

theorem byte_decides : Decides byte fun taken b => taken = [b] := by
  intro input
  have hnil : Starves byte [] := by
    intro bytes before h
    have hsize : before.length = bytes.size := by
      rw [← ByteArray.size_data, ← Array.length_toList, h, List.append_nil]
    rw [byte, dif_neg (by omega), hsize]
    rfl
  cases input with
  | nil => exact .inl hnil
  | cons b rest =>
    right
    refine ⟨[b], rest, .ok b, rfl, ?_, ?_, byte_takes b, ?_⟩
    · rintro b' ⟨⟩
      rfl
    · rintro e ⟨⟩
    · intro short c rest h
      obtain rfl : short = [] := by
        cases short with
        | nil => rfl
        | cons d short => simp at h
      exact hnil

theorem number_decides (width : Nat) :
    Decides (number width) fun taken n => taken = littleEndian width n ∧ n < 256 ^ width := by
  induction width with
  | zero => exact .pure ⟨rfl, by simp⟩
  | succ width ih =>
    refine byte_decides.bind ?_
    rintro _ low rfl
    refine ih.bind ?_
    rintro _ high ⟨rfl, hhigh⟩
    have hlow := low.toNat_lt
    have hbyte : (low.toNat + 256 * high).toUInt8 = low := by
      apply UInt8.toNat_inj.1
      rw [Nat.toUInt8, UInt8.toNat_ofNat']
      omega
    have hrest : (low.toNat + 256 * high) / 256 = high := by omega
    refine .pure ⟨?_, ?_⟩
    · rw [littleEndian, hbyte, hrest]
      simp
    · rw [pow_succ]
      omega

theorem word_decides : Decides word fun taken n => taken = littleEndian 8 n ∧ IsWord n := by
  refine (number_decides 8).mono ?_
  rintro taken n ⟨rfl, hn⟩
  refine ⟨rfl, ?_⟩
  rw [IsWord, Symbol.wildcard]
  omega

theorem direction_decides : Decides direction fun taken d => taken = [d.code] := by
  refine byte_decides.bind ?_
  rintro _ b rfl
  split
  · next d hd => exact .pure (by rw [Direction.code_of_ofCode? hd, List.append_nil])
  · next hd => exact .throw (.invalidDirection b) hd _

theorem action_decides (input : Nat) :
    Decides (action input) fun taken t =>
      taken = t.actionBytes ∧ t.input = input ∧ IsWord t.output ∧ IsWord t.next := by
  refine word_decides.bind ?_
  rintro _ output ⟨rfl, houtput⟩
  refine direction_decides.bind ?_
  rintro _ move rfl
  refine word_decides.bind ?_
  rintro _ next ⟨rfl, hnext⟩
  refine .pure ⟨?_, rfl, houtput, hnext⟩
  simp [Transition.actionBytes]

theorem transition_decides : Decides transition fun taken t => taken = t.bytes ∧ t.Fits := by
  refine word_decides.bind ?_
  rintro _ input ⟨rfl, hinput⟩
  refine (action_decides input).mono ?_
  rintro _ t ⟨rfl, rfl, houtput, hnext⟩
  exact ⟨rfl, hinput, houtput, hnext⟩

theorem rulesFrom_decides (before : Array Transition) (count : Nat) :
    Decides (state.rulesFrom before count) fun taken all => ∃ rules : List Transition,
      all = before ++ rules.toArray ∧ rules.length = count ∧
        taken = rules.flatMap Transition.bytes ∧ ∀ r ∈ rules, r.Fits := by
  induction count generalizing before with
  | zero => exact .pure ⟨[], by simp⟩
  | succ count ih =>
    refine transition_decides.bind ?_
    rintro _ r ⟨rfl, hr⟩
    refine (ih (before.push r)).mono ?_
    rintro _ _ ⟨rules, rfl, rfl, rfl, hrules⟩
    refine ⟨r :: rules, by simp, rfl, rfl, ?_⟩
    simpa using ⟨hr, hrules⟩

theorem state_decides (id : Nat) :
    Decides (state id) fun taken s => taken = s.bytes id ∧ s.Fits := by
  refine word_decides.bind ?_
  rintro _ found ⟨rfl, -⟩
  dsimp only
  split
  · next hne =>
    exact Decides.bind (.throw (.stateIndex id found) hne fun _ _ => False) fun _ _ h => h.elim
  · next heq =>
    obtain rfl : found = id := not_not.1 heq
    refine word_decides.bind ?_
    rintro _ count ⟨rfl, hcount⟩
    refine (action_decides Symbol.wildcard).bind ?_
    rintro _ fallback ⟨rfl, hinput, houtput, hnext⟩
    refine (rulesFrom_decides #[] count).bind ?_
    rintro _ _ ⟨rules, rfl, rfl, rfl, hrules⟩
    have hfallback : IsWord fallback.input := by
      rw [hinput]
      exact Nat.le_refl _
    refine .pure ⟨?_, by simpa using hcount, by simpa using hrules, hfallback, houtput, hnext⟩
    simp [State.bytes]

theorem statesFrom_decides (before : Array State) (count : Nat) :
    Decides (statesFrom before count) fun taken all => ∃ states : List State,
      all = before ++ states.toArray ∧ states.length = count ∧
        taken = State.records before.size states ∧ ∀ s ∈ states, s.Fits := by
  induction count generalizing before with
  | zero => exact .pure ⟨[], by simp [State.records]⟩
  | succ count ih =>
    refine (state_decides before.size).bind ?_
    rintro _ s ⟨rfl, hs⟩
    refine (ih (before.push s)).mono ?_
    rintro _ _ ⟨states, rfl, rfl, rfl, hstates⟩
    refine ⟨s :: states, by simp, rfl, by rw [Array.size_push, State.records], ?_⟩
    simpa using ⟨hs, hstates⟩

theorem machine_decides : Decides machine fun taken m => taken = m.bytes ∧ m.Fits := by
  refine word_decides.bind ?_
  rintro _ start ⟨rfl, hstart⟩
  refine word_decides.bind ?_
  rintro _ accept ⟨rfl, haccept⟩
  refine word_decides.bind ?_
  rintro _ reject ⟨rfl, hreject⟩
  refine word_decides.bind ?_
  rintro _ count ⟨rfl, hcount⟩
  refine (statesFrom_decides #[] count).bind ?_
  rintro _ _ ⟨states, rfl, rfl, rfl, hstates⟩
  refine .pure ⟨?_, hstart, haccept, hreject, by simpa using hcount, by simpa using hstates⟩
  simp [Machine.bytes]

/-! ## Readings of a whole sequence -/

theorem stop_inj {r r' : Except FormatError α} {n n' : Nat} (h : stop r n = stop r' n') :
    r = r' ∧ n = n' := by
  cases r <;> cases r' <;> simp_all [stop]

/-- A reading from a position runs out of bytes, or it is settled by the bytes there. -/
theorem Decides.cases {x : Reader α} {post : List UInt8 → α → Prop} (hx : Decides x post)
    {bytes : ByteArray} {position : Nat} (hp : position ≤ bytes.size) :
    x bytes position = stop (.error .truncated) bytes.size ∨
      ∃ taken r, Settled x post taken r ∧ position + taken.length ≤ bytes.size ∧
        (∃ before after, before.length = position ∧
          bytes.data.toList = before ++ (taken ++ after)) ∧
        x bytes position = stop r (position + taken.length) := by
  have hlen : bytes.data.toList.length = bytes.size := by simp
  have hsplit := List.take_append_drop position bytes.data.toList
  have hbefore : (bytes.data.toList.take position).length = position := by
    rw [List.length_take, hlen, Nat.min_eq_left hp]
  rcases hx (bytes.data.toList.drop position) with hs | ⟨taken, after, r, hdrop, h⟩
  · left
    have := hs bytes _ hsplit.symm
    rwa [hbefore] at this
  · right
    rw [hdrop] at hsplit
    have hstop := h.stops bytes _ after hsplit.symm
    rw [hbefore] at hstop
    refine ⟨taken, r, h, ?_, ⟨_, after, hbefore, hsplit.symm⟩, hstop⟩
    have := congrArg List.length hsplit
    simp only [List.length_append, hbefore, hlen] at this
    omega

/-- Readers that differ only after the same first part agree if they agree behind what that part
takes. -/
theorem Decides.bind_congr {x : Reader α} {post : List UInt8 → α → Prop} (hx : Decides x post)
    {f g : α → Reader β} {bytes : ByteArray} {position : Nat} (hp : position ≤ bytes.size)
    (hfg : ∀ taken a, post taken a → position + taken.length ≤ bytes.size →
      f a bytes (position + taken.length) = g a bytes (position + taken.length)) :
    (x >>= f) bytes position = (x >>= g) bytes position := by
  rw [bind_apply, bind_apply]
  rcases hx.cases hp with h | ⟨taken, r, hr, hle, -, h⟩
  · rw [h]
    rfl
  · rw [h]
    cases r with
    | error e => rfl
    | ok a => exact hfg taken a (hr.post a rfl) hle

/-- A verdict on a whole sequence is settled by the bytes at its front. -/
theorem Decides.settled_of_stop {x : Reader α} {post : List UInt8 → α → Prop}
    (hx : Decides x post) {b : ByteArray} {r : Except FormatError α} {n : Nat}
    (h : x b 0 = stop r n) (hr : r ≠ .error .truncated) :
    ∃ taken after, b.data.toList = taken ++ after ∧ taken.length = n ∧ Settled x post taken r := by
  rcases hx.cases (Nat.zero_le b.size) with
    hs | ⟨taken, r', hr', -, ⟨before, after, hb, hsplit⟩, h'⟩
  · exact absurd (stop_inj (h.symm.trans hs)).1 hr
  · obtain ⟨rfl, rfl⟩ := stop_inj (h.symm.trans h')
    obtain rfl := List.eq_nil_of_length_eq_zero hb
    exact ⟨taken, after, hsplit, (Nat.zero_add _).symm, hr'⟩

end Reader

end StackTape
