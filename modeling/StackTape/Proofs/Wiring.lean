import StackTape.Proofs.Construction

/-!
# Patterns of wiring and what they perform

Each pattern of wiring is described by the stage in which it ends and by the action that the wired
states perform in the finished machine. `Wires` is the common form of these descriptions for a
pattern that begins in one state: it settles that state and leaves nothing else open.
-/

namespace StackTape

open Stage

variable {k : Scope} {σ : Stage} {ε : Type}

/-- From a stage in which `s` is live and not wired, a construction wires `s`, closes all states
that it has handed out itself, and lets `s` perform an action. -/
def Wires (k : Scope) (σ : Stage) (s : Nat) (x : DraftM Unit) (exit : ε → Nat) (a : Action ε) :
    Prop :=
  σ.live s → σ.wiring s = some .unwired → Builds k σ x fun _ σ' =>
    σ.Changes (only s) nothing σ' ∧ σ'.Ensures fun c => c.Performs s exit a

/-! ## Shapes of states -/

theorem Symbol.ne_wildcard {v : Nat} (h : v ≤ Symbol.globalPointer) : v ≠ Symbol.wildcard := by
  simp only [Symbol.globalPointer] at h
  simp only [Symbol.wildcard]
  omega

namespace State.WellFormed

variable {T : Nat → Prop}

theorem skip (move : Direction) {next : Nat} (h : T next) :
    (State.mk [] (.skip move next)).WellFormed T :=
  ⟨.nil, by simp, by simp, by simp, rfl, .inr rfl, h⟩

theorem write {v : Nat} (hv : v ≤ Symbol.globalPointer) (move : Direction) {next : Nat}
    (h : T next) : (State.mk [] (.write v move next)).WellFormed T :=
  ⟨.nil, by simp, by simp, by simp, rfl, .inl hv, h⟩

theorem unwired (h : T Sink.reject) : State.unwired.WellFormed T := skip .stay h

/-- Explicit transitions on top of a well-formed state without any. -/
theorem rules {t : Transition} {rules : List Transition} (ht : (State.mk [] t).WellFormed T)
    (hd : (rules.map (·.input)).Nodup)
    (hr : ∀ r ∈ rules, r.input ≤ Symbol.globalPointer ∧ Symbol.Writable r.output ∧ T r.next) :
    (State.mk rules t).WellFormed T :=
  ⟨hd, fun r h => (hr r h).1, fun r h => (hr r h).2.1, fun r h => (hr r h).2.2,
    ht.fallback_input, ht.fallback_output, ht.fallback_leads⟩

end State.WellFormed

theorem State.mk_ne_unwired {rules : List Transition} {t : Transition} (h : rules ≠ []) :
    State.mk rules t ≠ .unwired :=
  fun heq => h (State.mk.inj heq).1

/-! ## Fallbacks and trails -/

theorem setFallback_builds {s : Nat} {t : Transition} (hl : σ.live s)
    (hw : σ.wiring s = some .unwired) (ht : (State.mk [] t).WellFormed (σ.Target k))
    (hne : t ≠ State.unwired.fallback ∨ k.idle) :
    Builds k σ (Draft.setFallback s t) fun _ σ' => σ.Changes (only s) nothing σ' ∧
      σ'.Ensures fun c => c.machine.states[s]? = some ⟨[], t⟩ :=
  rewire_builds _ hl hw ht (hne.imp_left fun hne heq => hne (State.mk.inj heq).2)

/-- A state that writes one symbol and leaves. -/
theorem write_wires {s v : Nat} {next : Nat} (hv : v ≤ Symbol.globalPointer) (move : Direction)
    (hn : σ.Target k next) :
    Wires k σ s (Draft.setFallback s (.write v move next)) (fun _ => next)
      (Action.write v move) := by
  intro hl hw
  have hne : Transition.write v move next ≠ State.unwired.fallback :=
    fun heq => Symbol.ne_wildcard hv (congrArg Transition.output heq)
  refine (setFallback_builds hl hw (.write hv move hn) (.inl hne)).imp fun _ σ' _ ⟨hc, hs⟩ =>
    ⟨hc, fun c h => ?_⟩
  rw [← Action.take_write (Symbol.ne_wildcard hv) move next]
  exact Machine.performs_take (hs c h)

/-- A state that moves one cell and leaves. If it stays on its cell only to reject, it is as it was
handed out. -/
theorem skip_wires {s : Nat} {next : Nat} (move : Direction) (hn : σ.Target k next)
    (hne : move ≠ .stay ∨ next ≠ Sink.reject ∨ k.idle) :
    Wires k σ s (Draft.setFallback s (.skip move next)) (fun _ => next) (Action.walk move 1) := by
  intro hl hw
  have hne' : Transition.skip move next ≠ State.unwired.fallback ∨ k.idle := by
    rcases hne with hmove | hnext | hidle
    · exact .inl fun heq => hmove (congrArg Transition.move heq)
    · exact .inl fun heq => hnext (congrArg Transition.next heq)
    · exact .inr hidle
  refine (setFallback_builds hl hw (.skip move hn) hne').imp fun _ σ' _ ⟨hc, hs⟩ =>
    ⟨hc, fun c h => ?_⟩
  rw [← Action.take_skip move next]
  exact Machine.performs_take (hs c h)

/-- A state that only leaves. -/
theorem stay_wires {s : Nat} {next : Nat} (hn : σ.Target k next)
    (hne : next ≠ Sink.reject ∨ k.idle) :
    Wires k σ s (Draft.setFallback s (.skip .stay next)) (fun _ => next) (pure ()) := by
  rw [← Action.walk_stay]
  exact skip_wires .stay hn (.inr hne)

/-- A trail ends in a new live state, or where it began if it is empty. What is performed from its
end on is performed from its beginning on, after the steps of the trail. -/
theorem trail_builds {t : Nat → Transition} {a : Action Unit}
    (ht : ∀ (σ : Stage) (s next : Nat), σ.Target k next → next ≠ Sink.reject →
      Wires k σ s (Draft.setFallback s (t next)) (fun _ => next) a)
    (n : Nat) {s : Nat} (hl : σ.live s) (hw : σ.wiring s = some .unwired) :
    Builds k σ (Draft.trail t n s) fun e σ' => σ.Changes (only s) (only e) σ' ∧
      (e = s ∨ σ.size ≤ e) ∧ σ'.Ensures fun c => ∀ (ε : Type) (exit : ε → Nat) (b : Action ε),
        c.Performs e exit b → c.Performs s exit (do a.iterate n; b) := by
  induction n generalizing σ s with
  | zero =>
    refine .pure ⟨⟨fun _ => rfl, fun _ _ _ => rfl, fun id => ?_, ?_⟩, .inl rfl, ?_⟩
    · by_cases h : id = s
      · simp [only, h, hl]
      · simp [only, h]
    · rintro id rfl
      exact hw
    · intro c _ ε exit b hb
      exact hb
  | succ n ih =>
    refine fresh_builds.bind fun next σ₁ he₁ h₁ => ?_
    have hlt : s < σ.size := σ.live_lt hl
    have hsize := h₁.eq_size
    obtain ⟨hl₁, hw₁⟩ := h₁.changes.keep hl hw id
    have hnext : next ≠ Sink.reject := by
      have := σ.two_le
      simp only [Sink.reject, size] at hsize ⊢
      omega
    refine (ht σ₁ s next h₁.target hnext hl₁ hw₁).bind fun _ σ₂ he₂ h₂ => ?_
    obtain ⟨hc₂, hs⟩ := h₂
    have hc : σ.Changes (only s) (only next) σ₂ :=
      h₁.changes.wire hc₂ he₁.size_le (by omega)
    obtain ⟨hl₂, hw₂⟩ := hc.opened (s := next) rfl
    refine (ih hl₂ hw₂).imp fun e σ₃ he₃ h₃ => ?_
    obtain ⟨hc₃, hnew, hp⟩ := h₃
    refine ⟨?_, ?_, ?_⟩
    · exact hc.replace hc₃ (he₁.trans he₂).size_le (by omega)
    · have := (he₁.trans he₂).size_le
      omega
    · intro c h ε exit b hb
      have hinner : c.Inner next := (h₁.inner.mono (he₂.trans he₃)) c h
      rw [Action.iterate, Action.bind_bind]
      exact (hs.mono he₃ c h).bind (fun _ => hinner) fun _ => hp c h ε exit b hb

theorem walk_builds (move : Direction) (n : Nat) {s : Nat} (hl : σ.live s)
    (hw : σ.wiring s = some .unwired) :
    Builds k σ (Draft.walk move n s) fun e σ' => σ.Changes (only s) (only e) σ' ∧
      (e = s ∨ σ.size ≤ e) ∧ σ'.Ensures fun c => ∀ (ε : Type) (exit : ε → Nat) (b : Action ε),
        c.Performs e exit b → c.Performs s exit (do Action.walk move n; b) := by
  have h : Builds k σ (Draft.trail (.skip move) n s) _ :=
    trail_builds (fun _ _ _ hn hne => skip_wires move hn (.inr (.inl hne))) n hl hw
  simp only [Action.iterate_walk] at h
  exact h

/-! ## Scans -/

/-- A scan finds a symbol, overwrites it and moves on. -/
theorem scan_wires {s symbol output next : Nat} (move then_ : Direction) (hself : σ.Target k s)
    (hinner : σ.Ensures (·.Inner s)) (hi : symbol ≤ Symbol.globalPointer)
    (ho : output ≤ Symbol.globalPointer) (hn : σ.Target k next) :
    Wires k σ s (Draft.scan move s ⟨symbol, output, then_, next⟩) (fun _ => next)
      (Action.find move symbol output then_) := by
  intro hl hw
  have hwf : (State.mk [⟨symbol, output, then_, next⟩] (.skip move s)).WellFormed (σ.Target k) := by
    refine .rules (.skip move hself) (by simp) fun r hr => ?_
    obtain rfl := List.mem_singleton.1 hr
    exact ⟨hi, .inl ho, hn⟩
  unfold Draft.scan Draft.setFallback Draft.addRules
  rw [Draft.rewire_rewire]
  have hne : State.mk [⟨symbol, output, then_, next⟩] (.skip move s) ≠ .unwired :=
    State.mk_ne_unwired (List.cons_ne_nil _ _)
  refine (rewire_builds _ hl hw hwf (.inl hne)).imp fun _ σ' he ⟨hc, hs⟩ => ⟨hc, fun c h => ?_⟩
  have hp := Machine.performs_search (hs c h) rfl (hinner.mono he c h)
  have ht : Action.take ⟨symbol, output, then_, next⟩ = Action.write output then_ :=
    Action.take_write (Symbol.ne_wildcard ho) then_ next
  rw [Action.take_skip, ht] at hp
  exact hp

/-! ## Tables of bytes -/

theorem Draft.mem_allBytes (b : Fin 256) : b ∈ Draft.allBytes := List.mem_finRange b

theorem Draft.nodup_allBytes : Draft.allBytes.Nodup := List.nodup_finRange 256

/-- A list with an entry for every byte is a table. -/
theorem exists_byteRules {P : Fin 256 → Transition → Prop} {rules : List Transition}
    (h : List.Forall₂ P Draft.allBytes rules) :
    ∃ rule, rules = Draft.byteRules rule ∧ ∀ b, P b (rule b) := by
  have hlen : rules.length = 256 := by
    rw [← h.length_eq, Draft.allBytes, List.length_finRange]
  refine ⟨fun b => rules[b], ?_, fun b => ?_⟩
  · refine List.ext_getElem ?_ fun i h₁ h₂ => ?_
    · simp [Draft.byteRules, Draft.allBytes, hlen]
    · simp [Draft.byteRules, Draft.allBytes]
  · have hget := (List.forall₂_iff_get.1 h).2 b (by simp [Draft.allBytes]) (by omega)
    simpa [Draft.allBytes] using hget

theorem nodup_input_byteRules {rule : Fin 256 → Transition} (hr : ∀ b, (rule b).input = b) :
    ((Draft.byteRules rule).map (·.input)).Nodup := by
  have hmap : (Draft.byteRules rule).map (·.input) = Draft.allBytes.map Fin.val := by
    rw [Draft.byteRules, List.map_map]
    exact List.map_congr_left fun b _ => hr b
  rw [hmap]
  exact Draft.nodup_allBytes.map Fin.val_injective

theorem mem_byteRules {rule : Fin 256 → Transition} {r : Transition} :
    r ∈ Draft.byteRules rule ↔ ∃ b, rule b = r := by
  simp [Draft.byteRules, Draft.mem_allBytes]

/-- A table with a transition for every byte, added to a state that rejects everything else. -/
theorem byteRules_wires {s : Nat} {out next : Fin 256 → Nat} (move : Direction)
    (hout : ∀ b, out b ≤ Symbol.globalPointer) (hn : ∀ b, σ.Target k (next b)) :
    Wires k σ s (Draft.addRules s (Draft.byteRules fun b => ⟨b, out b, move, next b⟩)) next
      (Action.byte out move) := by
  intro hl hw
  let rules := Draft.byteRules fun b => ⟨b, out b, move, next b⟩
  have hd : (rules.map (·.input)).Nodup := nodup_input_byteRules fun _ => rfl
  have hwf : (State.mk rules State.unwired.fallback).WellFormed (σ.Target k) := by
    refine .rules (.unwired (.reject rfl)) hd fun r hr => ?_
    obtain ⟨b, rfl⟩ := mem_byteRules.1 hr
    refine ⟨?_, .inl (hout b), hn b⟩
    simp only [Symbol.globalPointer]
    omega
  have hrules : rules ≠ [] := List.ne_nil_of_mem (mem_byteRules.2 ⟨0, rfl⟩)
  refine (rewire_builds _ hl hw hwf (.inl (State.mk_ne_unwired hrules))).imp
    fun _ σ' _ ⟨hc, hs⟩ => ⟨hc, fun c h => ?_⟩
  have hst : c.machine.states[s]? = some ⟨rules, State.unwired.fallback⟩ := hs c h
  refine Machine.performs_byte hst (fun b => Symbol.ne_wildcard (hout b)) (fun b => ?_) ?_
  · have hmem : Transition.mk b (out b) move (next b) ∈ rules := mem_byteRules.2 ⟨b, rfl⟩
    exact State.lookup_of_mem (s := ⟨rules, State.unwired.fallback⟩) hd hmem
  · intro v hv
    refine congrArg Transition.next (State.lookup_of_forall_ne fun r (hr : r ∈ rules) he => ?_)
    obtain ⟨b, rfl⟩ := mem_byteRules.1 hr
    have : (b : Nat) = v := he
    omega

/-- A branch takes up a byte and goes on with the arm that was built for it. -/
theorem branch_wires {s : Nat} {arm : Fin 256 → DraftM Transition} {out : Fin 256 → Nat}
    {move : Direction} {exit : ε → Nat} {f : Fin 256 → Action ε}
    (hout : ∀ b, out b ≤ Symbol.globalPointer)
    (harm : ∀ b σ', σ.Evolves k σ' → Builds k σ' (arm b) fun r σ'' =>
      σ'.Changes nothing nothing σ'' ∧ r = ⟨b, out b, move, r.next⟩ ∧ σ''.Target k r.next ∧
        σ''.Ensures fun c => c.Inner r.next ∧ c.Performs r.next exit (f b)) :
    Wires k σ s (Draft.branch s arm) exit (do let b ← Action.byte out move; f b) := by
  intro hl hw
  let R : Fin 256 → Transition → Stage → Prop := fun b r σ' =>
    r = ⟨b, out b, move, r.next⟩ ∧ σ'.Target k r.next ∧
      σ'.Ensures fun c => c.Inner r.next ∧ c.Performs r.next exit (f b)
  have hmono : ∀ b r σ₁ σ₂, σ₁.Evolves k σ₂ → R b r σ₁ → R b r σ₂ :=
    fun b r σ₁ σ₂ he ⟨h₁, h₂, h₃⟩ => ⟨h₁, h₂.mono he, h₃.mono he⟩
  have htrans : ∀ σ₁ σ₂, σ.Evolves k σ₁ → σ₁.Evolves k σ₂ → σ.Changes nothing nothing σ₁ →
      σ₁.Changes nothing nothing σ₂ → σ.Changes nothing nothing σ₂ := fun σ₁ σ₂ he _ hc₁ hc₂ =>
    hc₁.trans hc₂ he.size_le (fun _ _ => by simp) (fun _ => by simp)
  refine (Builds.mapM Draft.allBytes (Stage.Changes nothing nothing) R (.refl σ) htrans hmono
    fun b _ σ' he => harm b σ' he).bind fun rules σ₁ he₁ ⟨hc₁, hr⟩ => ?_
  obtain ⟨rule, rfl, hrule⟩ := exists_byteRules hr
  obtain ⟨hl₁, hw₁⟩ := hc₁.keep hl hw id
  have hrules : Draft.byteRules rule =
      Draft.byteRules fun b => ⟨b, out b, move, (rule b).next⟩ :=
    congrArg Draft.byteRules (funext fun b => (hrule b).1)
  rw [hrules]
  refine (byteRules_wires move hout (fun b => (hrule b).2.1) hl₁ hw₁).imp
    fun _ σ₂ he₂ ⟨hc₂, hp⟩ => ⟨?_, fun c h => ?_⟩
  · exact hc₁.trans hc₂ he₁.size_le (fun _ _ => by simp) (fun _ => by simp)
  · have harms : ∀ b, c.Inner (rule b).next ∧ c.Performs (rule b).next exit (f b) :=
      fun b => (hrule b).2.2.mono he₂ c h
    exact (hp c h).bind (fun b => (harms b).1) fun b => (harms b).2

/-! ## Chains -/

/-- A chain performs what its links perform, one after the other. -/
theorem chain_wires {entry exit count : Nat} {link : Nat → Nat → Nat → DraftM Unit}
    {act : Nat → Action Unit} (hcount : 0 < count) (hexit : σ.Target k exit)
    (hlink : ∀ i s next σ', σ.Evolves k σ' → σ'.Target k next →
      Wires k σ' s (link i s next) (fun _ => next) (act i)) :
    Wires k σ entry (Draft.chain count entry exit link) (fun _ => exit)
      (Action.sequence act count 0) := by
  suffices h : ∀ (n i s : Nat) (σ' : Stage), σ.Evolves k σ' →
      Wires k σ' s (Draft.chain.go exit link (n + 1) i s) (fun _ => exit)
        (Action.sequence act (n + 1) i) by
    obtain ⟨n, rfl⟩ : ∃ n, count = n + 1 := ⟨count - 1, by omega⟩
    exact h n 0 entry σ (.refl k σ)
  intro n
  induction n with
  | zero =>
    intro i s σ' he
    have hone : Action.sequence act 1 i = act i := Action.bind_pure_self (act i)
    rw [hone]
    exact hlink i s exit σ' he (hexit.mono he)
  | succ n ih =>
    intro i s σ' he hl hw
    refine fresh_builds.bind fun next σ₁ he₁ h₁ => ?_
    have hsize := h₁.eq_size
    have hlt : s < σ'.size := σ'.live_lt hl
    obtain ⟨hl₁, hw₁⟩ := h₁.changes.keep hl hw id
    refine (hlink i s next σ₁ (he.trans he₁) h₁.target hl₁ hw₁).bind fun _ σ₂ he₂ ⟨hc₂, hp₂⟩ => ?_
    have hc : σ'.Changes (only s) (only next) σ₂ :=
      h₁.changes.wire hc₂ he₁.size_le (by omega)
    obtain ⟨hl₂, hw₂⟩ := hc.opened (s := next) rfl
    refine (ih (i + 1) next σ₂ ((he.trans he₁).trans he₂) hl₂ hw₂).imp
      fun _ σ₃ he₃ ⟨hc₃, hp₃⟩ => ⟨?_, fun c h => ?_⟩
    · exact hc.replace hc₃ (he₁.trans he₂).size_le (by omega)
    · have hinner : c.Inner next := h₁.inner.mono (he₂.trans he₃) c h
      exact (hp₂.mono he₃ c h).bind (fun _ => hinner) fun _ => hp₃ c h

/-! ## Joining patterns -/

theorem Wires.map {s : Nat} {x : DraftM Unit} {α : Type} {mid : α → Nat} {exit : ε → Nat}
    {a : Action α} (f : α → ε) (h : Wires k σ s x mid a) (hf : ∀ e, mid e = exit (f e)) :
    Wires k σ s x exit (do return f (← a)) :=
  fun hl hw => (h hl hw).imp fun _ _ _ ⟨hc, hp⟩ => ⟨hc, fun c h => (hp c h).map hf⟩

/-- All exits are the same state. -/
theorem Wires.forget {s next : Nat} {x : DraftM Unit} {a : Action ε}
    (h : Wires k σ s x (fun _ => next) a) :
    Wires k σ s x (fun _ : Unit => next) (do let _ ← a; return ()) :=
  h.map (fun _ => ()) fun _ => rfl

/-- A new state between two patterns. -/
theorem fresh_wires {s : Nat} {x y : Nat → DraftM Unit} {exit : ε → Nat} {a : Action Unit}
    {b : Action ε}
    (hx : ∀ e σ', σ.Evolves k σ' → σ'.Target k e → Wires k σ' s (x e) (fun _ => e) a)
    (hy : ∀ e σ', σ.Evolves k σ' → σ'.Target k e → σ'.Ensures (·.Inner e) →
      Wires k σ' e (y e) exit b) :
    Wires k σ s (do let e ← Draft.fresh; x e; y e) exit (do a; b) := by
  intro hl hw
  refine fresh_builds.bind fun e σ₁ he₁ h₁ => ?_
  have hsize := h₁.eq_size
  have hlt : s < σ.size := σ.live_lt hl
  obtain ⟨hl₁, hw₁⟩ := h₁.changes.keep hl hw id
  refine (hx e σ₁ he₁ h₁.target hl₁ hw₁).bind fun _ σ₂ he₂ ⟨hc₂, hp₂⟩ => ?_
  have hc : σ.Changes (only s) (only e) σ₂ :=
    h₁.changes.wire hc₂ he₁.size_le (by omega)
  obtain ⟨hl₂, hw₂⟩ := hc.opened (s := e) rfl
  refine (hy e σ₂ (he₁.trans he₂) (h₁.target.mono he₂) (h₁.inner.mono he₂) hl₂ hw₂).imp
    fun _ σ₃ he₃ ⟨hc₃, hp₃⟩ => ⟨?_, fun c h => ?_⟩
  · exact hc.replace hc₃ (he₁.trans he₂).size_le (by omega)
  · have hinner : c.Inner e := h₁.inner.mono (he₂.trans he₃) c h
    exact (hp₂.mono he₃ c h).bind (fun _ => hinner) fun _ => hp₃ c h

/-- A pattern after a walk. -/
theorem walk_wires {s : Nat} (move : Direction) (n : Nat) {x : Nat → DraftM Unit}
    {exit : ε → Nat} {a : Action ε} (hx : ∀ e σ', σ.Evolves k σ' → Wires k σ' e (x e) exit a) :
    Wires k σ s (do let e ← Draft.walk move n s; x e) exit (do Action.walk move n; a) := by
  intro hl hw
  refine (walk_builds move n hl hw).bind fun e σ₁ he₁ ⟨hc₁, hnew, hp₁⟩ => ?_
  obtain ⟨hl₁, hw₁⟩ := hc₁.opened (s := e) rfl
  refine (hx e σ₁ he₁ hl₁ hw₁).imp fun _ σ₂ he₂ ⟨hc₂, hp₂⟩ => ⟨?_, fun c h => ?_⟩
  · exact hc₁.replace hc₂ he₁.size_le (by omega)
  · exact hp₁.mono he₂ c h ε exit a (hp₂ c h)

/-- An arm of a branch that begins in a new state. -/
theorem arm_builds (input output : Nat) (move : Direction) {x : Nat → DraftM Unit}
    {exit : ε → Nat} {a : Action ε}
    (hx : ∀ e σ', σ.Evolves k σ' → σ'.Target k e → σ'.Ensures (·.Inner e) →
      Wires k σ' e (x e) exit a) :
    Builds k σ
      (do let e ← Draft.fresh; x e; return (⟨input, output, move, e⟩ : Transition))
      fun r σ' => σ.Changes nothing nothing σ' ∧ r = ⟨input, output, move, r.next⟩ ∧
        σ'.Target k r.next ∧ σ'.Ensures fun c => c.Inner r.next ∧ c.Performs r.next exit a := by
  refine fresh_builds.bind fun e σ₁ he₁ h₁ => ?_
  have hsize := h₁.eq_size
  obtain ⟨hl₁, hw₁⟩ := h₁.changes.opened (s := e) rfl
  refine (hx e σ₁ he₁ h₁.target h₁.inner hl₁ hw₁).bind fun _ σ₂ he₂ ⟨hc₂, hp₂⟩ => .pure ?_
  refine ⟨?_, rfl, h₁.target.mono he₂, fun c h => ⟨h₁.inner.mono he₂ c h, hp₂ c h⟩⟩
  exact h₁.changes.replace hc₂ he₁.size_le (by omega)

/-! ## Rows of states -/

/-- The states of a row. -/
abbrev Block.Mem {n : Nat} (block : Block n) : Nat → Prop := fun id =>
  block.first ≤ id ∧ id < block.first + n

/-- From a stage in which the states of a row are live and not wired, a construction wires them,
closes all states that it has handed out itself, and lets each perform an action of its own. -/
def WiresRow {n : Nat} (k : Scope) (σ : Stage) (block : Block n) (x : DraftM Unit)
    (exit : ε → Nat) (a : Fin n → Action ε) : Prop :=
  (∀ i : Fin n, σ.live (block.first + i) ∧ σ.wiring (block.first + i) = some .unwired) →
    Builds k σ x fun _ σ' => σ.Changes block.Mem nothing σ' ∧
      σ'.Ensures fun c => ∀ i : Fin n, c.Performs (block.first + i) exit (a i)

/-- A loop over a row each step of which closes a state of the row. -/
theorem forM_row_builds {n : Nat} {block : Block n} {x : Fin n → DraftM Unit}
    (fact : Fin n → Compilation → Prop)
    (hrow : ∀ i : Fin n, σ.live (block.first + i) ∧ σ.wiring (block.first + i) = some .unwired)
    (hx : ∀ (i : Fin n) σ', σ.Evolves k σ' → σ'.live (block.first + i) →
      σ'.wiring (block.first + i) = some .unwired → Builds k σ' (x i) fun _ σ'' =>
        σ'.Changes (only (block.first + i)) nothing σ'' ∧ σ''.Ensures (fact i)) :
    Builds k σ ((List.finRange n).forM x) fun _ σ' => σ.Changes block.Mem nothing σ' ∧
      σ'.Ensures fun c => ∀ i, fact i c := by
  have hnodup : ((List.finRange n).map fun i : Fin n => block.first + i.val).Nodup :=
    (List.nodup_finRange n).map fun i j h => Fin.ext (Nat.add_left_cancel h)
  refine (Builds.forM_close (List.finRange n) _ fact hnodup (fun i _ => hrow i)
    fun i _ σ' he hl hw => hx i σ' he hl hw).imp fun _ σ' _ ⟨⟨h₁, h₂, h₃, h₄⟩, hp⟩ => ?_
  have hmem : ∀ id, id ∈ (List.finRange n).map (fun i : Fin n => block.first + i.val) ↔
      block.Mem id := by
    intro id
    simp only [List.mem_map, List.mem_finRange, true_and]
    constructor
    · rintro ⟨i, rfl⟩
      exact ⟨by omega, by omega⟩
    · rintro ⟨h₁, h₂⟩
      exact ⟨⟨id - block.first, by omega⟩, by simp only; omega⟩
  simp only [hmem] at h₂ h₃
  exact ⟨⟨h₁, h₂, h₃, h₄⟩, fun c h i => hp c h i (List.mem_finRange i)⟩

/-- A loop over a row. -/
theorem forM_wiresRow {n : Nat} {block : Block n} {x : Fin n → DraftM Unit} {exit : ε → Nat}
    {a : Fin n → Action ε}
    (hx : ∀ (i : Fin n) σ', σ.Evolves k σ' → Wires k σ' (block.first + i) (x i) exit (a i)) :
    WiresRow k σ block ((List.finRange n).forM x) exit a :=
  fun hrow => forM_row_builds _ hrow hx

/-- A state and a new row that it leads to are wired, one after the other. -/
theorem freshBlock_row_builds {n s : Nat} {x y : Block n → DraftM Unit} {α : Type}
    {mid : Block n → α → Nat} {exit : Block n → ε → Nat} {a : Action α} {b : Fin n → Action ε}
    (hx : ∀ (row : Block n) σ', σ.Evolves k σ' → (∀ i : Fin n, σ'.Target k (row.first + i)) →
      Wires k σ' s (x row) (mid row) a)
    (hy : ∀ (row : Block n) σ', σ.Evolves k σ' → (∀ i : Fin n, σ'.Target k (row.first + i)) →
      (∀ i : Fin n, σ'.Ensures (·.Inner (row.first + i))) → WiresRow k σ' row (y row) (exit row) b)
    (hl : σ.live s) (hw : σ.wiring s = some .unwired) :
    Builds k σ (do let row ← Draft.freshBlock n; x row; y row) fun _ σ' =>
      σ.Changes (only s) nothing σ' ∧ ∃ row : Block n, σ'.Ensures fun c =>
        c.Performs s (mid row) a ∧ ∀ i : Fin n,
          c.Inner (row.first + i) ∧ c.Performs (row.first + i) (exit row) (b i) := by
  refine (freshBlock_builds n).bind fun row σ₁ he₁ h₁ => ?_
  have hfirst := h₁.first_eq
  have hlt : s < σ.size := σ.live_lt hl
  obtain ⟨hl₁, hw₁⟩ := h₁.changes.keep hl hw id
  have ht₁ : ∀ i : Fin n, σ₁.Target k (row.first + i) := fun i => h₁.target i i.isLt
  refine (hx row σ₁ he₁ ht₁ hl₁ hw₁).bind fun _ σ₂ he₂ ⟨hc₂, hp₂⟩ => ?_
  have hc : σ.Changes (only s) row.Mem σ₂ := h₁.changes.wire hc₂ he₁.size_le (by omega)
  have hi₁ : ∀ i : Fin n, σ₂.Ensures (·.Inner (row.first + i)) :=
    fun i => (h₁.inner i i.isLt).mono he₂
  refine (hy row σ₂ (he₁.trans he₂) (fun i => (ht₁ i).mono he₂) hi₁
    fun i => hc.opened ⟨by omega, by omega⟩).imp
      fun _ σ₃ he₃ ⟨hc₃, hp₃⟩ => ⟨?_, row, fun c h => ⟨hp₂.mono he₃ c h, fun i => ?_⟩⟩
  · exact hc.replace hc₃ (he₁.trans he₂).size_le (by omega)
  · exact ⟨(hi₁ i).mono he₃ c h, hp₃ c h i⟩

/-- A new row between a state and the rest. -/
theorem freshBlock_wires {n s : Nat} {x y : Block n → DraftM Unit} {exit : ε → Nat}
    {a : Action (Fin n)} {b : Fin n → Action ε}
    (hx : ∀ (row : Block n) σ', σ.Evolves k σ' → (∀ i : Fin n, σ'.Target k (row.first + i)) →
      Wires k σ' s (x row) (fun i : Fin n => row.first + i) a)
    (hy : ∀ (row : Block n) σ', σ.Evolves k σ' → (∀ i : Fin n, σ'.Target k (row.first + i)) →
      (∀ i : Fin n, σ'.Ensures (·.Inner (row.first + i))) → WiresRow k σ' row (y row) exit b) :
    Wires k σ s (do let row ← Draft.freshBlock n; x row; y row) exit (do let i ← a; b i) := by
  intro hl hw
  refine (freshBlock_row_builds hx hy hl hw).imp fun _ σ' _ ⟨hc, row, hp⟩ => ⟨hc, fun c h => ?_⟩
  obtain ⟨hs, hrow⟩ := hp c h
  exact hs.bind (fun i => (hrow i).1) fun i => (hrow i).2

/-- A new row between a row and the rest. -/
theorem freshBlock_wiresRow {m n : Nat} {block : Block m} {x y : Block n → DraftM Unit}
    {exit : ε → Nat} {a : Fin m → Action (Fin n)} {b : Fin n → Action ε}
    (hx : ∀ (row : Block n) σ', σ.Evolves k σ' → (∀ i : Fin n, σ'.Target k (row.first + i)) →
      WiresRow k σ' block (x row) (fun i : Fin n => row.first + i) a)
    (hy : ∀ (row : Block n) σ', σ.Evolves k σ' → WiresRow k σ' row (y row) exit b) :
    WiresRow k σ block (do let row ← Draft.freshBlock n; x row; y row) exit
      fun i => (do let j ← a i; b j) := by
  intro hrow
  refine (freshBlock_builds n).bind fun row σ₁ he₁ h₁ => ?_
  have hfirst := h₁.first_eq
  have hlt : ∀ i : Fin m, block.first + i < σ.size := fun i => σ.live_lt (hrow i).1
  have hblock : ∀ id, block.Mem id → id < σ.size := by
    intro id hid
    have := hlt ⟨id - block.first, by omega⟩
    simp only at this
    omega
  have ht₁ : ∀ i : Fin n, σ₁.Target k (row.first + i) := fun i => h₁.target i i.isLt
  refine (hx row σ₁ he₁ ht₁ fun i => h₁.changes.keep (hrow i).1 (hrow i).2 id).bind
    fun _ σ₂ he₂ ⟨hc₂, hp₂⟩ => ?_
  have hc : σ.Changes block.Mem row.Mem σ₂ := by
    refine h₁.changes.wire hc₂ he₁.size_le fun id hid hmem => ?_
    have := hblock id hmem
    omega
  refine (hy row σ₂ (he₁.trans he₂) fun i => hc.opened ⟨by omega, by omega⟩).imp
    fun _ σ₃ he₃ ⟨hc₃, hp₃⟩ => ⟨?_, fun c h i => ?_⟩
  · exact hc.replace hc₃ (he₁.trans he₂).size_le (by omega)
  · exact (hp₂.mono he₃ c h i).bind (fun j => (h₁.inner j j.isLt).mono (he₂.trans he₃) c h)
      fun j => hp₃ c h j

end StackTape
