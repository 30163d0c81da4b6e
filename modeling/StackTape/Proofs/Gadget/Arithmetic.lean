import StackTape.Proofs.Gadget.Stack

/-!
# What the gadgets that compute perform

Sums and differences are wired column by column. While a column is built, the states that stand for
the carry collect one transition after the other, so a loop invariant says which bytes they have a
transition for. Bitwise operations and shifts are chains of tables.
-/

namespace StackTape

open Stage

namespace Action

/-- Combine the byte under the head, which is cleared, with the one `distance` cells below it. The
exit tells whether there is a carry. -/
def column (distance : Nat) (f : Nat → Nat → Nat → Gadget.Column) (carry : Nat) : Action Bool := do
  let top ← byte (fun _ => 0) .left
  walk .left (distance - 1)
  let lower ← byte (fun lower => (f top lower carry).result) .right
  return (f top lower carry).carries

def columns (distance : Nat) (f : Nat → Nat → Nat → Gadget.Column) :
    (remaining : Nat) → (carry : Nat) → Action Unit
  | 0, _ => pure ()
  | 1, carry => do
    let _ ← column distance f carry
    return ()
  | remaining + 2, carry => do
    let carries ← column distance f carry
    walk .right distance
    columns distance f (remaining + 1) carries.toNat

def carryChain (w : Width) (f : Nat → Nat → Nat → Gadget.Column) : Action Unit := do
  walk .left w.bytes
  columns w.bytes f w.bytes 0

/-- Combine the byte under the head, which is cleared, with the one a value's width below it. -/
def combineByte (w : Width) (op : Nat → Nat → Nat) : Action Unit := do
  let top ← byte (fun _ => 0) .left
  walk .left (w.bytes - 1)
  let _ ← byte (fun lower => op top lower) .right
  return ()

def bitwise (w : Width) (op : Nat → Nat → Nat) : Action Unit := do
  walk .left 1
  if w = .w8 then combineByte w op
  else
    iterate (do combineByte w op; walk .right (w.bytes - 2)) w.bytes
    walk .right 1

def binary (op : BinOp) (w : Width) : Action Unit :=
  match op with
  | .add => carryChain w Gadget.addColumn
  | .sub => carryChain w Gadget.subColumn
  | .and => bitwise w (· &&& ·)
  | .or => bitwise w (· ||| ·)
  | .xor => bitwise w (· ^^^ ·)

def shiftColumns (amount : Nat) : (remaining : Nat) → (below : Fin 256) → Action Unit
  | 0, below => do
    let _ ← byte (fun v => Gadget.shiftByte amount below v) .right
    return ()
  | remaining + 1, below => do
    let v ← byte (fun v => Gadget.shiftByte amount below v) .right
    shiftColumns amount remaining v

def indexShift (amount : Nat) : Action Unit := do
  walk .left 4
  let v ← byte (fun v => v.val <<< amount % 256) .right
  shiftColumns amount 2 v

end Action

namespace Gadget

variable {k : Scope} {σ : Stage} {entry exit : Nat}

/-! ## Shifts -/

theorem shiftByte_lt (amount below v : Nat) : shiftByte amount below v < 256 :=
  Nat.or_lt_two_pow (n := 8) (Nat.mod_lt _ (by decide)) (Nat.mod_lt _ (by decide))

theorem shiftColumns_wires (amount remaining : Nat) (carried : Block 256) (he : σ.Target k exit) :
    WiresRow k σ carried (shiftColumns amount exit remaining carried) (fun _ => exit)
      (Action.shiftColumns amount remaining) := by
  induction remaining generalizing σ carried with
  | zero =>
    exact forM_wiresRow fun below σ₁ he₁ => (byteRules_wires .right
      (fun v => Symbol.byte_le (shiftByte_lt amount below v)) fun _ => he.mono he₁).forget
  | succ remaining ih =>
    refine freshBlock_wiresRow (fun next σ₁ _ hnext => ?_) fun next σ₁ he₁ => ih next (he.mono he₁)
    exact forM_wiresRow fun below σ₂ he₂ => byteRules_wires .right
      (fun v => Symbol.byte_le (shiftByte_lt amount below v)) fun v => (hnext v).mono he₂

theorem indexShift_wires (amount : Nat) (he : σ.Target k exit) :
    Wires k σ entry (indexShift amount entry exit) (fun _ => exit) (.indexShift amount) := by
  refine walk_wires .left 4 fun lowest σ₁ he₁ => ?_
  refine freshBlock_wires (fun carried σ₂ _ hcarried => ?_) fun carried σ₂ he₂ _ _ => ?_
  · exact byteRules_wires .right (fun v => Symbol.byte_le (Nat.mod_lt _ (by decide))) hcarried
  · exact shiftColumns_wires amount 2 carried (he.mono (he₁.trans he₂))

/-! ## Bitwise operations -/

section Bitwise

variable {op : Nat → Nat → Nat} (hop : ∀ a b, a < 256 → b < 256 → op a b < 256)

include hop in
theorem combineByte_wires {s : Nat} (w : Width) {merge : Nat} (hm : σ.Target k merge) :
    Wires k σ s
      (Draft.branch s fun top => do
        let split ← Draft.fresh
        let cell ← Draft.walk .left (w.bytes - 1) split
        Draft.addRules cell (Draft.byteRules fun lower => ⟨lower, op top lower, .right, merge⟩)
        return ⟨top, 0, .left, split⟩)
      (fun _ => merge) (.combineByte w op) := by
  refine branch_wires (fun _ => Nat.zero_le _) fun top σ₁ he₁ => ?_
  have harm := arm_builds (k := k) (σ := σ₁) top 0 .left fun split σ₂ he₂ _ _ =>
    walk_wires .left (w.bytes - 1) fun cell σ₃ he₃ =>
      (byteRules_wires .right
        (fun lower => Symbol.byte_le (hop top lower top.isLt lower.isLt))
        fun _ => hm.mono (he₁.trans (he₂.trans he₃))).forget
  simpa only [bind_assoc] using harm

include hop in
theorem bitColumns_builds {w : Width} (hw8 : w ≠ .w8) (remaining : Nat) {s : Nat}
    (hl : σ.live s) (hw : σ.wiring s = some .unwired) :
    Builds k σ (bitColumns w op exit remaining s) fun e σ' => σ.Changes (only s) (only e) σ' ∧
      (e = s ∨ σ.size ≤ e) ∧ σ'.Ensures fun c => ∀ (ε : Type) (out : ε → Nat) (b : Action ε),
        c.Performs e out b → c.Performs s out (do
          Action.iterate (do Action.combineByte w op; Action.walk .right (w.bytes - 2)) remaining
          b) := by
  induction remaining generalizing σ s with
  | zero =>
    refine .pure ⟨⟨fun _ => rfl, fun _ _ _ => rfl, fun id => ?_, ?_⟩, .inl rfl, ?_⟩
    · by_cases h : id = s
      · simp [only, h, hl]
      · simp [only, h]
    · rintro id rfl
      exact hw
    · intro c _ ε out b hb
      exact hb
  | succ remaining ih =>
    unfold bitColumns
    rw [if_neg hw8]
    have hlt : s < σ.size := σ.live_lt hl
    refine fresh_builds.bind fun merge σ₁ he₁ h₁ => ?_
    have hsize := h₁.eq_size
    obtain ⟨hl₁, hw₁⟩ := h₁.changes.keep hl hw id
    refine (combineByte_wires hop w h₁.target hl₁ hw₁).bind fun _ σ₂ he₂ ⟨hc₂, hp₂⟩ => ?_
    have hc : σ.Changes (only s) (only merge) σ₂ :=
      h₁.changes.wire hc₂ he₁.size_le (by omega)
    obtain ⟨hl₂, hw₂⟩ := hc.opened (s := merge) rfl
    refine (walk_builds .right (w.bytes - 2) hl₂ hw₂).bind
      fun next σ₃ he₃ ⟨hc₃, hnew₃, hp₃⟩ => ?_
    have hs₂ := (he₁.trans he₂).size_le
    have hc' : σ.Changes (only s) (only next) σ₃ := by
      exact hc.replace hc₃ hs₂ (by omega)
    obtain ⟨hl₃, hw₃⟩ := hc'.opened (s := next) rfl
    refine (ih hl₃ hw₃).imp fun e σ₄ he₄ ⟨hc₄, hnew₄, hp₄⟩ => ⟨?_, ?_, ?_⟩
    · exact hc'.replace hc₄ (Nat.le_trans hs₂ he₃.size_le) (by omega)
    · have := he₃.size_le
      omega
    · intro c h ε out b hb
      have hmerge : c.Inner merge := h₁.inner.mono (he₂.trans (he₃.trans he₄)) c h
      have hrest := hp₃.mono he₄ c h ε out _ (hp₄ c h ε out b hb)
      have hall := (hp₂.mono (he₃.trans he₄) c h).bind (fun _ => hmerge) fun _ => hrest
      simp only [Action.iterate, bind_assoc]
      exact hall

include hop in
theorem bitwise_wires (w : Width) (he : σ.Target k exit) :
    Wires k σ entry (bitwise w op entry exit) (fun _ => exit) (.bitwise w op) := by
  refine fresh_wires (fun _ _ _ ht => skip_wires .left ht (.inl nofun)) fun top σ₁ he₁ _ _ => ?_
  by_cases hw8 : w = .w8
  · subst hw8
    -- a single byte leaves by the exit itself, and nothing is left to be wired
    have hone : (do
        let last ← bitColumns .w8 op exit (Width.bytes .w8) top
        if Width.w8 ≠ .w8 then Draft.setFallback last (.skip .right exit)) =
        Draft.branch top fun v => do
          let split ← Draft.fresh
          let cell ← Draft.walk .left (Width.bytes .w8 - 1) split
          Draft.addRules cell (Draft.byteRules fun lower => ⟨lower, op v lower, .right, exit⟩)
          return ⟨v, 0, .left, split⟩ := by
      simp [bitColumns, Width.bytes, Draft.walk, Draft.trail]
    rw [hone, if_pos rfl]
    exact combineByte_wires hop .w8 (he.mono he₁)
  · intro hl hw
    rw [if_neg hw8]
    refine (bitColumns_builds hop hw8 w.bytes hl hw).bind fun last σ₂ he₂ ⟨hc₂, hnew, hp₂⟩ => ?_
    rw [if_pos hw8]
    obtain ⟨hl₂, hw₂⟩ := hc₂.opened (s := last) rfl
    refine (skip_wires .right (he.mono (he₁.trans he₂)) (.inl nofun) hl₂ hw₂).imp
      fun _ σ₃ he₃ ⟨hc₃, hp₃⟩ => ⟨?_, fun c h => ?_⟩
    · exact hc₂.replace hc₃ he₂.size_le (by omega)
    · exact hp₂.mono he₃ c h _ _ _ (hp₃ c h)

end Bitwise

/-! ## Sums and differences -/

section Columns

variable {f : Nat → Nat → Nat → Column} (hf : ∀ top lower carry, (f top lower carry).result < 256)

/-- What a column performs once the top byte is known. -/
def lowerHalf (distance : Nat) (f : Nat → Nat → Nat → Column) (carry : Nat) (top : Fin 256) :
    Action Bool := do
  Action.walk .left (distance - 1)
  let lower ← Action.byte (fun lower => (f top lower carry).result) .right
  return (f top lower carry).carries

/-- A transition that has been collected for a top byte. -/
def Collected (k : Scope) (distance : Nat) (f : Nat → Nat → Nat → Column) (plain carried : Nat)
    (carry : Nat) (σ : Stage) (top : Fin 256) (r : Transition) : Prop :=
  r = ⟨top, 0, .left, r.next⟩ ∧ σ.Target k r.next ∧ σ.Ensures fun c => c.Inner r.next ∧
    c.Performs r.next (fun b : Bool => if b then carried else plain)
      (lowerHalf distance f carry top)

/-- A live state that has collected transitions for the bytes of a list. -/
def Collecting (k : Scope) (distance : Nat) (f : Nat → Nat → Nat → Column) (plain carried : Nat)
    (tops : List (Fin 256)) (source : Nat × Nat) (σ : Stage) : Prop :=
  σ.live source.1 ∧ ∃ rules, σ.wiring source.1 = some ⟨rules, State.unwired.fallback⟩ ∧
    List.Forall₂ (Collected k distance f plain carried source.2 σ) tops rules

/-- Only the sources and new states differ, and the sources stay live. -/
structure Frames (sources : List (Nat × Nat)) (σ σ' : Stage) : Prop where
  entry : ∀ q, σ'.entry q = σ.entry q
  wiring : ∀ id, id < σ.size → id ∉ sources.map Prod.fst → σ'.wiring id = σ.wiring id
  live : ∀ id, σ'.live id ↔ σ.live id

variable {distance plain carried : Nat}

theorem Collecting.mono {tops : List (Fin 256)} {source : Nat × Nat} {σ' : Stage}
    (h : Collecting k distance f plain carried tops source σ) (he : σ.Evolves k σ')
    (hl : σ'.live source.1) (hw : σ'.wiring source.1 = σ.wiring source.1) :
    Collecting k distance f plain carried tops source σ' := by
  obtain ⟨-, rules, hrules, hall⟩ := h
  exact ⟨hl, rules, hw.trans hrules, hall.imp fun _ _ ⟨h₁, h₂, h₃⟩ => ⟨h₁, h₂.mono he, h₃.mono he⟩⟩

theorem Frames.trans {sources : List (Nat × Nat)} {σ₁ σ₂ σ₃ : Stage} (h₁ : Frames sources σ₁ σ₂)
    (h₂ : Frames sources σ₂ σ₃) (hle : σ₁.size ≤ σ₂.size) : Frames sources σ₁ σ₃ where
  entry q := (h₂.entry q).trans (h₁.entry q)
  wiring id hlt hid := by
    rw [h₂.wiring id (Nat.lt_of_lt_of_le hlt hle) hid, h₁.wiring id hlt hid]
  live id := (h₂.live id).trans (h₁.live id)

include hf in
/-- One source collects one more transition. -/
theorem collect_builds {tops : List (Fin 256)} {top : Fin 256} {source : Nat × Nat}
    (hp : σ.Target k plain) (hc : σ.Target k carried)
    (h : Collecting k distance f plain carried tops source σ) :
    Builds k σ
      (do
        let split ← Draft.fresh
        Draft.addRules source.1 [⟨top, 0, .left, split⟩]
        let cell ← Draft.walk .left (distance - 1) split
        Draft.addRules cell (Draft.byteRules fun lower =>
          let column := f top lower source.2
          ⟨lower, column.result, .right, if column.carries then carried else plain⟩))
      fun _ σ' => Frames [source] σ σ' ∧
        Collecting k distance f plain carried (tops ++ [top]) source σ' := by
  obtain ⟨s, carry⟩ := source
  obtain ⟨hl, rules, hw, hrules⟩ := h
  simp only at hl hw hrules
  have hlt : s < σ.size := σ.live_lt hl
  refine fresh_builds.bind fun split σ₁ he₁ h₁ => ?_
  have hsplit := h₁.eq_size
  obtain ⟨hl₁, hw₁⟩ := h₁.changes.keep hl hw id
  refine (rewire_edits _ hl₁ hw₁).bind fun _ σ₂ he₂ h₂ => ?_
  have hl₂ : σ₂.live split := (h₂.live split).2 (h₁.changes.opened rfl).1
  have hw₂ : σ₂.wiring split = some .unwired :=
    (h₂.wiring split (by omega)).trans (h₁.changes.opened rfl).2
  have hnext : ∀ σ' : Stage, σ₂.Evolves k σ' → ∀ lower : Fin 256, σ'.Target k
      (if (f top lower carry).carries = true then carried else plain) := by
    intro σ' he lower
    split
    · exact hc.mono (he₁.trans (he₂.trans he))
    · exact hp.mono (he₁.trans (he₂.trans he))
  have hhalf : Wires k σ₂ split
      (do
        let cell ← Draft.walk .left (distance - 1) split
        Draft.addRules cell (Draft.byteRules fun lower =>
          ⟨lower, (f top lower carry).result, .right,
            if (f top lower carry).carries then carried else plain⟩))
      (fun b : Bool => if b then carried else plain) (lowerHalf distance f carry top) :=
    walk_wires .left (distance - 1) fun cell σ₃ he₃ =>
      Wires.map (fun lower : Fin 256 => (f top lower carry).carries)
        (byteRules_wires .right (fun lower => Symbol.byte_le (hf top lower carry)) (hnext σ₃ he₃))
        fun _ => rfl
  refine (hhalf hl₂ hw₂).imp fun _ σ₃ he₃ ⟨hc₃, hp₃⟩ => ⟨⟨fun q => ?_, fun id hid hne => ?_,
    fun id => ?_⟩, ?_, rules ++ [⟨top, 0, .left, split⟩], ?_, ?_⟩
  · rw [hc₃.entry, h₂.entry, h₁.changes.entry]
  · have hs : id ≠ s := by simpa using hne
    have := he₁.size_le
    rw [hc₃.wiring id (by rw [h₂.size_eq]; omega) (by simp only [only]; omega), h₂.wiring id hs,
      h₁.changes.wiring id hid (fun h => h)]
  · rw [hc₃.live, h₂.live, h₁.changes.live]
    have : σ.live id → id < σ.size := σ.live_lt
    simp only [only, nothing, not_false_eq_true, and_true, or_false]
    constructor
    · rintro ⟨h | h, hne⟩
      · exact h
      · exact absurd h hne
    · intro h
      have := this h
      exact ⟨.inl h, by omega⟩
  · exact (hc₃.live s).2 (.inl ⟨(h₂.live s).2 hl₁, by simp only [only]; omega⟩)
  · have := he₁.size_le
    rw [hc₃.wiring s (by rw [h₂.size_eq]; omega) (by simp only [only]; omega), h₂.wiring_self]
  · have hmono : ∀ b r, Collected k distance f plain carried carry σ b r →
        Collected k distance f plain carried carry σ₃ b r := by
      rintro b r ⟨g₁, g₂, g₃⟩
      have he := he₁.trans (he₂.trans he₃)
      exact ⟨g₁, g₂.mono he, g₃.mono he⟩
    refine List.rel_append (hrules.imp hmono) (.cons ⟨rfl, ?_, fun c h => ⟨?_, hp₃ c h⟩⟩ .nil)
    · exact h₁.target.mono (he₂.trans he₃)
    · exact h₁.inner.mono (he₂.trans he₃) c h

include hf in
/-- Every source collects a transition for one top byte. -/
theorem collectRow_builds {tops : List (Fin 256)} (top : Fin 256) {sources : List (Nat × Nat)}
    (hnodup : (sources.map Prod.fst).Nodup) (hp : σ.Target k plain) (hc : σ.Target k carried)
    (h : ∀ p ∈ sources, Collecting k distance f plain carried tops p σ) :
    Builds k σ
      (sources.forM fun (source, carry) => do
        let split ← Draft.fresh
        Draft.addRules source [⟨top, 0, .left, split⟩]
        let cell ← Draft.walk .left (distance - 1) split
        Draft.addRules cell (Draft.byteRules fun lower =>
          let column := f top lower carry
          ⟨lower, column.result, .right, if column.carries then carried else plain⟩))
      fun _ σ' => Frames sources σ σ' ∧
        ∀ p ∈ sources, Collecting k distance f plain carried (tops ++ [top]) p σ' := by
  -- the sources that have had their turn are one byte ahead of the others
  let inv : List (Nat × Nat) → Stage → Prop := fun before σ' => Frames sources σ σ' ∧
    (∀ p ∈ before, Collecting k distance f plain carried (tops ++ [top]) p σ') ∧
    ∀ p ∈ sources, p ∉ before → Collecting k distance f plain carried tops p σ'
  have hinit : inv [] σ :=
    ⟨⟨fun _ => rfl, fun _ _ _ => rfl, fun _ => .rfl⟩, by simp, fun p hm _ => h p hm⟩
  refine (Builds.forM sources inv hinit ?_).imp fun _ σ' _ ⟨hfr, hdone, _⟩ => ⟨hfr, hdone⟩
  rintro before p rest hsplit σ' he ⟨hfr, hdone, htodo⟩
  have hmem : p ∈ sources := by
    rw [hsplit]
    simp
  have hother : ∀ q ∈ sources, q ≠ p → q.1 ≠ p.1 := fun q hq hne heq =>
    hne (List.inj_on_of_nodup_map hnodup hq hmem heq)
  have hfresh : p ∉ before := by
    rw [hsplit, List.map_append, List.map_cons, List.nodup_append] at hnodup
    intro hin
    exact hnodup.2.2 p.1 (List.mem_map_of_mem hin) p.1 List.mem_cons_self rfl
  refine (collect_builds hf (hp.mono he) (hc.mono he) (htodo p hmem hfresh)).imp
    fun _ σ'' he' ⟨hfr', hnew⟩ => ?_
  have hkeep : ∀ q ∈ sources, q ≠ p → ∀ tops', Collecting k distance f plain carried tops' q σ' →
      Collecting k distance f plain carried tops' q σ'' := by
    intro q hq hne tops' hcol
    refine hcol.mono he' ((hfr'.live q.1).2 hcol.1) (hfr'.wiring q.1 (σ'.live_lt hcol.1) ?_)
    simpa using hother q hq hne
  have hsub : ∀ q ∈ before, q ∈ sources := fun q hq => by
    rw [hsplit]
    exact List.mem_append_left _ hq
  refine ⟨hfr.trans ⟨hfr'.entry, fun id hlt hid => hfr'.wiring id hlt ?_, hfr'.live⟩ he.size_le,
    fun q hq => ?_, fun q hq hn => ?_⟩
  · rintro hin
    rw [List.map_singleton, List.mem_singleton] at hin
    exact hid (hin ▸ List.mem_map_of_mem hmem)
  · rcases List.mem_append.1 hq with hq | hq
    · exact hkeep q (hsub q hq) (fun heq => hfresh (heq ▸ hq)) _ (hdone q hq)
    · rw [List.mem_singleton.1 hq]
      exact hnew
  · rw [List.mem_append, not_or] at hn
    exact hkeep q hq (by simpa using hn.2) _ (htodo q hq hn.1)

/-- A state that has collected a transition for every byte performs the column. -/
theorem Collecting.wellFormed {source : Nat × Nat}
    (h : Collecting k distance f plain carried Draft.allBytes source σ) :
    ∃ st, σ.wiring source.1 = some st ∧ st.WellFormed (σ.Target k) ∧ st ≠ .unwired ∧
      σ.Ensures fun c => c.machine.states[source.1]? = some st →
        c.Performs source.1 (fun b : Bool => if b then carried else plain)
          (Action.column distance f source.2) := by
  obtain ⟨-, rules, hw, hrules⟩ := h
  obtain ⟨rule, rfl, hrule⟩ := exists_byteRules hrules
  have hin : ∀ b, (rule b).input = b := fun b => by rw [(hrule b).1]
  have hne : Draft.byteRules rule ≠ [] := List.ne_nil_of_mem (mem_byteRules.2 ⟨0, rfl⟩)
  refine ⟨_, hw, ?_, State.mk_ne_unwired hne, fun c hc hst => ?_⟩
  · refine .rules (.unwired (.reject rfl)) (nodup_input_byteRules hin) fun r hr => ?_
    obtain ⟨b, rfl⟩ := mem_byteRules.1 hr
    refine ⟨hin b ▸ Symbol.byte_le b.isLt, ?_, (hrule b).2.1⟩
    rw [(hrule b).1]
    exact .inl (Nat.zero_le _)
  · have htable : c.Performs source.1 (fun b => (rule b).next)
        (Action.byte (fun _ => 0) .left) := by
      refine Machine.performs_byte hst (fun _ => by decide) (fun b => ?_) fun v hv => ?_
      · have hmem : rule b ∈ Draft.byteRules rule := mem_byteRules.2 ⟨b, rfl⟩
        have hlook := State.lookup_of_mem (s := ⟨Draft.byteRules rule, State.unwired.fallback⟩)
          (nodup_input_byteRules hin) hmem
        rw [hin b] at hlook
        rw [hlook]
        exact (hrule b).1
      · refine congrArg Transition.next (State.lookup_of_forall_ne fun r hr he => ?_)
        obtain ⟨b, rfl⟩ := mem_byteRules.1 hr
        rw [hin b] at he
        omega
    exact htable.bind (fun b => ((hrule b).2.2 c hc).1) fun b => ((hrule b).2.2 c hc).2

include hf in
theorem combineColumn_builds {sources : List (Nat × Nat)} (hnodup : (sources.map Prod.fst).Nodup)
    (hlive : ∀ p ∈ sources, σ.live p.1 ∧ σ.wiring p.1 = some .unwired)
    (hp : σ.Target k plain) (hc : σ.Target k carried) :
    Builds k σ (combineColumn distance f sources plain carried) fun _ σ' =>
      σ.Changes (fun id => id ∈ sources.map Prod.fst) nothing σ' ∧ σ'.Ensures fun c =>
        ∀ p ∈ sources, c.Performs p.1 (fun b : Bool => if b then carried else plain)
          (Action.column distance f p.2) := by
  let inv : List (Fin 256) → Stage → Prop := fun before σ' => Frames sources σ σ' ∧
    ∀ p ∈ sources, Collecting k distance f plain carried before p σ'
  have hinit : inv [] σ := ⟨⟨fun _ => rfl, fun _ _ _ => rfl, fun _ => .rfl⟩,
    fun p hm => ⟨(hlive p hm).1, [], (hlive p hm).2, .nil⟩⟩
  have hloop : Builds k σ (combineColumn distance f sources plain carried) fun _ σ' =>
      inv Draft.allBytes σ' := by
    refine Builds.forM Draft.allBytes inv hinit fun before top rest _ σ' he ⟨hfr, hcol⟩ => ?_
    exact (collectRow_builds hf top hnodup (hp.mono he) (hc.mono he) hcol).imp
      fun _ σ'' _ ⟨hfr', hcol'⟩ => ⟨hfr.trans hfr' he.size_le, hcol'⟩
  refine hloop.settle (fun id => id ∈ sources.map Prod.fst) ?_ ?_
  · rintro _ σ' _ ⟨-, hcol⟩ id hid
    obtain ⟨p, hm, rfl⟩ := List.mem_map.1 hid
    obtain ⟨st, hw, hwf, hne, -⟩ := (hcol p hm).wellFormed
    exact ⟨st, hw, hwf, .inl hne⟩
  · refine fun _ σ' _ ⟨hfr, hcol⟩ hev hst => ⟨⟨hfr.entry, hfr.wiring, fun id => ?_,
      fun _ h => h.elim⟩, fun c h p hm => ?_⟩
    · change σ'.live id ∧ _ ↔ _
      rw [hfr.live]
      simp
    · obtain ⟨st, hw, -, -, hperf⟩ := (hcol p hm).wellFormed
      exact hperf c (h.of_evolves hev) (hst p.1 st (List.mem_map_of_mem hm) hw c h)

include hf in
theorem columns_builds (remaining : Nat) {sources : List (Nat × Nat)}
    (hnodup : (sources.map Prod.fst).Nodup)
    (hlive : ∀ p ∈ sources, σ.live p.1 ∧ σ.wiring p.1 = some .unwired) (he : σ.Target k exit) :
    Builds k σ (columns distance f exit (remaining + 1) sources) fun _ σ' =>
      σ.Changes (fun id => id ∈ sources.map Prod.fst) nothing σ' ∧ σ'.Ensures fun c =>
        ∀ p ∈ sources, c.Performs p.1 (fun _ => exit)
          (Action.columns distance f (remaining + 1) p.2) := by
  induction remaining generalizing σ sources with
  | zero =>
    refine (combineColumn_builds hf hnodup hlive he he).imp
      fun _ σ' _ ⟨hc, hp⟩ => ⟨hc, fun c h p hm => ?_⟩
    exact (hp c h p hm).map fun _ => ite_self _
  | succ remaining ih =>
    refine fresh_builds.bind fun plain σ₁ he₁ h₁ => fresh_builds.bind fun carry σ₂ he₂ h₂ => ?_
    have hplain := h₁.eq_size
    have hcarry := h₂.eq_size
    have hs₁ : plain < σ₁.size := lt_of_wiring (h₁.changes.unwired plain rfl)
    have hs₂ : carry < σ₂.size := lt_of_wiring (h₂.changes.unwired carry rfl)
    have hold : ∀ id, id ∈ sources.map Prod.fst → id < σ.size := by
      intro id hid
      obtain ⟨p, hm, rfl⟩ := List.mem_map.1 hid
      exact σ.live_lt (hlive p hm).1
    have hc₂ : σ.Changes nothing (fun id => id = plain ∨ id = carry) σ₂ :=
      h₁.changes.add h₂.changes he₁.size_le
    have hlive₂ : ∀ p ∈ sources, σ₂.live p.1 ∧ σ₂.wiring p.1 = some .unwired :=
      fun p hm => hc₂.keep (hlive p hm).1 (hlive p hm).2 id
    refine (combineColumn_builds hf hnodup hlive₂ (h₁.target.mono he₂) h₂.target).bind
      fun _ σ₃ he₃ ⟨hc₃, hp₃⟩ => ?_
    have hs₃ := he₃.size_le
    have hc₃ : σ.Changes (fun id => id ∈ sources.map Prod.fst) (fun id => id = plain ∨ id = carry)
        σ₃ := by
      refine hc₂.wire hc₃ (he₁.trans he₂).size_le fun id hid hmem => ?_
      have := hold id hmem
      omega
    -- the two states after the column walk back to the top value
    obtain ⟨hl₃, hw₃⟩ := hc₃.opened (s := plain) (.inl rfl)
    refine (walk_builds .right distance hl₃ hw₃).bind fun plain' σ₄ he₄ ⟨hc₄, hnew₄, hp₄⟩ => ?_
    have hs₄ := he₄.size_le
    have hc₄ : σ.Changes (fun id => id ∈ sources.map Prod.fst)
        (fun id => id = carry ∨ id = plain') σ₄ := by
      refine hc₃.trans hc₄ (he₁.trans (he₂.trans he₃)).size_le (fun id hid => ?_) fun id => ?_
      · simp only [only]
        exact or_iff_left_of_imp fun h => by omega
      · simp only [only]
        omega
    obtain ⟨hl₄, hw₄⟩ := hc₄.opened (s := carry) (.inl rfl)
    refine (walk_builds .right distance hl₄ hw₄).bind fun carry' σ₅ he₅ ⟨hc₅, hnew₅, hp₅⟩ => ?_
    have hplain' : plain' < σ₄.size := lt_of_wiring (hc₄.unwired plain' (.inr rfl))
    have hc₅ : σ.Changes (fun id => id ∈ sources.map Prod.fst)
        (fun id => id ∈ [(plain', 0), (carry', 1)].map Prod.fst) σ₅ := by
      refine hc₄.trans hc₅ (he₁.trans (he₂.trans (he₃.trans he₄))).size_le (fun id hid => ?_)
        fun id => ?_
      · simp only [only]
        exact or_iff_left_of_imp fun h => by omega
      · simp only [only, List.map_cons, List.map_nil, List.mem_cons, List.not_mem_nil, or_false]
        omega
    have hnodup₅ : ([(plain', 0), (carry', 1)].map Prod.fst).Nodup := by
      simp only [List.map_cons, List.map_nil, List.nodup_cons, List.mem_singleton,
        List.not_mem_nil, not_false_eq_true, List.nodup_nil, and_true]
      omega
    have he₁₅ := he₁.trans (he₂.trans (he₃.trans (he₄.trans he₅)))
    refine (ih hnodup₅ (fun p hm => hc₅.opened (List.mem_map_of_mem hm)) (he.mono he₁₅)).imp
      fun _ σ₆ he₆ ⟨hc₆, hp₆⟩ => ⟨?_, fun c h p hm => ?_⟩
    · refine hc₅.replace hc₆ he₁₅.size_le fun id hid h => ?_
      simp only [List.map_cons, List.map_nil, List.mem_cons, List.not_mem_nil, or_false] at h
      omega
    · have hin₁ := h₁.inner.mono (he₂.trans (he₃.trans (he₄.trans (he₅.trans he₆)))) c h
      have hin₂ := h₂.inner.mono (he₃.trans (he₄.trans (he₅.trans he₆))) c h
      have hcol := hp₃.mono (he₄.trans (he₅.trans he₆)) c h p hm
      refine hcol.bind (fun b => ?_) fun b => ?_
      · cases b
        · exact hin₁
        · exact hin₂
      · cases b
        · exact hp₄.mono (he₅.trans he₆) c h _ _ _ (hp₆ c h (plain', 0) (by simp))
        · exact hp₅.mono he₆ c h _ _ _ (hp₆ c h (carry', 1) (by simp))

include hf in
theorem carryChain_wires (w : Width) (he : σ.Target k exit) :
    Wires k σ entry (carryChain w f entry exit) (fun _ => exit) (.carryChain w f) := by
  refine walk_wires .left w.bytes fun lowest σ₁ he₁ hl hw => ?_
  obtain ⟨n, hn⟩ : ∃ n, w.bytes = n + 1 := ⟨w.bytes - 1, by have := w.bytes_pos; omega⟩
  have hcols : Builds k σ₁ (columns w.bytes f exit (n + 1) [(lowest, 0)]) _ :=
    columns_builds hf n (List.nodup_singleton _) (by simp [hl, hw]) (he.mono he₁)
  rw [← hn] at hcols
  refine hcols.imp fun _ σ₂ _ ⟨hc, hp⟩ => ⟨?_, fun c h => hp c h (lowest, 0) (by simp)⟩
  simpa only [List.map_cons, List.map_nil, List.mem_singleton] using hc

end Columns

theorem binary_wires (op : BinOp) (w : Width) (he : σ.Target k exit) :
    Wires k σ entry (binary op w entry exit) (fun _ => exit) (.binary op w) := by
  cases op with
  | add => exact carryChain_wires (fun _ _ _ => Nat.mod_lt _ (by decide)) w he
  | sub => exact carryChain_wires (fun _ _ _ => Nat.mod_lt _ (by decide)) w he
  | and => exact bitwise_wires (fun _ b _ hb => Nat.and_lt_two_pow (n := 8) _ hb) w he
  | or => exact bitwise_wires (fun _ _ ha hb => Nat.or_lt_two_pow (n := 8) ha hb) w he
  | xor => exact bitwise_wires (fun _ _ ha hb => Nat.xor_lt_two_pow (n := 8) ha hb) w he

end Gadget

end StackTape
