import Mathlib.Tactic
import StackTape.Draft.Session

/-!
# Sessions keep the draft in order

An operation does one of seven things to a draft (`Operation.Does`). From them follows what holds
after every sequence of operations (`Session.Orderly`): ids are handed out one after the other, a
position has one entry state of its own, and the log tells what every state holds.
-/

namespace StackTape

/-! ## What an operation does -/

/-- The draft with `n` more states. -/
def Draft.grow (d : Draft) (n : Nat) : Draft :=
  { d with
    states := d.states ++ Array.replicate n .unwired
    stats := { d.stats with allocated := d.stats.allocated + n } }

namespace Operation

variable {op : Operation} {d : Draft} {id : Nat}

/-- The number of states that an operation hands out, whatever was handed out before. -/
def grows? : Operation → Option Nat
  | fresh => some 1
  | freshBlock count => some count
  | _ => none

/-- The position whose entry state an operation asks for. -/
def position? : Operation → Option Nat
  | entryAt position => some position
  | _ => none

/-- The state that an operation names. -/
def target? : Operation → Option Nat
  | setFallback id _ | addRule id _ => some id
  | _ => none

/-- The change of the state that an operation names. -/
def edit : Operation → State → State
  | setFallback _ t, s => { s with fallback := t }
  | addRule _ t, s => { s with rules := s.rules ++ [t] }
  | _, s => s

/-- How a draft answers an operation, and the draft afterwards. -/
inductive Does (d : Draft) : Operation → Except IndexFault (List Nat) → Draft → Prop
  | grow {op : Operation} {n : Nat} (hop : op.grows? = some n) :
    Does d op (.ok (List.range' d.states.size n)) (d.grow n)
  | known {q id : Nat} (hq : d.entries[q]? = some id) : Does d (.entryAt q) (.ok [id]) d
  | enter {q : Nat} (hq : d.entries[q]? = none) :
    Does d (.entryAt q) (.ok [d.states.size])
      { d.grow 1 with entries := d.entries.insert q d.states.size }
  | edit {op : Operation} {id : Nat} (hop : op.target? = some id) (hlt : id < d.states.size) :
    Does d op (.ok []) { d with states := d.states.set id (op.edit d.states[id]) }
  | fault {op : Operation} {id : Nat} (hop : op.target? = some id) (hle : d.states.size ≤ id) :
    Does d op (.error ⟨d.states.size, id⟩) d
  | record (name : String) :
    Does d (.record name) (.ok []) { d with stats := d.stats.record name }
  | noteCallSites (count : Nat) :
    Does d (.noteCallSites count) (.ok []) { d with stats := { d.stats with callSites := count } }

theorem target?_of_grows? {n : Nat} (h : op.grows? = some n) : op.target? = none := by
  cases op with
  | setFallback | addRule => cases h
  | _ => rfl

theorem perform_of_target? (h : op.target? = some id) :
    op.perform = (do Draft.rewire id op.edit; return []) := by
  cases op <;> cases h <;> rfl

theorem perform_of_lt (h : op.target? = some id) (hlt : id < d.states.size) :
    op.perform d = .ok [] { d with states := d.states.set id (op.edit d.states[id]) } := by
  rw [perform_of_target? h, DraftM.bind_apply, Draft.rewire_apply hlt]
  rfl

/-- An operation that names a state that does not exist is at fault and changes nothing. -/
theorem perform_of_le (h : op.target? = some id) (hle : d.states.size ≤ id) :
    op.perform d = .error ⟨d.states.size, id⟩ d := by
  rw [perform_of_target? h, DraftM.bind_apply, Draft.rewire_apply_of_le hle]

theorem perform_fresh (d : Draft) :
    fresh.perform d = .ok (List.range' d.states.size 1) (d.grow 1) := by
  rw [perform, DraftM.bind_apply, Draft.fresh_apply, Array.push_eq_append]
  rfl

theorem perform_entryAt_of_none {q : Nat} (hq : d.entries[q]? = none) :
    (entryAt q).perform d = .ok [d.states.size]
      { d.grow 1 with entries := d.entries.insert q d.states.size } := by
  rw [perform, DraftM.bind_apply, Draft.entryAt_apply_of_none hq, Array.push_eq_append]
  rfl

theorem perform_entryAt_of_some {q : Nat} (hq : d.entries[q]? = some id) :
    (entryAt q).perform d = .ok [id] d := by
  rw [perform, DraftM.bind_apply, Draft.entryAt_apply_of_some hq]
  rfl

namespace Does

variable {d' : Draft} {answer : Except IndexFault (List Nat)} {q n : Nat}

theorem size_le (h : op.Does d answer d') : d.states.size ≤ d'.states.size := by
  cases h with
  | grow | enter => simp [Draft.grow]
  | edit => simp
  | _ => exact Nat.le_refl _

/-- Every state that is handed out is counted. -/
theorem size_add (h : op.Does d answer d') :
    d'.states.size + d.stats.allocated = d.states.size + d'.stats.allocated := by
  cases h with
  | grow | enter =>
    simp [Draft.grow]
    omega
  | edit => simp
  | _ => rfl

theorem entry_mono (h : op.Does d answer d') (hq : d.entries[q]? = some id) :
    d'.entries[q]? = some id := by
  cases h with
  | @enter r hr =>
    have hne : r ≠ q := by
      rintro rfl
      cases hr.symm.trans hq
    rw [← hq]
    exact Std.TreeMap.getElem?_insert.trans (if_neg fun heq => hne (compare_eq_iff_eq.1 heq))
  | _ => exact hq

/-- A position gets an entry state only when it is asked for, and a new one. -/
theorem entry_new (h : op.Does d answer d') (hq : d'.entries[q]? = some id) :
    d.entries[q]? = some id ∨
      (op = .entryAt q ∧ id = d.states.size ∧ d.states.size < d'.states.size) := by
  cases h with
  | @enter r hr =>
    change (d.entries.insert r d.states.size)[q]? = some id at hq
    rw [Std.TreeMap.getElem?_insert] at hq
    split at hq
    · next heq =>
      obtain rfl := compare_eq_iff_eq.1 heq
      exact .inr ⟨rfl, (Option.some.inj hq).symm, by simp [Draft.grow]⟩
    · exact .inl hq
  | _ => exact .inl hq

theorem entry_of_entryAt (h : (entryAt q).Does d answer d') :
    ∃ id, answer = .ok [id] ∧ d'.entries[q]? = some id := by
  cases h with
  | grow hop | edit hop | fault hop => cases hop
  | known hq => exact ⟨_, rfl, hq⟩
  | enter hq => exact ⟨_, rfl, Std.TreeMap.getElem?_insert_self⟩

theorem eq_of_grows? (h : op.Does d answer d') (hop : op.grows? = some n) :
    answer = .ok (List.range' d.states.size n) ∧ d' = d.grow n := by
  cases h with
  | grow hop' =>
    obtain rfl := Option.some.inj (hop.symm.trans hop')
    exact ⟨rfl, rfl⟩
  | known | enter | record | noteCallSites => cases hop
  | edit htarget | fault htarget => cases op <;> cases hop <;> cases htarget

/-- A new state has no rules yet. -/
theorem state_of_le (h : op.Does d answer d') (hle : d.states.size ≤ id)
    (hlt : id < d'.states.size) : d'.states[id]? = some .unwired := by
  have hgrow : ∀ n, id < d.states.size + n → (d.grow n).states[id]? = some .unwired := by
    intro n hn
    rw [Draft.grow, Array.getElem?_append_right hle, Array.getElem?_replicate, if_pos (by omega)]
  cases h with
  | grow | enter => exact hgrow _ (by simpa [Draft.grow] using hlt)
  | edit _ hid => exact absurd (hlt.trans_eq (Array.size_set hid)) (Nat.not_lt.2 hle)
  | _ => exact absurd hlt (Nat.not_lt.2 hle)

theorem lt_of_target? {ids : List Nat} (h : op.Does d (.ok ids) d') (hop : op.target? = some id) :
    id < d.states.size := by
  cases h with
  | edit hop' hlt =>
    obtain rfl := Option.some.inj (hop.symm.trans hop')
    exact hlt
  | grow hgrow => cases op <;> cases hop <;> cases hgrow
  | _ => cases hop

end Does

/-- Every operation does one of the things that operations do. -/
theorem perform_does (d : Draft) (op : Operation) :
    (∃ ids d', op.Does d (.ok ids) d' ∧ op.perform d = .ok ids d') ∨
      ∃ fault, op.Does d (.error fault) d ∧ op.perform d = .error fault d := by
  cases htarget : op.target? with
  | some id =>
    rcases Nat.lt_or_ge id d.states.size with hlt | hle
    · exact .inl ⟨_, _, .edit htarget hlt, perform_of_lt htarget hlt⟩
    · exact .inr ⟨_, .fault htarget hle, perform_of_le htarget hle⟩
  | none =>
    refine .inl ?_
    cases op with
    | fresh => exact ⟨_, _, .grow rfl, perform_fresh d⟩
    | freshBlock n => exact ⟨_, _, .grow rfl, rfl⟩
    | entryAt q =>
      cases hq : d.entries[q]? with
      | some id => exact ⟨_, _, .known hq, perform_entryAt_of_some hq⟩
      | none => exact ⟨_, _, .enter hq, perform_entryAt_of_none hq⟩
    | record name => exact ⟨_, _, .record name, rfl⟩
    | noteCallSites n => exact ⟨_, _, .noteCallSites n, rfl⟩
    | setFallback | addRule => cases htarget

/-- An operation is at fault only for a state that it names. -/
theorem perform_error_iff {fault : IndexFault} {d' : Draft} :
    op.perform d = .error fault d' ↔
      ∃ id, op.target? = some id ∧ d.states.size ≤ id ∧ fault = ⟨d.states.size, id⟩ ∧ d' = d := by
  constructor
  · intro h
    rcases perform_does d op with ⟨ids, d'', -, hok⟩ | ⟨fault', hdoes, herror⟩
    · cases hok.symm.trans h
    · cases herror.symm.trans h
      cases hdoes with
      | fault hop hle => exact ⟨_, hop, hle, rfl, rfl⟩
  · rintro ⟨id, hop, hle, rfl, rfl⟩
    exact perform_of_le hop hle

end Operation

namespace Session

open Operation

theorem exists_step (s : Session) (op : Operation) :
    ∃ answer d, op.Does s.draft answer d ∧ s.step op = ⟨d, s.log ++ [(op, answer)]⟩ := by
  rcases perform_does s.draft op with ⟨ids, d, hdoes, h⟩ | ⟨fault, hdoes, h⟩
  · exact ⟨_, _, hdoes, by rw [step, h]⟩
  · exact ⟨_, _, hdoes, by rw [step, h]⟩

end Session

/-! ## What a log tells -/

namespace Log

variable {log : Log} {op : Operation} {answer : Except IndexFault (List Nat)} {id : Nat}

/-- The positions whose entry states have been asked for. -/
def asked (log : Log) : List Nat := log.filterMap fun entry => entry.1.position?

/-- The ids of new states in an answer after the given log: all of them, unless it is the entry
state of a position that has been asked for before. -/
def newIn (before : Log) : Operation × Except IndexFault (List Nat) → List Nat
  | (.entryAt q, .ok ids) => if q ∈ before.asked then [] else ids
  | (_, .ok ids) => ids
  | (_, .error _) => []

/-- The ids of new states in the answers of a log, in order. -/
def newIds (log : Log) : List Nat := go [] log
where
  /-- The ids of new states in the answers that come after the log `before`. -/
  go (before : Log) : Log → List Nat
    | [] => []
    | entry :: rest => before.newIn entry ++ go (before ++ [entry]) rest

/-- The explicit transition that an operation has given to a state. -/
def ruleFor (id : Nat) : Operation × Except IndexFault (List Nat) → Option Transition
  | (.addRule target t, .ok _) => if target = id then some t else none
  | _ => none

/-- The fallback that an operation has given to a state. -/
def fallbackFor (id : Nat) : Operation × Except IndexFault (List Nat) → Option Transition
  | (.setFallback target t, .ok _) => if target = id then some t else none
  | _ => none

/-- The fallback that a state has from the start: the accepting sink leads to itself, and every
other state to the rejecting sink. -/
def born (id : Nat) : Transition :=
  .skip .stay (if id = Sink.accept then Sink.accept else Sink.reject)

/-- What a state holds: the explicit transitions that it has been given, in order, and the last of
the fallbacks. -/
def content (log : Log) (id : Nat) : State :=
  ⟨log.filterMap (ruleFor id), (log.filterMap (fallbackFor id)).getLast?.getD (born id)⟩

theorem newIds_concat (log : Log) (entry : Operation × Except IndexFault (List Nat)) :
    newIds (log ++ [entry]) = log.newIds ++ log.newIn entry := by
  suffices h : ∀ before : Log, newIds.go before (log ++ [entry]) =
      newIds.go before log ++ newIn (before ++ log) entry from h []
  induction log with
  | nil => simp [newIds.go]
  | cons first log ih => simp [newIds.go, ih]

theorem content_concat {entry : Operation × Except IndexFault (List Nat)}
    (hrule : ruleFor id entry = none) (hfallback : fallbackFor id entry = none) :
    content (log ++ [entry]) id = log.content id := by
  simp only [content, List.filterMap_append, List.filterMap_cons_none hrule,
    List.filterMap_cons_none hfallback, List.filterMap_nil, List.append_nil]

theorem content_concat_of_error (fault : IndexFault) :
    content (log ++ [(op, .error fault)]) id = log.content id :=
  content_concat (by cases op <;> rfl) (by cases op <;> rfl)

theorem content_concat_of_ne (h : op.target? ≠ some id) :
    content (log ++ [(op, answer)]) id = log.content id := by
  cases answer with
  | error fault => exact content_concat_of_error fault
  | ok ids =>
    cases op with
    | setFallback target t => exact content_concat rfl (if_neg fun heq => h (congrArg some heq))
    | addRule target t => exact content_concat (if_neg fun heq => h (congrArg some heq)) rfl
    | _ => exact content_concat rfl rfl

theorem content_concat_of_none (h : op.target? = none) :
    content (log ++ [(op, answer)]) id = log.content id :=
  content_concat_of_ne fun heq => by cases h.symm.trans heq

theorem content_concat_of_eq (h : op.target? = some id) (ids : List Nat) :
    content (log ++ [(op, .ok ids)]) id = op.edit (log.content id) := by
  cases op <;> cases h <;> simp [content, ruleFor, fallbackFor, Operation.edit]

/-- A state that no operation has changed is as it was handed out. -/
theorem content_of_unnamed (h : ∀ {op : Operation} {ids : List Nat}, (op, .ok ids) ∈ log →
    op.target? ≠ some id) : log.content id = ⟨[], born id⟩ := by
  induction log using List.reverseRecOn with
  | nil => rfl
  | append_singleton log entry ih =>
    obtain ⟨op, answer⟩ := entry
    have hold := ih fun hmem => h (List.mem_append_left _ hmem)
    cases answer with
    | error fault => rw [content_concat_of_error, hold]
    | ok ids =>
      have hne : op.target? ≠ some id :=
        h (List.mem_append_right log (List.mem_singleton_self (op, Except.ok ids)))
      rw [content_concat_of_ne hne, hold]

end Log

/-! ## What every operation keeps -/

open Operation

/-- A draft and the log that led to it. -/
structure Log.Tracks (log : Log) (d : Draft) : Prop where
  size_eq : d.states.size = d.stats.allocated + 2
  newIds_eq : log.newIds = List.range' 2 d.stats.allocated
  entry_lt : ∀ {q id : Nat}, d.entries[q]? = some id → id < d.states.size
  entry_inj : ∀ {q r id : Nat}, d.entries[q]? = some id → d.entries[r]? = some id → q = r
  /-- The positions with an entry state are those that have been asked for. -/
  asked_iff : ∀ {q : Nat}, q ∈ log.asked ↔ ∃ id : Nat, d.entries[q]? = some id
  answered : ∀ {q : Nat} {answer}, (entryAt q, answer) ∈ log →
    ∃ id, answer = .ok [id] ∧ d.entries[q]? = some id
  grown : ∀ {op : Operation} {answer} {n : Nat}, (op, answer) ∈ log → op.grows? = some n →
    ∃ ids, answer = .ok ids ∧ ids.length = n ∧
      ∀ id ∈ ids, id < d.states.size ∧ ∀ q : Nat, d.entries[q]? ≠ some id
  named_lt : ∀ {op : Operation} {ids : List Nat} {id : Nat}, (op, .ok ids) ∈ log →
    op.target? = some id → id < d.states.size
  state_eq : ∀ {id : Nat}, id < d.states.size → d.states[id]? = some (log.content id)

namespace Log

variable {log : Log} {d d' : Draft} {op : Operation} {answer : Except IndexFault (List Nat)}
  {id n q : Nat}

theorem tracks_initial : Tracks [] .initial where
  size_eq := rfl
  newIds_eq := rfl
  entry_lt h := by simp [Draft.initial] at h
  entry_inj h := by simp [Draft.initial] at h
  asked_iff := by simp [Draft.initial, asked]
  answered h := by simp at h
  grown h := by simp at h
  named_lt h := by simp at h
  state_eq {id} hlt := by
    obtain rfl | rfl : id = 0 ∨ id = 1 := by
      change id < 2 at hlt
      omega
    · rfl
    · rfl

theorem mem_asked_concat :
    q ∈ asked (log ++ [(op, answer)]) ↔ q ∈ log.asked ∨ op.position? = some q := by
  rw [asked, List.filterMap_append, List.mem_append, ← asked]
  cases op <;> simp [Operation.position?, eq_comm]

namespace Tracks

/-- An answer tells of new states in the order of their ids, and they are counted. -/
theorem exists_newIn (h : log.Tracks d) (hdoes : op.Does d answer d') :
    ∃ n, log.newIn (op, answer) = List.range' d.states.size n ∧
      d'.stats.allocated = d.stats.allocated + n := by
  cases hdoes with
  | @grow op n hop =>
    refine ⟨n, ?_, rfl⟩
    cases op with
    | fresh | freshBlock => rfl
    | _ => cases hop
  | known hq => exact ⟨0, if_pos (h.asked_iff.2 ⟨_, hq⟩), rfl⟩
  | enter hq =>
    refine ⟨1, if_neg fun hasked => ?_, rfl⟩
    obtain ⟨id, hid⟩ := h.asked_iff.1 hasked
    cases hq.symm.trans hid
  | @edit op _ hop =>
    refine ⟨0, ?_, rfl⟩
    cases op with
    | setFallback | addRule => rfl
    | _ => cases hop
  | @fault op =>
    refine ⟨0, ?_, rfl⟩
    cases op <;> rfl
  | record | noteCallSites => exact ⟨0, rfl, rfl⟩

theorem named_lt_concat {op' : Operation} {ids : List Nat} (h : log.Tracks d)
    (hdoes : op.Does d answer d') (hmem : (op', .ok ids) ∈ log ++ [(op, answer)])
    (hop : op'.target? = some id) : id < d.states.size := by
  rcases List.mem_append.1 hmem with hmem | hmem
  · exact h.named_lt hmem hop
  · cases List.mem_singleton.1 hmem
    exact hdoes.lt_of_target? hop

/-- The log tells what a state holds that was there before the operation. -/
theorem state_of_lt (h : log.Tracks d) (hdoes : op.Does d answer d') (hlt : id < d.states.size) :
    d'.states[id]? = some (content (log ++ [(op, answer)]) id) := by
  have hold := h.state_eq hlt
  cases hdoes with
  | grow hop =>
    rw [content_concat_of_none (target?_of_grows? hop), ← hold]
    exact Array.getElem?_append_left hlt
  | enter =>
    rw [content_concat_of_none rfl, ← hold]
    exact Array.getElem?_append_left hlt
  | @edit op target hop htarget =>
    by_cases hid : target = id
    · subst hid
      rw [Array.getElem?_eq_getElem hlt] at hold
      rw [content_concat_of_eq hop, ← Option.some.inj hold]
      exact Array.getElem?_set_self hlt
    · rw [content_concat_of_ne fun heq => hid (Option.some.inj (hop.symm.trans heq)), ← hold]
      exact Array.getElem?_set_ne htarget hid
  | fault => rwa [content_concat_of_error]
  | known | record | noteCallSites => rwa [content_concat_of_none rfl]

/-- A state that the operation has handed out is as the log tells. -/
theorem state_of_le (h : log.Tracks d) (hdoes : op.Does d answer d') (hle : d.states.size ≤ id)
    (hlt : id < d'.states.size) : d'.states[id]? = some (content (log ++ [(op, answer)]) id) := by
  have hid : id ≠ Sink.accept := by
    have := h.size_eq
    unfold Sink.accept
    omega
  rw [hdoes.state_of_le hle hlt, content_of_unnamed fun hmem hop =>
    Nat.not_lt.2 hle (h.named_lt_concat hdoes hmem hop), born, if_neg hid]
  rfl

theorem step (h : log.Tracks d) (hdoes : op.Does d answer d') :
    Tracks (log ++ [(op, answer)]) d' where
  size_eq := by
    have := hdoes.size_add
    have := h.size_eq
    omega
  newIds_eq := by
    obtain ⟨n, hnew, hcount⟩ := h.exists_newIn hdoes
    rw [newIds_concat, h.newIds_eq, hnew, hcount, h.size_eq, Nat.add_comm _ 2,
      List.range'_append_1]
  entry_lt hq := by
    rcases hdoes.entry_new hq with hold | ⟨-, rfl, hlt⟩
    · exact Nat.lt_of_lt_of_le (h.entry_lt hold) hdoes.size_le
    · exact hlt
  entry_inj hq hr := by
    rcases hdoes.entry_new hq with hq | ⟨hop, hq, -⟩ <;>
      rcases hdoes.entry_new hr with hr | ⟨hop', hr, -⟩
    · exact h.entry_inj hq hr
    · exact absurd (h.entry_lt hq) (hr ▸ Nat.lt_irrefl _)
    · exact absurd (h.entry_lt hr) (hq ▸ Nat.lt_irrefl _)
    · cases hop.symm.trans hop'
      rfl
  asked_iff {q} := by
    rw [mem_asked_concat, h.asked_iff]
    constructor
    · rintro (⟨id, hid⟩ | hop)
      · exact ⟨id, hdoes.entry_mono hid⟩
      · cases op <;> cases hop
        obtain ⟨id, -, hid⟩ := hdoes.entry_of_entryAt
        exact ⟨id, hid⟩
    · rintro ⟨id, hid⟩
      rcases hdoes.entry_new hid with hold | ⟨rfl, -⟩
      · exact .inl ⟨id, hold⟩
      · exact .inr rfl
  answered hmem := by
    rcases List.mem_append.1 hmem with hmem | hmem
    · obtain ⟨id, hid, hentry⟩ := h.answered hmem
      exact ⟨id, hid, hdoes.entry_mono hentry⟩
    · cases List.mem_singleton.1 hmem
      exact hdoes.entry_of_entryAt
  grown hmem hop := by
    rcases List.mem_append.1 hmem with hmem | hmem
    · obtain ⟨ids, hids, hlen, hold⟩ := h.grown hmem hop
      refine ⟨ids, hids, hlen, fun id hid => ?_⟩
      obtain ⟨hlt, hfree⟩ := hold id hid
      refine ⟨Nat.lt_of_lt_of_le hlt hdoes.size_le, fun q hq => ?_⟩
      rcases hdoes.entry_new hq with hold | ⟨-, rfl, -⟩
      · exact hfree q hold
      · exact Nat.lt_irrefl _ hlt
    · cases List.mem_singleton.1 hmem
      obtain ⟨hids, rfl⟩ := hdoes.eq_of_grows? hop
      refine ⟨_, hids, List.length_range', fun id hid => ?_⟩
      obtain ⟨hle, hlt⟩ := List.mem_range'_1.1 hid
      refine ⟨?_, fun q hq => Nat.not_lt.2 hle (h.entry_lt hq)⟩
      simpa [Draft.grow] using hlt
  named_lt hmem hop := Nat.lt_of_lt_of_le (h.named_lt_concat hdoes hmem hop) hdoes.size_le
  state_eq {id} hlt := by
    rcases Nat.lt_or_ge id d.states.size with hold | hnew
    · exact h.state_of_lt hdoes hold
    · exact h.state_of_le hdoes hnew hlt

end Tracks

end Log

/-! ## Whole sessions -/

namespace Session

variable {s : Session}

/-- What holds after every sequence of operations. -/
structure Orderly (s : Session) : Prop where
  /-- New states have the ids 2, 3, 4 and so on, in the order in which they are handed out. -/
  newIds_eq : s.log.newIds = List.range' 2 s.draft.stats.allocated
  /-- As many states are handed out as were asked for. -/
  grown : ∀ {op : Operation} {answer} {n : Nat}, (op, answer) ∈ s.log → op.grows? = some n →
    ∃ ids, answer = .ok ids ∧ ids.length = n
  /-- A position has an entry state, always the same and its own, which was handed out for
  nothing else. -/
  entered : ∀ {q : Nat} {answer}, (entryAt q, answer) ∈ s.log → ∃ id, answer = .ok [id] ∧
    (∀ {r : Nat} {answer'}, (entryAt r, answer') ∈ s.log → (answer' = .ok [id] ↔ r = q)) ∧
    ∀ {op : Operation} {ids : List Nat} {n : Nat}, (op, .ok ids) ∈ s.log → op.grows? = some n →
      id ∉ ids
  size_eq : s.draft.states.size = s.draft.stats.allocated + 2
  state_eq : ∀ {id : Nat}, id < s.draft.states.size →
    s.draft.states[id]? = some (s.log.content id)
  /-- An operation is at fault only for a state that it names, and then it changes nothing. -/
  fault_iff : ∀ {op : Operation} {fault : IndexFault} {d : Draft},
    op.perform s.draft = .error fault d ↔
      ∃ id, op.target? = some id ∧ s.draft.states.size ≤ id ∧
        fault = ⟨s.draft.states.size, id⟩ ∧ d = s.draft

theorem orderly_of_tracks (h : s.log.Tracks s.draft) : s.Orderly where
  newIds_eq := h.newIds_eq
  grown hmem hop := by
    obtain ⟨ids, hids, hlen, -⟩ := h.grown hmem hop
    exact ⟨ids, hids, hlen⟩
  entered hmem := by
    obtain ⟨id, rfl, hid⟩ := h.answered hmem
    refine ⟨id, rfl, fun hmem' => ?_, fun hmem' hop hin => ?_⟩
    · obtain ⟨id', rfl, hid'⟩ := h.answered hmem'
      constructor
      · rintro ⟨⟩
        exact h.entry_inj hid' hid
      · rintro rfl
        rw [Option.some.inj (hid'.symm.trans hid)]
    · obtain ⟨_, ⟨⟩, -, hfree⟩ := h.grown hmem' hop
      exact (hfree id hin).2 _ hid
  size_eq := h.size_eq
  state_eq := h.state_eq
  fault_iff := perform_error_iff

theorem run_concat (ops : List Operation) (op : Operation) :
    run (ops ++ [op]) = (run ops).step op := by
  rw [run, List.foldl_concat, ← run]

theorem run_tracks (ops : List Operation) : (run ops).log.Tracks (run ops).draft := by
  induction ops using List.reverseRecOn with
  | nil => exact Log.tracks_initial
  | append_singleton ops op ih =>
    obtain ⟨answer, d, hdoes, hstep⟩ := exists_step (run ops) op
    rw [run_concat, hstep]
    exact ih.step hdoes

theorem map_fst_log (ops : List Operation) : (run ops).log.map Prod.fst = ops := by
  induction ops using List.reverseRecOn with
  | nil => rfl
  | append_singleton ops op ih =>
    obtain ⟨answer, d, -, hstep⟩ := exists_step (run ops) op
    rw [run_concat, hstep, List.map_append, ih]
    rfl

/-- After every sequence of operations, whatever they name, the draft is in order and the log tells
what it holds. -/
theorem run_orderly (ops : List Operation) :
    (run ops).log.map Prod.fst = ops ∧ (run ops).Orderly :=
  ⟨map_fst_log ops, orderly_of_tracks (run_tracks ops)⟩

end Session

end StackTape
