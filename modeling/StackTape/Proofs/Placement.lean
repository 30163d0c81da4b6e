import StackTape.Proofs.ControlFlow
import StackTape.Proofs.Renaming

/-!
# Gadgets in their place

What a construction has wired between two drafts stands in the finished machine as it was made, and
a run that has entered it leaves it by its exit or by the rejecting sink (`Placement`). If one
construction has been made at two places, in one machine or in two, then the machines go through
both of them in lockstep (`Placement.actsLike`), whatever is around them.
-/

namespace StackTape

open Stage

/-! ## Placements -/

/-- The state was handed out between the two drafts. -/
def Draft.New (d d' : Draft) (id : Nat) : Prop := d.states.size ≤ id ∧ id < d'.states.size

/-- A construction has been made in the state `s` of a compilation and leads to the entry state of
position `q`. -/
structure Placement (c : Compilation) (x : Nat → Nat → DraftM Unit) (s q : Nat) where
  before : Draft
  after : Draft
  exit : Nat
  built : x s exit before = .ok () after
  unwired : before.states[s]? = some .unwired
  two_le : 2 ≤ s
  entry : c.entries[q]? = some exit
  exit_lt : exit < before.states.size
  two_le_exit : 2 ≤ exit
  exit_ne : exit ≠ s
  inner : ∀ id, before.New after id → c.Inner id
  kept : ∀ id, id = s ∨ before.New after id → c.machine.states[id]? = after.states[id]?
  leads : ∀ id st, id = s ∨ before.New after id → c.machine.states[id]? = some st →
    st.WellFormed fun next => next = Sink.reject ∨ next = exit ∨ before.New after next
  ends : ∀ h t, ∃ r : Ending Unit, c.machine.Meets c.Inner (fun _ => exit) ⟨s, h, t⟩ r

/-- From the state `s` of one compilation to the entry state of position `q` the machine does on
every tape what the other one does from the state `s'` to the entry state of `q'`: it gets there
with the same head and tape, or rejects with the same head and tape, or does not end. There is no
fourth way. -/
structure Compilation.ActsLike (c : Compilation) (s q : Nat) (c' : Compilation) (s' q' : Nat) :
    Prop where
  leaves : ∀ h t h' t', c.machine.Leads c.Inner ⟨s, h, t⟩ ⟨c.entryOf q, h', t'⟩ ↔
    c'.machine.Leads c'.Inner ⟨s', h, t⟩ ⟨c'.entryOf q', h', t'⟩
  rejects : ∀ h t h' t', c.machine.Leads c.Inner ⟨s, h, t⟩ ⟨Sink.reject, h', t'⟩ ↔
    c'.machine.Leads c'.Inner ⟨s', h, t⟩ ⟨Sink.reject, h', t'⟩
  hangs : ∀ h t, c.machine.Hangs c.Inner ⟨s, h, t⟩ ↔ c'.machine.Hangs c'.Inner ⟨s', h, t⟩
  ends : ∀ h t, (∃ h' t', c.machine.Leads c.Inner ⟨s, h, t⟩ ⟨c.entryOf q, h', t'⟩) ∨
    (∃ h' t', c.machine.Leads c.Inner ⟨s, h, t⟩ ⟨Sink.reject, h', t'⟩) ∨
      c.machine.Hangs c.Inner ⟨s, h, t⟩

namespace Placement

variable {c c' : Compilation} {x : Nat → Nat → DraftM Unit} {s s' q q' id : Nat}
  {d e : Config (Int → Nat)}

theorem lt_size (f : Placement c x s q) : s < f.before.states.size :=
  (Array.getElem?_eq_some_iff.1 f.unwired).1

theorem entryOf_eq (f : Placement c x s q) : c.entryOf q = f.exit := by
  rw [Compilation.entryOf, f.entry, Option.getD_some]

/-- The states of the gadget. -/
def Wired (f : Placement c x s q) (id : Nat) : Prop := id = s ∨ f.before.New f.after id

/-- A step from a state of the gadget to an inner state stays in the gadget. -/
theorem new_of_step (f : Placement c x s q) (hd : f.Wired d.state)
    (hstep : c.machine.step d = .ok e) (hinner : c.Inner e.state) :
    f.before.New f.after e.state := by
  obtain ⟨st, hst, rfl⟩ := Machine.exists_of_step hstep
  obtain ⟨h2, hentry⟩ := hinner
  rcases (f.leads _ st hd hst).lookup_leads d.scanned with hreject | hexit | hnew
  · have hle : 2 ≤ Sink.reject := hreject ▸ h2
    exact absurd hle (by decide)
  · exact absurd f.entry (hexit ▸ hentry q)
  · exact hnew

/-! ## Two placements of one construction -/

/-- The names that the states of one placement have in another one. -/
def onto (f : Placement c x s q) (g : Placement c' x s' q') : Renaming where
  toFun id :=
    if id = s then s'
    else if f.before.states.size ≤ id then g.before.states.size + (id - f.before.states.size)
    else if id = f.exit then g.exit
    else id
  entry := s
  base := f.before.states.size
  base' := g.before.states.size
  map_new n := by
    have hlt := f.lt_size
    rw [if_neg (by omega), if_pos (by omega), Nat.add_sub_cancel_left]
  entry_lt := f.lt_size
  map_entry_lt := by
    rw [if_pos rfl]
    exact g.lt_size
  map_reject := by
    have hr : Sink.reject = 1 := rfl
    have hs := f.two_le
    have hlt := f.lt_size
    have he := f.two_le_exit
    rw [if_neg (by omega), if_neg (by omega), if_neg (by omega)]

theorem onto_self (f : Placement c x s q) (g : Placement c' x s' q') : f.onto g s = s' := if_pos rfl

theorem onto_exit (f : Placement c x s q) (g : Placement c' x s' q') :
    f.onto g f.exit = g.exit := by
  have hlt := f.exit_lt
  change (if f.exit = s then _ else _) = g.exit
  rw [if_neg f.exit_ne, if_neg (by omega), if_pos rfl]

theorem onto_of_le (f : Placement c x s q) (g : Placement c' x s' q')
    (h : f.before.states.size ≤ id) :
    f.onto g id = g.before.states.size + (id - f.before.states.size) :=
  Renaming.map_of_le h

theorem mirrors_before (f : Placement c x s q) (g : Placement c' x s' q') :
    (f.onto g).Mirrors f.before g.before where
  base_le := Nat.le_refl _
  size_eq := by rw [f.onto_of_le g (Nat.le_refl _), Nat.sub_self, Nat.add_zero]
  state_eq id hid := by
    rcases hid with hid | hle
    · obtain rfl : id = s := hid
      rw [onto_self, g.unwired, f.unwired, Option.map_some, Renaming.unwired_rename]
    · have hle' : g.before.states.size ≤ f.onto g id := by
        rw [f.onto_of_le g hle]
        exact Nat.le_add_right ..
      rw [Array.getElem?_eq_none hle, Array.getElem?_eq_none hle', Option.map_none]

section Lockstep

variable (hx : Renaming.Uniform x) (f : Placement c x s q) (g : Placement c' x s' q')

include hx f g

theorem mirrors_after : (f.onto g).Mirrors f.after g.after := by
  obtain ⟨_, e, hbuilt, hm, -⟩ := hx (f.onto g) s f.exit (.inl rfl) _ _ (f.mirrors_before g) ()
    f.after f.built
  rw [onto_self, onto_exit, g.built] at hbuilt
  obtain rfl : g.after = e := (EStateM.Result.ok.inj hbuilt).2
  exact hm

theorem new_onto (hid : f.before.New f.after id) : g.before.New g.after (f.onto g id) := by
  obtain ⟨hle, hlt⟩ := hid
  have hm := f.mirrors_after hx g
  have hsize := hm.size_eq
  rw [f.onto_of_le g hm.base_le] at hsize
  rw [f.onto_of_le g hle]
  constructor <;> omega

theorem wired_onto (hid : f.Wired id) : g.Wired (f.onto g id) := by
  rcases hid with rfl | hnew
  · exact .inl (f.onto_self g)
  · exact .inr (f.new_onto hx g hnew)

/-- The second machine takes the steps of the first one. -/
theorem step_onto (hd : f.Wired d.state) (hstep : c.machine.step d = .ok e) :
    c'.machine.step (d.rename (f.onto g)) = .ok (e.rename (f.onto g)) := by
  apply Machine.step_rename _ hstep
  have hown : (f.onto g).Own d.state := hd.imp_right And.left
  rw [g.kept _ (f.wired_onto hx g hd), (f.mirrors_after hx g).state_eq _ hown, f.kept _ hd]

/-- So it goes through the gadget if the first one does. -/
theorem leads_onto (hd : f.Wired d.state) (h : c.machine.Leads c.Inner d e) :
    c'.machine.Leads c'.Inner (d.rename (f.onto g)) (e.rename (f.onto g)) := by
  induction h with
  | step hstep => exact .step (f.step_onto hx g hd hstep)
  | through hstep hinner _ ih =>
    have hnew := f.new_of_step hd hstep hinner
    exact .through (f.step_onto hx g hd hstep) (g.inner _ (f.new_onto hx g hnew)) (ih (.inr hnew))

theorem hangs_onto (hd : f.Wired d.state) (h : c.machine.Hangs c.Inner d) :
    c'.machine.Hangs c'.Inner (d.rename (f.onto g)) := by
  refine .of_invariant
    (fun d' => ∃ d, d' = d.rename (f.onto g) ∧ f.Wired d.state ∧ c.machine.Hangs c.Inner d) ?_
    ⟨d, rfl, hd, h⟩
  rintro _ ⟨d, rfl, hd, h⟩
  obtain ⟨e, hstep, hinner, hrest⟩ := h.exists_step
  have hnew := f.new_of_step hd hstep hinner
  exact ⟨_, f.step_onto hx g hd hstep, g.inner _ (f.new_onto hx g hnew), e, rfl, .inr hnew, hrest⟩

theorem leaves_onto {h h' : Int} {t t' : Int → Nat}
    (hl : c.machine.Leads c.Inner ⟨s, h, t⟩ ⟨c.entryOf q, h', t'⟩) :
    c'.machine.Leads c'.Inner ⟨s', h, t⟩ ⟨c'.entryOf q', h', t'⟩ := by
  rw [f.entryOf_eq] at hl
  rw [g.entryOf_eq]
  have hl' := f.leads_onto hx g (.inl rfl) hl
  simp only [Config.rename, onto_self, onto_exit] at hl'
  exact hl'

theorem rejects_onto {h h' : Int} {t t' : Int → Nat}
    (hl : c.machine.Leads c.Inner ⟨s, h, t⟩ ⟨Sink.reject, h', t'⟩) :
    c'.machine.Leads c'.Inner ⟨s', h, t⟩ ⟨Sink.reject, h', t'⟩ := by
  have hl' := f.leads_onto hx g (.inl rfl) hl
  simp only [Config.rename, onto_self, (f.onto g).map_reject] at hl'
  exact hl'

/-- Machines go through two placements of one construction in lockstep. -/
theorem actsLike : c.ActsLike s q c' s' q' where
  leaves _ _ _ _ := ⟨f.leaves_onto hx g, g.leaves_onto hx f⟩
  rejects _ _ _ _ := ⟨f.rejects_onto hx g, g.rejects_onto hx f⟩
  hangs h t := by
    constructor
    · intro hh
      simpa only [Config.rename, onto_self] using f.hangs_onto hx g (.inl rfl) hh
    · intro hh
      simpa only [Config.rename, onto_self] using g.hangs_onto hx f (.inl rfl) hh
  ends h t := by
    obtain ⟨r, hr⟩ := f.ends h t
    rw [f.entryOf_eq]
    cases r with
    | leave _ h' t' => exact .inl ⟨h', t', hr⟩
    | reject => exact .inr (.inl hr)
    | hang => exact .inr (.inr hr)

end Lockstep

end Placement

/-! ## Placements in a finished machine -/

/-- What a gadget may lead to that hands over to one position only. -/
def Scope.toward (base q : Nat) : Scope := ⟨base, (· = q), False, False⟩

section Building

variable {k : Scope} {σ σ' : Stage} {x : Nat → Nat → DraftM Unit} {s q exit id : Nat}
  {a : Action Unit}

/-- Such a gadget leads to its own states, to its exit and to rejection. -/
theorem Stage.Target.of_toward (he : σ.Evolves (.toward σ.size q) σ')
    (hexit : σ.entry q = some exit) (ht : σ'.Target (.toward σ.size q) id) :
    id = Sink.reject ∨ id = exit ∨ σ.draft.New σ'.draft id := by
  cases ht with
  | reject h => exact .inl h
  | accept _ h => exact h.elim
  | goal r hr h =>
    obtain rfl : r = q := hr
    exact .inr (.inl (Option.some.inj (h.symm.trans (he.entry r exit hexit))))
  | own hle hlt _ => exact .inr (.inr ⟨hle, hlt⟩)

/-- A construction that wires one state leaves neither that state nor a new one open. -/
theorem Stage.Changes.not_live (hc : σ.Changes (only s) nothing σ') (hid : id = s ∨ σ.size ≤ id) :
    ¬σ'.live id := by
  rw [hc.live]
  rintro (⟨hlive, hne⟩ | hfalse)
  · have hlt : id < σ.size := σ.live_lt hlive
    omega
  · exact hfalse

/-- What is wired from one state to the entry state of a position stays in its place. -/
theorem placement_builds (hx : ∀ k, σ.Target k exit → Wires k σ s (x s exit) (fun _ => exit) a)
    (hq : k.goal q) (hexit : σ.entry q = some exit)
    (hs : σ.Ensures fun c => 2 ≤ s ∧ c.entries[q]? ≠ some s) (hl : σ.live s)
    (hw : σ.wiring s = some .unwired) :
    Builds k σ (x s exit) fun _ σ' => σ.Changes (only s) nothing σ' ∧
      σ'.Ensures fun c => Nonempty (Placement c x s q) := by
  intro hb
  obtain ⟨_, σ', hbuilt, he, hc, hp⟩ :=
    hx (.toward σ.size q) (.goal q rfl hexit) hl hw (Nat.le_refl _)
  have hlt : ∀ id, id = s ∨ σ.draft.New σ'.draft id → id < σ'.size := by
    rintro id (rfl | hnew)
    · exact Nat.lt_of_lt_of_le (σ.live_lt hl) he.size_le
    · exact hnew.2
  have hnl : ∀ id, id = s ∨ σ.draft.New σ'.draft id → ¬σ'.live id :=
    fun id hid => hc.not_live (hid.imp_right And.left)
  refine ⟨(), σ', hbuilt, he.within ⟨hb, fun r (h : r = q) => h ▸ hq, False.elim, False.elim⟩, hc,
    fun c h => ?_⟩
  obtain ⟨h2, hne⟩ := hs c (h.of_evolves he)
  have hentry : c.entries[q]? = some exit := h.entry q exit (he.entry q exit hexit)
  constructor
  exact {
    before := σ.draft
    after := σ'.draft
    exit := exit
    built := hbuilt
    unwired := hw
    two_le := h2
    entry := hentry
    exit_lt := σ.entry_lt hexit
    two_le_exit := σ.two_le_entry hexit
    exit_ne := fun heq => hne (heq ▸ hentry)
    inner := fun id hnew => by
      refine ensures_inner (Nat.le_trans σ.two_le hnew.1) hnew.2 (fun r hr => ?_) c h
      rw [hc.entry] at hr
      exact absurd (σ.entry_lt hr) (Nat.not_lt.2 hnew.1)
    kept := fun id hid => h.wiring id (hlt id hid) (hnl id hid)
    leads := fun id st hid hst => by
      rw [h.wiring id (hlt id hid) (hnl id hid)] at hst
      rcases he.wellFormed id st hst (hnl id hid) with ⟨hold, hsettled⟩ | hwf
      · -- the only state that existed before was live
        rcases hid with rfl | hnew
        · exact absurd hl hsettled
        · exact absurd hold (Nat.not_lt.2 hnew.1)
      · exact hwf.mono fun _ => Target.of_toward he hexit
    ends := fun head t => ⟨a head t, hp c h head t⟩ }

/-- A gadget between the entry states of a position and the next one. -/
theorem between_builds {fact : Compilation → Prop} {j : Nat} (hr : σ.Ready j)
    (hx : ∀ (σ' : Stage) (entry exit : Nat), σ'.entry j = some entry →
      σ'.entry (j + 1) = some exit → σ'.live entry → σ'.wiring entry = some .unwired →
        Builds k σ' (x entry exit) fun _ σ'' =>
          σ'.Changes (only entry) nothing σ'' ∧ σ''.Ensures fact) :
    Builds k σ (do let entry ← Draft.entryAt j; x entry (← Draft.entryAt (j + 1))) fun _ σ' =>
      σ'.Ready (j + 1) ∧ σ'.Ensures fact := by
  refine (entryAt_builds j).bind fun entry σ₁ he₁ h₁ =>
    (entryAt_builds (j + 1)).bind fun exit σ₂ he₂ h₂ => ?_
  have hr₂ := (hr.enter h₁ he₁).enter h₂ he₂
  have hentry := he₂.entry _ _ h₁.entry_self
  obtain ⟨hl, hw⟩ := hr₂.entry_live hentry
  exact (hx σ₂ entry exit hentry h₂.entry_self hl hw).imp fun _ σ₃ he₃ ⟨hc, hf⟩ =>
    ⟨hr₂.close hentry hc.extends he₃, hf⟩

end Building

/-- What the gadget of one instruction ensures holds in the finished machine. -/
theorem Compilation.Finishes.ensures {c : Compilation} {p : Program} {sites : CallSites}
    {τ : Stage} {j : Nat} {i : Instruction} (fact : Compilation → Prop)
    (hf : c.Finishes p sites τ) (hi : p[j]? = some i)
    (h : ∀ σ : Stage, σ.Ready j →
      Builds ⟨σ.size, fun _ => True, True, True⟩ σ (Draft.emit sites j i) fun _ σ' =>
        σ'.Ready (j + 1) ∧ σ'.Ensures fact) : fact c := by
  have hsites := CallSites.length_le hf.sites_eq
  obtain ⟨σ, σ₁, hem⟩ := exists_emitted hsites hi
  obtain ⟨_, σ', hx, -, hr, hfact⟩ := h σ hem.ready (Nat.le_refl _)
  obtain hdraft : σ₁.draft = σ'.draft := (EStateM.Result.ok.inj (hem.emit_eq.symm.trans hx)).2
  have hstates := hem.states_eq
  have hentries := hem.entries_eq
  rw [hdraft] at hstates hentries
  refine hfact c ⟨fun id hlt hl => ?_, fun q id hq => ?_, fun q id hq hlt => ?_⟩
  · rw [Stage.size, hstates] at hlt
    rw [hf.states_eq, Stage.wiring, hstates]
    refine (states_reached hsites hem.lt_length hlt fun q hq hid => hl ?_).symm
    rw [← hentries] at hid
    exact (hr.live id).2 ⟨q, hq, hid⟩
  · rw [Stage.entry, hentries] at hq
    rw [hf.entries_eq_reached]
    exact entries_reached hsites hem.lt_length hq
  · rw [Stage.size, hstates] at hlt
    rw [hf.entries_eq_reached] at hq
    rw [Stage.entry, hentries]
    exact entries_reached_of_lt hsites hem.lt_length hq hlt

end StackTape
