import StackTape.Proofs.RoundTrip
import StackTape.Proofs.Spelling

/-!
# Listings are lossless

The fields of a transition hold no blank, so its text falls apart into them at the blanks. A line
of a listing holds no line feed, so the text falls apart into its lines. The line that begins a
state is not indented and the lines of its transitions are, so the lines fall apart into states,
and the last transition of each is the fallback. Hence the states can be read off a listing.
-/

namespace StackTape

/-! ## Texts of transitions -/

namespace Symbol

theorem unbroken_text (s : Nat) : Text.Unbroken (text s).toList := by
  unfold text
  split
  · exact fun c hc => List.mem_singleton.1 hc ▸ rfl
  · rw [toList_toString]
    exact unbroken_toDigits s

theorem text_injective : Function.Injective text := by
  -- the sign for the largest word is not a number
  have hstar : ∀ n : Nat, "*" ≠ toString n := by
    intro n h
    have hmem : '*' ∈ Nat.toDigits 10 n := by
      rw [← toList_toString, ← h]
      exact List.mem_singleton_self '*'
    exact absurd (Literal.isDigit_of_mem_toDigits hmem) (by decide)
  intro s t h
  unfold text at h
  split at h <;> split at h
  · next hs ht => rw [hs, ht]
  · exact absurd h (hstar t)
  · exact absurd h.symm (hstar s)
  · apply toDigits_injective
    rw [← toList_toString, h, toList_toString]

end Symbol

namespace Direction

theorem unbroken_text (d : Direction) : Text.Unbroken d.text.toList := by
  cases d <;> exact fun c hc => List.mem_singleton.1 hc ▸ rfl

theorem text_injective : Function.Injective text := by
  intro d e h
  cases d <;> cases e <;> revert h <;> decide

end Direction

namespace Transition

variable {t : Transition} {c : Char}

/-- What stands between the blanks in the text of a transition. -/
def fields (t : Transition) : List (List Char) :=
  [(Symbol.text t.input).toList, (Symbol.text t.output).toList, t.move.text.toList, ['-', '>'],
    Nat.toDigits 10 t.next]

theorem unbroken_of_mem_fields {field : List Char} (h : field ∈ t.fields) :
    Text.Unbroken field := by
  simp only [fields, List.mem_cons, List.not_mem_nil, or_false] at h
  rcases h with rfl | rfl | rfl | rfl | rfl
  · exact Symbol.unbroken_text t.input
  · exact Symbol.unbroken_text t.output
  · exact Direction.unbroken_text t.move
  · intro c hc
    fin_cases hc <;> rfl
  · exact unbroken_toDigits t.next

theorem toList_text (t : Transition) : t.text.toList = [' '].intercalate t.fields := by
  simp [text, fields, List.intercalate]

theorem splitOn_text (t : Transition) : t.text.toList.splitOn ' ' = t.fields := by
  rw [toList_text]
  refine List.splitOn_intercalate ' ' (fun field hfield hblank => ?_) (List.cons_ne_nil _ _)
  exact absurd (unbroken_of_mem_fields hfield ' ' hblank) (by decide)

theorem text_injective : Function.Injective text := by
  intro t u h
  have hfields : t.fields = u.fields := by
    rw [← splitOn_text, h, splitOn_text]
  simp only [fields, List.cons.injEq, String.toList_inj] at hfields
  obtain ⟨hinput, houtput, hmove, -, hnext, -⟩ := hfields
  obtain ⟨input, output, move, next⟩ := t
  rw [Transition.mk.injEq]
  exact ⟨Symbol.text_injective hinput, Symbol.text_injective houtput,
    Direction.text_injective hmove, toDigits_injective hnext⟩

/-- There are no blanks but those between the fields. -/
theorem not_mem_text (hblank : Text.isBlank c = true) (hne : c ≠ ' ') (t : Transition) :
    c ∉ t.text.toList := by
  have hfield : ∀ field ∈ t.fields, c ∉ field := by
    intro field hfield hc
    rw [unbroken_of_mem_fields hfield c hc] at hblank
    cases hblank
  simp only [fields, List.forall_mem_cons] at hfield
  obtain ⟨hinput, houtput, hmove, harrow, hnext, -⟩ := hfield
  simp only [List.mem_cons, List.not_mem_nil, or_false, not_or] at harrow
  simp [toList_text, fields, List.intercalate, hinput, houtput, hmove, harrow, hnext, hne]

end Transition

/-! ## Lines of a state -/

/-- Whether a line goes on with the state that was begun before. -/
def isIndented (line : String) : Bool := line.toList.head? == some ' '

namespace State

/-- The line that begins the state with id `id`. -/
def heading (id : Nat) : String := s!"state {id}:"

/-- The lines of the transitions of a state. -/
def body (s : State) : List String := (s.rules ++ [s.fallback]).map fun t => "  " ++ t.text

theorem lines_eq (id : Nat) (s : State) : s.lines id = heading id :: s.body := rfl

theorem toList_heading (id : Nat) :
    (heading id).toList = "state ".toList ++ Nat.toDigits 10 id ++ [':'] := by
  have hself : ∀ s : String, toString s = s := fun _ => rfl
  simp [heading, hself]

theorem isIndented_heading (id : Nat) : isIndented (heading id) = false := by
  rw [isIndented, toList_heading]
  rfl

theorem isIndented_of_mem_body {s : State} {line : String} (h : line ∈ s.body) :
    isIndented line = true := by
  obtain ⟨t, -, rfl⟩ := List.mem_map.1 h
  simp [isIndented]

theorem body_injective : Function.Injective body := by
  intro s s' h
  have hline : Function.Injective fun t : Transition => "  " ++ t.text := by
    intro t u h
    rw [← String.toList_inj, String.toList_append, String.toList_append] at h
    exact Transition.text_injective (String.toList_inj.1 (List.append_cancel_left h))
  -- what tells the fallback from the explicit transitions is that it comes last
  obtain ⟨hrules, hfallback⟩ := List.append_inj' (hline.list_map h) rfl
  obtain ⟨rules, fallback⟩ := s
  rw [State.mk.injEq]
  exact ⟨hrules, List.singleton_inj.1 hfallback⟩

theorem length_body (s : State) : s.body.length = s.rules.length + 1 := by
  simp [body]

theorem not_mem_of_mem_lines {c : Char} (hblank : Text.isBlank c = true) (hne : c ≠ ' ') {id : Nat}
    {s : State} {line : String} (h : line ∈ s.lines id) : c ∉ line.toList := by
  rw [lines_eq] at h
  rcases List.mem_cons.1 h with rfl | h
  · have hdigits : c ∉ Nat.toDigits 10 id := by
      intro hc
      rw [unbroken_toDigits id c hc] at hblank
      cases hblank
    have hword : ("state ".toList ++ [':']).all (fun d => d = ' ' || !Text.isBlank d) = true := by
      decide
    intro hc
    rw [toList_heading, List.mem_append, List.mem_append] at hc
    have hc : c ∈ "state ".toList ++ [':'] := by
      rcases hc with (hc | hc) | hc
      · exact List.mem_append_left _ hc
      · exact absurd hc hdigits
      · exact List.mem_append_right _ hc
    have := List.all_eq_true.1 hword c hc
    simp [hne, hblank] at this
  · obtain ⟨t, -, rfl⟩ := List.mem_map.1 h
    simp [hne, Transition.not_mem_text hblank hne t]

/-! ## Lines of several states -/

/-- The lines of states of which the first has the given id. -/
def linesFrom (first : Nat) (states : List State) : List String :=
  (states.zipIdx first).flatMap fun (s, id) => s.lines id

theorem linesFrom_cons (first : Nat) (s : State) (states : List State) :
    linesFrom first (s :: states) = heading first :: (s.body ++ linesFrom (first + 1) states) := by
  simp [linesFrom, lines_eq]

/-- The lines of a state end where the next line is not indented. -/
theorem takeWhile_body_append (s : State) (first : Nat) (states : List State) :
    (s.body ++ linesFrom first states).takeWhile isIndented = s.body := by
  rw [List.takeWhile_append_of_pos fun _ => isIndented_of_mem_body]
  cases states with
  | nil => exact List.append_nil _
  | cons s' states =>
    rw [linesFrom_cons, List.takeWhile_cons_of_neg (by simp [isIndented_heading]), List.append_nil]

theorem length_linesFrom (first : Nat) (states : List State) :
    (linesFrom first states).length =
      2 * states.length + (states.map (·.rules.length)).sum := by
  induction states generalizing first with
  | nil => rfl
  | cons s states ih =>
    rw [linesFrom_cons, List.length_cons, List.length_append, ih, length_body, List.length_cons,
      List.map_cons, List.sum_cons]
    omega

theorem linesFrom_injective (first : Nat) : Function.Injective (linesFrom first) := by
  intro states states' h
  induction states generalizing first states' with
  | nil =>
    cases states' with
    | nil => rfl
    | cons s' states' =>
      rw [linesFrom_cons] at h
      cases h
  | cons s states ih =>
    cases states' with
    | nil =>
      rw [linesFrom_cons] at h
      cases h
    | cons s' states' =>
      rw [linesFrom_cons, linesFrom_cons, List.cons.injEq] at h
      obtain ⟨-, h⟩ := h
      have hbody : s.body = s'.body := by
        rw [← takeWhile_body_append s (first + 1) states, h, takeWhile_body_append]
      rw [hbody] at h
      rw [body_injective hbody, ih (first + 1) (List.append_cancel_left h)]

end State

/-! ## The text -/

namespace Text

variable {ls : List (List Char)}

theorem dropReturn_eq_self {l : List Char} (h : '\r' ∉ l) : dropReturn l = l :=
  if_neg fun hlast => h (List.mem_of_getLast? hlast)

/-- Lines that are each ended by a line feed are the lines of the text that they make. -/
theorem lines_flatMap_feed (hfeed : ∀ l ∈ ls, '\n' ∉ l) (hreturn : ∀ l ∈ ls, '\r' ∉ l) :
    lines (ls.flatMap fun l => l ++ ['\n']) = ls := by
  have hmap : ls.map dropReturn = ls := by
    rw [List.map_congr_left fun l hl => dropReturn_eq_self (hreturn l hl), List.map_id']
  simp [lines, splitOn_flatMap_feed hfeed, hmap]

end Text

theorem lines_listing (states : Array State) :
    Text.lines (listing states).toList = (listingLines states).map String.toList := by
  have htext : (listing states).toList =
      ((listingLines states).map String.toList).flatMap fun l => l ++ ['\n'] := by
    simp [listing, String.toList_join, List.flatMap_map]
  have hmem : ∀ {c : Char}, Text.isBlank c = true → c ≠ ' ' →
      ∀ l ∈ (listingLines states).map String.toList, c ∉ l := by
    intro c hblank hne l hl
    obtain ⟨line, hline, rfl⟩ := List.mem_map.1 hl
    obtain ⟨⟨s, id⟩, -, hline⟩ := List.mem_flatMap.1 hline
    exact State.not_mem_of_mem_lines hblank hne hline
  rw [htext, Text.lines_flatMap_feed (hmem (by decide) (by decide)) (hmem (by decide) (by decide))]

/-- From its listing the states of a machine can be read off, each with its explicit transitions
in order and its fallback. The listing has two lines for each state and one for each explicit
transition. -/
theorem listing_lossless (m m' : Machine) :
    (m.listing = m'.listing ↔ m.states = m'.states) ∧
      (Text.lines m.listing.toList).length = 2 * m.states.size + m.transitionCount := by
  constructor
  · refine ⟨fun h => ?_, fun h => by rw [Machine.listing, Machine.listing, h]⟩
    have hlines : listingLines m.states = listingLines m'.states := by
      have htext := lines_listing m.states
      rw [show listing m.states = listing m'.states from h, lines_listing] at htext
      exact (List.map_injective_iff.2 (fun _ _ => String.toList_inj.1) htext).symm
    exact Array.toList_inj.1 (State.linesFrom_injective 0 hlines)
  · rw [Machine.listing, lines_listing, List.length_map, Machine.transitionCount_eq]
    exact State.length_linesFrom 0 m.states.toList

end StackTape
