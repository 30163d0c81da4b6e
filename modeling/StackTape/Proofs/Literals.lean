import Mathlib.Data.List.Forall2
import Mathlib.Data.Nat.Digits.Defs
import StackTape.Assembly.Statement

/-!
# What integer literals stand for

`Denotes` says which texts are literals and for which numbers, by the mark of a radix and the
positional value of the digits after it. A text is read as a number exactly if it denotes the number
and a word holds it (`parse?_eq_some_iff`). Texts that begin alike are told apart by what follows
the zero: no octal digit is a letter, so the marks do not overlap on literals.

The digits are read from the left, and a number never gets smaller by a digit at its end. So a word
that holds the number in the end has held it all the time (`digits?_eq_foldlM`), and zeros in front
are harmless.
-/

namespace StackTape

theorem mapM_eq_some_iff {α β : Type} {f : α → Option β} {as : List α} {bs : List β} :
    as.mapM f = some bs ↔ List.Forall₂ (fun a b => f a = some b) as bs := by
  induction as generalizing bs with
  | nil => simp [List.forall₂_nil_left_iff, eq_comm]
  | cons a as ih =>
    cases bs with
    | nil => simp [Option.bind_eq_some_iff]
    | cons b bs => simp [Option.bind_eq_some_iff, ih]

namespace Literal

variable {radix n d : Nat} {c : Char} {cs s : List Char}

/-! ## Digits -/

/-- The character is the digit of value `d` in a radix up to sixteen; a letter may be in either
case. -/
def IsDigit (radix : Nat) (c : Char) (d : Nat) : Prop :=
  d < radix ∧ (c = d.digitChar ∨ c = d.digitChar.toUpper)

instance : Decidable (IsDigit radix c d) :=
  inferInstanceAs (Decidable (_ ∧ _))

theorem digit?_digitChar : ∀ d < 16,
    digit? 16 d.digitChar = some d ∧ digit? 16 d.digitChar.toUpper = some d := by
  decide

theorem ofNat_decimal : ∀ d < 10, Char.ofNat (48 + d) = d.digitChar := by
  decide

theorem ofNat_letter : ∀ d < 16, 10 ≤ d →
    Char.ofNat (87 + d) = d.digitChar ∧ Char.ofNat (55 + d) = d.digitChar.toUpper := by
  decide

theorem isDigit_of_digit? (h : digit? 16 c = some d) : IsDigit 16 c d := by
  simp only [digit?, Option.filter_eq_some_iff, decide_eq_true_eq] at h
  obtain ⟨hvalue, hd⟩ := h
  refine ⟨hd, ?_⟩
  -- within each range of characters, the value says which character it is
  rw [← Char.ofNat_toNat c]
  split_ifs at hvalue with hdecimal hlower hupper
  · have hlo : 48 ≤ c.toNat := hdecimal.1
    have hhi : c.toNat ≤ 57 := hdecimal.2
    have hc : c.toNat - 48 = d := by simpa using hvalue
    rw [show c.toNat = 48 + d by omega]
    exact .inl (ofNat_decimal d (by omega))
  · have hlo : 97 ≤ c.toNat := hlower.1
    have hc : c.toNat - 97 + 10 = d := by simpa using hvalue
    rw [show c.toNat = 87 + d by omega]
    exact .inl (ofNat_letter d hd (by omega)).1
  · have hlo : 65 ≤ c.toNat := hupper.1
    have hc : c.toNat - 65 + 10 = d := by simpa using hvalue
    rw [show c.toNat = 55 + d by omega]
    exact .inr (ofNat_letter d hd (by omega)).2

theorem digit?_eq_filter (hradix : radix ≤ 16) (c : Char) :
    digit? radix c = (digit? 16 c).filter (· < radix) := by
  simp only [digit?, Option.filter_filter]
  congr 1
  funext d
  simp
  omega

theorem digit?_eq_some_iff (hradix : radix ≤ 16) : digit? radix c = some d ↔ IsDigit radix c d := by
  rw [digit?_eq_filter hradix, Option.filter_eq_some_iff, decide_eq_true_eq]
  constructor
  · rintro ⟨h, hd⟩
    exact ⟨hd, (isDigit_of_digit? h).2⟩
  · rintro ⟨hd, rfl | rfl⟩
    · exact ⟨(digit?_digitChar d (by omega)).1, hd⟩
    · exact ⟨(digit?_digitChar d (by omega)).2, hd⟩

/-! ## Numbers -/

/-- One or more digits write the number: the first digit counts most. -/
structure Writes (radix : Nat) (cs : List Char) (n : Nat) : Prop where
  ne_nil : cs ≠ []
  digits : ∃ values, List.Forall₂ (IsDigit radix) cs values ∧ Nat.ofDigits radix values.reverse = n

theorem ofDigits_eq (radix : Nat) (values : List Nat) :
    ofDigits radix values = Nat.ofDigits radix values.reverse := by
  rw [Nat.ofDigits_eq_foldr, List.foldr_reverse]
  simp [ofDigits, Nat.mul_comm, Nat.add_comm]

theorem mapM_digit?_eq_some_iff (hradix : radix ≤ 16) {values : List Nat} :
    cs.mapM (digit? radix) = some values ↔ List.Forall₂ (IsDigit radix) cs values := by
  simp only [mapM_eq_some_iff, digit?_eq_some_iff hradix]

theorem digits?_of_ne_nil (hne : cs ≠ []) :
    digits? radix cs = cs.mapM (digit? radix) >>= fun values =>
      if ofDigits radix values < 2 ^ 64 then some (ofDigits radix values) else none := by
  rw [digits?, if_neg (mt List.isEmpty_iff.1 hne)]
  cases cs.mapM (digit? radix) with
  | none => rfl
  | some values =>
    rw [Option.map_some, Option.filter_some]
    simp only [decide_eq_true_eq]
    rfl

theorem digits?_of_writes (hradix : radix ≤ 16) (h : Writes radix cs n) :
    digits? radix cs = if n < 2 ^ 64 then some n else none := by
  obtain ⟨hne, values, hvalues, rfl⟩ := h
  rw [digits?_of_ne_nil hne, (mapM_digit?_eq_some_iff hradix).2 hvalues, ← ofDigits_eq]
  rfl

theorem digits?_eq_some_iff (hradix : radix ≤ 16) :
    digits? radix cs = some n ↔ n < 2 ^ 64 ∧ Writes radix cs n := by
  constructor
  · intro h
    unfold digits? at h
    split at h
    · cases h
    · next hempty =>
      obtain ⟨hsome, hn⟩ := Option.filter_eq_some_iff.1 h
      obtain ⟨values, hvalues, rfl⟩ := Option.map_eq_some_iff.1 hsome
      exact ⟨of_decide_eq_true hn, mt List.isEmpty_iff.2 hempty, values,
        (mapM_digit?_eq_some_iff hradix).1 hvalues, (ofDigits_eq radix values).symm⟩
  · rintro ⟨hn, hwrites⟩
    rw [digits?_of_writes hradix hwrites, if_pos hn]

namespace Writes

theorem zero_cons (hradix : 0 < radix) (h : Writes radix cs n) : Writes radix ('0' :: cs) n := by
  obtain ⟨-, values, hvalues, hn⟩ := h
  refine ⟨List.cons_ne_nil _ _, 0 :: values, .cons ⟨hradix, .inl rfl⟩ hvalues, ?_⟩
  rw [Nat.ofDigits_reverse_zero_cons, hn]

/-- Zeros in front change nothing. -/
theorem zeros_append (hradix : 0 < radix) (h : Writes radix cs n) (k : Nat) :
    Writes radix (List.replicate k '0' ++ cs) n := by
  induction k with
  | zero => exact h
  | succ k ih => exact ih.zero_cons hradix

theorem exists_isDigit (h : Writes radix cs n) : ∀ c ∈ cs, ∃ d, IsDigit radix c d := by
  obtain ⟨-, values, hvalues, -⟩ := h
  have hboth : List.Forall₂ (fun c d => (∃ d, IsDigit radix c d) ∧ IsDigit radix c d) cs values :=
    hvalues.imp fun c d hd => ⟨⟨d, hd⟩, hd⟩
  exact ((List.forall₂_and_left cs values).1 hboth).1

theorem singleton (h : IsDigit radix c d) : Writes radix [c] d := by
  refine ⟨List.cons_ne_nil _ _, [d], .cons h .nil, ?_⟩
  rw [List.reverse_singleton, Nat.ofDigits_singleton]

/-- One more digit at the end. -/
theorem concat (h : Writes radix cs n) (hd : IsDigit radix c d) :
    Writes radix (cs ++ [c]) (d + radix * n) := by
  obtain ⟨-, values, hvalues, rfl⟩ := h
  refine ⟨by simp, values ++ [d], List.rel_append hvalues (.cons hd .nil), ?_⟩
  rw [List.reverse_append, List.reverse_singleton, List.singleton_append, Nat.ofDigits_cons]

/-- Every number is written by its digits. -/
theorem toDigits (hradix : 1 < radix) (n : Nat) : Writes radix (Nat.toDigits radix n) n := by
  induction n using Nat.strongRecOn with
  | ind n ih =>
    rw [Nat.toDigits_eq_if hradix]
    split
    · next hlt => exact singleton ⟨hlt, .inl rfl⟩
    · next hge =>
      have hquotient := ih (n / radix) (Nat.div_lt_self (by omega) hradix)
      have hlast : IsDigit radix (n % radix).digitChar (n % radix) :=
        ⟨Nat.mod_lt n (by omega), .inl rfl⟩
      have hconcat := hquotient.concat hlast
      rwa [Nat.mod_add_div] at hconcat

end Writes

/-! ## Numbers in a word -/

/-- The number with one more digit at its end, if a word of 64 bits holds it. -/
def extend? (radix n d : Nat) : Option Nat :=
  if n * radix + d < 2 ^ 64 then some (n * radix + d) else none

theorem le_foldl (hradix : 0 < radix) (n : Nat) (values : List Nat) :
    n ≤ values.foldl (fun n d => n * radix + d) n := by
  induction values generalizing n with
  | nil => exact Nat.le_refl n
  | cons d values ih =>
    calc n ≤ n * radix := Nat.le_mul_of_pos_right n hradix
      _ ≤ n * radix + d := Nat.le_add_right _ d
      _ ≤ values.foldl (fun n d => n * radix + d) (n * radix + d) := ih (n * radix + d)

/-- The word is outgrown on the way only if it is outgrown in the end. -/
theorem foldlM_extend? (hradix : 0 < radix) (hn : n < 2 ^ 64) (values : List Nat) :
    values.foldlM (extend? radix) n =
      if values.foldl (fun n d => n * radix + d) n < 2 ^ 64 then
        some (values.foldl (fun n d => n * radix + d) n)
      else none := by
  induction values generalizing n with
  | nil =>
    rw [List.foldl_nil, if_pos hn]
    rfl
  | cons d values ih =>
    rw [List.foldlM_cons, List.foldl_cons, extend?]
    by_cases hd : n * radix + d < 2 ^ 64
    · rw [if_pos hd]
      exact ih hd
    · have hle := le_foldl hradix (n * radix + d) values
      rw [if_neg hd, if_neg fun h => hd (Nat.lt_of_le_of_lt hle h)]
      rfl

theorem digits?_eq_foldlM (hradix : 0 < radix) (hne : cs ≠ []) :
    digits? radix cs =
      cs.mapM (digit? radix) >>= fun values => values.foldlM (extend? radix) 0 := by
  rw [digits?_of_ne_nil hne]
  congr 1
  funext values
  exact (foldlM_extend? hradix (by decide) values).symm

/-! ## Literals -/

/-- The marks in front of the digits, each with its radix. -/
def marks : List (String × Nat) := [("0x", 16), ("0X", 16), ("0b", 2), ("0B", 2), ("0", 8)]

/-- The text is a literal of the number: digits after a mark, or decimal digits that do not begin
like a mark. -/
inductive Denotes : List Char → Nat → Prop
  | marked {mark : String} {radix : Nat} {cs : List Char} {n : Nat} :
      (mark, radix) ∈ marks → Writes radix cs n → Denotes (mark.toList ++ cs) n
  | plain {cs : List Char} {n : Nat} :
      cs = ['0'] ∨ cs.head? ≠ some '0' → Writes 10 cs n → Denotes cs n

theorem radix_of_mem_marks {mark : String} (h : (mark, radix) ∈ marks) :
    0 < radix ∧ radix ≤ 16 := by
  simp only [marks, List.mem_cons, Prod.mk.injEq, List.not_mem_nil, or_false] at h
  omega

/-- How a text is read: by the first mark that it begins with, or else as it is. -/
theorem parse?_cases (s : List Char) :
    (∃ mark radix cs, (mark, radix) ∈ marks ∧ s = mark.toList ++ cs ∧
      parse? s = digits? radix cs) ∨
    (s = ['0'] ∨ s.head? ≠ some '0') ∧ parse? s = digits? 10 s := by
  fun_cases parse? s with
  | case1 cs => exact .inl ⟨"0x", 16, cs, by simp [marks], rfl, rfl⟩
  | case2 cs => exact .inl ⟨"0X", 16, cs, by simp [marks], rfl, rfl⟩
  | case3 cs => exact .inl ⟨"0b", 2, cs, by simp [marks], rfl, rfl⟩
  | case4 cs => exact .inl ⟨"0B", 2, cs, by simp [marks], rfl, rfl⟩
  | case5 c cs => exact .inl ⟨"0", 8, c :: cs, by simp [marks], rfl, rfl⟩
  | case6 s _ _ _ _ hzero =>
    refine .inr ⟨?_, rfl⟩
    -- a zero in front stands alone: with another character after it, it is a mark
    by_cases hhead : s.head? = some '0'
    · obtain ⟨rest, rfl⟩ := List.head?_eq_some_iff.1 hhead
      cases rest with
      | nil => exact .inl rfl
      | cons c cs => exact (hzero c cs rfl).elim
    · exact .inr hhead

theorem parse?_octal (hc : c ∉ ['x', 'X', 'b', 'B']) :
    parse? ('0' :: c :: cs) = digits? 8 (c :: cs) := by
  unfold parse?
  split <;> simp_all

/-- No octal digit completes another mark. -/
theorem IsDigit.not_mem_letters (h : IsDigit 8 c d) : c ∉ ['x', 'X', 'b', 'B'] := by
  have hsome := (digit?_eq_some_iff (by decide)).2 h
  intro hc
  simp only [List.mem_cons, List.not_mem_nil, or_false] at hc
  rcases hc with rfl | rfl | rfl | rfl <;> cases hsome

theorem parse?_of_mark {mark : String} (hmark : (mark, radix) ∈ marks) (h : Writes radix cs n) :
    parse? (mark.toList ++ cs) = digits? radix cs := by
  simp only [marks, List.mem_cons, Prod.mk.injEq, List.not_mem_nil, or_false] at hmark
  rcases hmark with ⟨rfl, rfl⟩ | ⟨rfl, rfl⟩ | ⟨rfl, rfl⟩ | ⟨rfl, rfl⟩ | ⟨rfl, rfl⟩
  · rfl
  · rfl
  · rfl
  · rfl
  · obtain ⟨c, cs, rfl⟩ := List.exists_cons_of_ne_nil h.ne_nil
    obtain ⟨d, hd⟩ := h.exists_isDigit c List.mem_cons_self
    exact parse?_octal hd.not_mem_letters

theorem parse?_of_plain (h : s = ['0'] ∨ s.head? ≠ some '0') : parse? s = digits? 10 s := by
  rcases h with rfl | hhead
  · rfl
  · unfold parse?
    split <;> simp_all

theorem parse?_eq_some_iff : parse? s = some n ↔ n < 2 ^ 64 ∧ Denotes s n := by
  constructor
  · intro h
    rcases parse?_cases s with ⟨mark, radix, cs, hmark, rfl, hparse⟩ | ⟨hplain, hparse⟩
    · rw [hparse, digits?_eq_some_iff (radix_of_mem_marks hmark).2] at h
      exact ⟨h.1, .marked hmark h.2⟩
    · rw [hparse, digits?_eq_some_iff (by decide)] at h
      exact ⟨h.1, .plain hplain h.2⟩
  · rintro ⟨hn, hdenotes⟩
    cases hdenotes with
    | marked hmark hwrites =>
      rw [parse?_of_mark hmark hwrites, digits?_eq_some_iff (radix_of_mem_marks hmark).2]
      exact ⟨hn, hwrites⟩
    | plain hplain hwrites =>
      rw [parse?_of_plain hplain, digits?_eq_some_iff (by decide)]
      exact ⟨hn, hwrites⟩

theorem IsDigit.isAlphanum (hradix : radix ≤ 16) (h : IsDigit radix c d) : c.isAlphanum = true := by
  have hchar : ∀ d < 16, d.digitChar.isAlphanum = true ∧ d.digitChar.toUpper.isAlphanum = true := by
    decide
  obtain ⟨hd, rfl | rfl⟩ := h
  · exact (hchar d (by omega)).1
  · exact (hchar d (by omega)).2

theorem isAlphanum_of_mem_marks {mark : String} (h : (mark, radix) ∈ marks) :
    ∀ c ∈ mark.toList, c.isAlphanum = true := by
  have hall : marks.all (fun entry => entry.1.toList.all Char.isAlphanum) = true := by decide
  exact List.all_eq_true.1 (List.all_eq_true.1 hall _ h)

/-- Literals are made of letters and digits. -/
theorem Denotes.isAlphanum (h : Denotes s n) : ∀ c ∈ s, c.isAlphanum = true := by
  have hdigits : ∀ {radix cs}, radix ≤ 16 → Writes radix cs n → ∀ c ∈ cs, c.isAlphanum = true := by
    intro radix cs hradix hwrites c hc
    obtain ⟨d, hd⟩ := hwrites.exists_isDigit c hc
    exact hd.isAlphanum hradix
  cases h with
  | marked hmark hwrites =>
    intro c hc
    rcases List.mem_append.1 hc with hc | hc
    · exact isAlphanum_of_mem_marks hmark c hc
    · exact hdigits (radix_of_mem_marks hmark).2 hwrites c hc
  | plain _ hwrites => exact hdigits (by decide) hwrites

/-- A text is read as a number exactly if a word holds the number and the text denotes it. What is
neither an ASCII letter nor an ASCII digit spoils a literal wherever it stands, be it a sign, an
underscore, a blank or a digit of another script, and so does the lack of digits. Zeros after a mark
never count: it is the number that must fit, and the word in which it is put together digit by digit
is outgrown by nothing else. -/
theorem read_exactly :
    (∀ s n, parse? s = some n ↔ n < 2 ^ 64 ∧ Denotes s n) ∧
    (∀ s, (∃ c ∈ s, c.isAlphanum = false) → parse? s = none) ∧
    (∀ s ∈ ["", "0x", "0X", "0b", "0B"], parse? s.toList = none) ∧
    (∀ mark radix, (mark, radix) ∈ marks → ∀ cs n, Writes radix cs n → ∀ zeros,
      parse? (mark.toList ++ (List.replicate zeros '0' ++ cs)) =
        if n < 2 ^ 64 then some n else none) ∧
    ∀ radix cs, 0 < radix → cs ≠ [] →
      digits? radix cs =
        cs.mapM (digit? radix) >>= fun values => values.foldlM (extend? radix) 0 := by
  refine ⟨fun s n => parse?_eq_some_iff, ?_, by decide, ?_, ?_⟩
  · rintro s ⟨c, hc, hother⟩
    rw [Option.eq_none_iff_forall_ne_some]
    intro n h
    have halphanum := (parse?_eq_some_iff.1 h).2.isAlphanum c hc
    rw [hother] at halphanum
    cases halphanum
  · intro mark radix hmark cs n hwrites zeros
    have hradix := radix_of_mem_marks hmark
    have hpadded := hwrites.zeros_append hradix.1 zeros
    rw [parse?_of_mark hmark hpadded, digits?_of_writes hradix.2 hpadded]
  · intro radix cs hradix hne
    exact digits?_eq_foldlM hradix hne

/-- Behind forty zeros, the largest word is read and the next number, in octal, is not. Signs,
digits of other scripts and a mark alone are refused, and the last digit of a decimal number may be
one too many. -/
theorem largest_word_read :
    parse? ("0X".toList ++ (List.replicate 40 '0' ++ "FFFFffffFFFFffff".toList)) =
      some (2 ^ 64 - 1) ∧
    parse? ("0".toList ++ (List.replicate 40 '0' ++ "2000000000000000000000".toList)) = none ∧
    parse? "+1".toList = none ∧ parse? "1٣".toList = none ∧ parse? "0B".toList = none ∧
    Denotes "18446744073709551615".toList (2 ^ 64 - 1) ∧
    digits? 10 "18446744073709551616".toList = none := by
  obtain ⟨hread, hother, hempty, hzeros, hwordwise⟩ := read_exactly
  have hhex : Writes 16 "FFFFffffFFFFffff".toList (2 ^ 64 - 1) :=
    ⟨by decide, List.replicate 16 15, by decide, by decide⟩
  have hoctal : Writes 8 "2000000000000000000000".toList (2 ^ 64) :=
    ⟨by decide, 2 :: List.replicate 21 0, by decide, by decide⟩
  refine ⟨?_, ?_, ?_, ?_, hempty "0B" (by decide), ?_, ?_⟩
  · exact hzeros "0X" 16 (by decide) _ _ hhex 40
  · exact hzeros "0" 8 (by decide) _ _ hoctal 40
  · exact hother _ ⟨'+', by decide, by decide⟩
  · exact hother _ ⟨'٣', by decide, by decide⟩
  · exact ((hread _ _).1 (by decide)).2
  · rw [hwordwise 10 _ (by decide) (by decide)]
    decide

end Literal

end StackTape
