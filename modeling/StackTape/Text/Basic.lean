/-!
# Lines, blanks and words

The lines of a text, the characters with the Unicode property `White_Space`, and the cutting of a
line into words at them.
-/

namespace StackTape.Text

/-! ## Lines -/

/-- Remove a carriage return at the end. -/
def dropReturn (line : List Char) : List Char :=
  if line.getLast? = some '\r' then line.dropLast else line

/-- The lines of a text. A line ends with a line feed, before which a carriage return may stand;
the last line may lack its end. -/
def lines (cs : List Char) : List (List Char) :=
  let parts := cs.splitOn '\n'
  parts.dropLast.map dropReturn ++ (parts.getLast?.filter fun last => !last.isEmpty).toList

/-- Indent the lines of a text after the first. -/
def hang (indent : Nat) (cs : List Char) : List Char :=
  cs.flatMap fun c => if c = '\n' then c :: List.replicate indent ' ' else [c]

/-! ## Blanks and words -/

/-- The characters with the Unicode property `White_Space`. -/
def isBlank (c : Char) : Bool :=
  (0x09 ≤ c.toNat && c.toNat ≤ 0x0D) || c.toNat == 0x20 || c.toNat == 0x85 || c.toNat == 0xA0 ||
    c.toNat == 0x1680 || (0x2000 ≤ c.toNat && c.toNat ≤ 0x200A) || c.toNat == 0x2028 ||
    c.toNat == 0x2029 || c.toNat == 0x202F || c.toNat == 0x205F || c.toNat == 0x3000

/-- Remove the blanks at the front. -/
def trimLeft (cs : List Char) : List Char :=
  cs.dropWhile isBlank

/-- Remove the blanks at both ends. -/
def trim (cs : List Char) : List Char :=
  (trimLeft (trimLeft cs).reverse).reverse

/-- The word at the front, up to the first blank. -/
def firstWord (cs : List Char) : List Char :=
  cs.takeWhile fun c => !isBlank c

/-- What follows the word at the front, without the blanks around it. -/
def afterWord (cs : List Char) : List Char :=
  trim (cs.dropWhile fun c => !isBlank c)

@[simp]
theorem firstWord_append_dropWhile (cs : List Char) :
    firstWord cs ++ cs.dropWhile (fun c => !isBlank c) = cs :=
  List.takeWhile_append_dropWhile

/-- A word holds no blank. -/
theorem not_isBlank_of_mem_firstWord {cs : List Char} {c : Char} (h : c ∈ firstWord cs) :
    isBlank c = false := by
  have := List.all_takeWhile (l := cs) (p := fun c => !isBlank c)
  rw [List.all_eq_true] at this
  simpa using this c h

end StackTape.Text
