/-! # Blank characters

The characters with the Unicode property `White_Space`, and texts without blanks at their ends. -/

namespace Detachment.Text

/-- Whether a character has the Unicode property `White_Space`. -/
def isBlank (c : Char) : Bool :=
  let n := c.toNat
  (0x09 ≤ n && n ≤ 0x0D) || n == 0x20 || n == 0x85 || n == 0xA0 || n == 0x1680
    || (0x2000 ≤ n && n ≤ 0x200A) || n == 0x2028 || n == 0x2029 || n == 0x202F || n == 0x205F
    || n == 0x3000

/-- Drop the blanks (`isBlank`) at both ends. -/
def trimBlanks (s : List Char) : List Char :=
  ((s.dropWhile isBlank).reverse.dropWhile isBlank).reverse

/-- Drop the blanks at both ends of a string, by `trimBlanks`. -/
def trim (s : String) : String :=
  String.ofList (trimBlanks s.toList)

/-- A text without blanks is left alone by `trimBlanks`. -/
theorem trimBlanks_eq_self {s : List Char} (h : ∀ c ∈ s, isBlank c = false) :
    trimBlanks s = s := by
  have drop : ∀ t : List Char, (∀ c ∈ t, isBlank c = false) → t.dropWhile isBlank = t := by
    intro t ht
    cases t with
    | nil => rfl
    | cons c r => simp [List.dropWhile, ht c (by simp)]
  rw [trimBlanks, drop s h, drop s.reverse (by simpa using h), List.reverse_reverse]

end Detachment.Text
