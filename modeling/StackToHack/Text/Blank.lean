/-
  StackToHack.Text.Blank — the white space that surrounds a line's text.

  `blankRanges` lists the code points with the Unicode property White_Space, as closed
  ranges in increasing order. A zero-width space, a byte order mark and the separators
  001C to 001F do not have the property, so they belong to the text they stand in.
  - `trim` drops the blanks at both ends, and `trim_eq_self` says when there are none.
-/

namespace StackToHack.Text

/-- The code points with the property White_Space, first and last of each range. -/
def blankRanges : List (Nat × Nat) :=
  [(0x9, 0xD), (0x20, 0x20), (0x85, 0x85), (0xA0, 0xA0), (0x1680, 0x1680), (0x2000, 0x200A), (0x2028, 0x2029),
    (0x202F, 0x202F), (0x205F, 0x205F), (0x3000, 0x3000)]

def isBlank (c : Char) : Bool :=
  blankRanges.any fun r => decide (r.1 ≤ c.toNat) && decide (c.toNat ≤ r.2)

def trimEnd (cs : List Char) : List Char :=
  (cs.reverse.dropWhile isBlank).reverse

def trim (cs : List Char) : List Char :=
  trimEnd (cs.dropWhile isBlank)

/-- A text that neither begins nor ends with a blank is its own trim. -/
theorem trim_eq_self {cs : List Char} (first : cs.head?.all (! isBlank ·)) (last : cs.getLast?.all (! isBlank ·)) :
    trim cs = cs := by
  have front : cs.dropWhile isBlank = cs := by
    cases cs with
    | nil => rfl
    | cons c cs => simp_all
  have back : cs.reverse.dropWhile isBlank = cs.reverse := by
    rw [← List.head?_reverse] at last
    cases h : cs.reverse with
    | nil => rfl
    | cons c rest => simp_all
  rw [trim, trimEnd, front, back, List.reverse_reverse]

end StackToHack.Text
