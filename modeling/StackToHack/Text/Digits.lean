/-
  StackToHack.Text.Digits — decimal numerals, ASCII digits only.

  `Nat.repr` writes a numeral; `isNumeral` and `value` read one, leading zeros included.
  - `isNumeral_repr` and `value_repr`: what `Nat.repr` writes is read back.
  - `unsigned?` also lets a plus sign stand before the digits.
-/

namespace StackToHack.Text

def isNumeral (cs : List Char) : Bool :=
  !cs.isEmpty && cs.all Char.isDigit

def value (cs : List Char) : Nat :=
  Nat.ofDigitChars 10 cs 0

/-- The number of a numeral before which one plus sign may stand. -/
def unsigned? (cs : List Char) : Option Nat :=
  let digits := match cs with
    | '+' :: rest => rest
    | _ => cs
  if isNumeral digits then some (value digits) else none

theorem isNumeral_repr (n : Nat) : isNumeral n.repr.toList = true := by
  rw [Nat.toList_repr, isNumeral, Bool.and_eq_true]
  refine ⟨?_, List.all_eq_true.mpr fun c hc => Nat.isDigit_of_mem_toDigits (by decide) (by decide) hc⟩
  cases h : Nat.toDigits 10 n with
  | nil => exact absurd h Nat.toDigits_ne_nil
  | cons _ _ => rfl

theorem value_repr (n : Nat) : value n.repr.toList = n := by
  rw [Nat.toList_repr]
  exact Nat.ofDigitChars_toDigits (by decide) (by decide)

end StackToHack.Text
