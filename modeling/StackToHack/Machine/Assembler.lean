/-
  StackToHack.Machine.Assembler — from the text of a program to the machine's orders.

  The assembler reads text, so it knows nothing of how a program was made. The first pass
  counts the lines that become orders and gives each label the count at its line. The
  second reads the orders. A symbol behind `@` is a number if it can be read as one, else
  predefined, else a label, else a variable; variables get the cells from 16 on in the
  order in which they come first.
  - `Assembler.assemble`: the orders, the labels and the variables, or the first problem.
-/

import StackToHack.Text.Blank
import StackToHack.Text.Line
import StackToHack.Predefined
import StackToHack.Machine.Processor

namespace StackToHack

def firstVariable : Nat := 16

def maxLoad : Nat := 32767

structure Assembled where
  orders : List Order
  /-- The place of each label. -/
  labels : List (String × Nat)
  /-- The variables, the first in cell 16. -/
  cells : List String

namespace Assembler

inductive Problem
  | repeatedLabel (name : String)
  | tooLarge (number : Nat)
  | unknownDestination (text : String)
  | unknownExpression (text : String)
  | unknownCondition (text : String)
  deriving DecidableEq, Repr

/-! ## Lines -/

/-- The lines that hold something, without comments and blanks around. -/
def lines (source : String) : List (List Char) :=
  ((Text.lines source.toList).map fun raw => Text.trim (Text.beforeComment raw)).filter (!·.isEmpty)

/-- The name between the parentheses of a label's line. -/
def labelOf? : List Char → Option String
  | '(' :: rest => if rest.getLast? = some ')' then some (String.ofList rest.dropLast) else none
  | _ => none

/-! ## First pass -/

/-- The place of each label, if the next order has place `next`. -/
def labels (next : Nat) (known : List (String × Nat)) : List (List Char) → Except Problem (List (String × Nat))
  | [] => .ok known
  | line :: rest => match labelOf? line with
    | none => labels (next + 1) known rest
    | some name =>
      if (known.lookup name).isSome then .error (.repeatedLabel name)
      else labels next ((name, next) :: known) rest

/-! ## Second pass -/

/-- What a symbol stands for, and the variables when it has been met. -/
def resolve (labels : List (String × Nat)) (met : List String) (name : String) :
    Except Problem (Nat × List String) :=
  match (Text.unsigned? name.toList).filter (· < 65536) with
  | some n => if n ≤ maxLoad then .ok (n, met) else .error (.tooLarge n)
  | none => match Predefined.ofName? name with
    | some p => .ok (p.address, met)
    | none => match labels.lookup name with
      | some place => .ok (place, met)
      | none => match met.idxOf? name with
        | some i => .ok (firstVariable + i, met)
        | none => .ok (firstVariable + met.length, met ++ [name])

def cutFirst (sep : Char) (cs : List Char) : List Char × Option (List Char) :=
  (cs.takeWhile (· ≠ sep), (cs.dropWhile (· ≠ sep)).tail?)

def destination (text : List Char) : Except Problem Destination :=
  match Destination.ofText? (String.ofList text) with
  | some t => .ok t
  | none => .error (.unknownDestination (String.ofList text))

def expression (text : List Char) : Except Problem Expression :=
  match Expression.ofText? (String.ofList text) with
  | some e => .ok e
  | none => .error (.unknownExpression (String.ofList text))

def condition (text : List Char) : Except Problem Condition :=
  match Condition.ofText? (String.ofList text) with
  | some j => .ok j
  | none => .error (.unknownCondition (String.ofList text))

/-- A computation: the destination ends at `=`, the condition starts at `;`. -/
def computation (line : List Char) : Except Problem Order := do
  let (t, rest) ← match cutFirst '=' line with
    | (_, none) => pure (Destination.nowhere, line)
    | (text, some rest) => pure (← destination text, rest)
  match cutFirst ';' rest with
  | (text, none) => return .compute t (← expression text) .never
  | (text, some jump) =>
    let j ← condition jump
    return .compute t (← expression text) j

def orders (labels : List (String × Nat)) (met : List String) :
    List (List Char) → Except Problem (List Order × List String)
  | [] => .ok ([], met)
  | line :: rest => match line with
    | '(' :: _ => orders labels met rest
    | '@' :: name => do
      let (n, met) ← resolve labels met (String.ofList name)
      let (code, met) ← orders labels met rest
      return (.load (BitVec.ofNat 16 n) :: code, met)
    | _ => do
      let order ← computation line
      let (code, met) ← orders labels met rest
      return (order :: code, met)

def assemble (source : String) : Except Problem Assembled := do
  let places ← labels 0 [] (lines source)
  let (code, met) ← orders places [] (lines source)
  return ⟨code, places, met⟩

end Assembler

end StackToHack
