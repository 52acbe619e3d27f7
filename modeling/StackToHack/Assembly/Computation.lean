/-
  StackToHack.Assembly.Computation — the computations of the Hack machine.

  A computation has a destination, an expression over the registers `A` and `D` and the
  addressed cell `M`, and a condition on the result under which the machine jumps. The
  three tables are the whole vocabulary of the assembler.
  - `Expression.ofText?_text`, `Destination.ofText?_text`, `Condition.ofText?_text`:
    what is written is read back.
-/

namespace StackToHack

/-! ## Expressions -/

inductive Expression
  | zero
  | one
  | minusOne
  | d
  | a
  | m
  | notD
  | notA
  | notM
  | negD
  | negA
  | negM
  | succD
  | succA
  | succM
  | predD
  | predA
  | predM
  | dPlusA
  | dPlusM
  | dMinusA
  | dMinusM
  | aMinusD
  | mMinusD
  | dAndA
  | dAndM
  | dOrA
  | dOrM
  deriving DecidableEq, Repr

namespace Expression

def text : Expression → String
  | zero => "0"
  | one => "1"
  | minusOne => "-1"
  | d => "D"
  | a => "A"
  | m => "M"
  | notD => "!D"
  | notA => "!A"
  | notM => "!M"
  | negD => "-D"
  | negA => "-A"
  | negM => "-M"
  | succD => "D+1"
  | succA => "A+1"
  | succM => "M+1"
  | predD => "D-1"
  | predA => "A-1"
  | predM => "M-1"
  | dPlusA => "D+A"
  | dPlusM => "D+M"
  | dMinusA => "D-A"
  | dMinusM => "D-M"
  | aMinusD => "A-D"
  | mMinusD => "M-D"
  | dAndA => "D&A"
  | dAndM => "D&M"
  | dOrA => "D|A"
  | dOrM => "D|M"

def all : List Expression :=
  [zero, one, minusOne, d, a, m, notD, notA, notM, negD, negA, negM, succD, succA, succM, predD, predA, predM, dPlusA,
    dPlusM, dMinusA, dMinusM, aMinusD, mMinusD, dAndA, dAndM, dOrA, dOrM]

def ofText? (word : String) : Option Expression :=
  all.find? (·.text == word)

theorem ofText?_text (e : Expression) : ofText? e.text = some e := by
  cases e <;> rfl

def usesMemory : Expression → Bool
  | m | notM | negM | succM | predM | dPlusM | dMinusM | mMinusD | dAndM | dOrM => true
  | _ => false

end Expression

/-! ## Destinations -/

/-- Where the result goes: the register `A`, the addressed cell, the register `D`. -/
structure Destination where
  a : Bool := false
  m : Bool := false
  d : Bool := false
  deriving DecidableEq, Repr

namespace Destination

def nowhere : Destination := {}

def toA : Destination := { a := true }

def toM : Destination := { m := true }

def toD : Destination := { d := true }

def toAM : Destination := { a := true, m := true }

def text (t : Destination) : String :=
  (if t.a then "A" else "") ++ (if t.m then "M" else "") ++ (if t.d then "D" else "")

def all : List Destination :=
  [toM, toD, { m := true, d := true }, toA, toAM, { a := true, d := true }, { a := true, m := true, d := true }]

def ofText? (word : String) : Option Destination :=
  all.find? (·.text == word)

theorem ofText?_text {t : Destination} (h : t ≠ nowhere) : ofText? t.text = some t := by
  obtain ⟨a, m, d⟩ := t
  revert h
  cases a <;> cases m <;> cases d <;> decide

end Destination

/-! ## Conditions -/

inductive Condition
  | never
  | gt
  | eq
  | ge
  | lt
  | ne
  | le
  | always
  deriving DecidableEq, Repr

namespace Condition

def text : Condition → String
  | never => ""
  | gt => "JGT"
  | eq => "JEQ"
  | ge => "JGE"
  | lt => "JLT"
  | ne => "JNE"
  | le => "JLE"
  | always => "JMP"

def all : List Condition :=
  [gt, eq, ge, lt, ne, le, always]

def ofText? (word : String) : Option Condition :=
  all.find? (·.text == word)

theorem ofText?_text {j : Condition} (h : j ≠ never) : ofText? j.text = some j := by
  revert h
  cases j <;> decide

end Condition

end StackToHack
