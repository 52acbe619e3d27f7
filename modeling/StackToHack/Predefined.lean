/-
  StackToHack.Predefined — the symbols that the Hack assembler knows by itself.

  Each stands for a fixed cell of memory. A register's number may be written with
  leading zeros or a plus sign, so several names can stand for one register.
  - `ofName?_name`: the plain name of each symbol is read as that symbol.
-/

import StackToHack.Text.Digits

namespace StackToHack

inductive Predefined
  | sp
  | lcl
  | arg
  | this
  | that
  | register (n : Fin 16)
  | screen
  | keyboard
  deriving DecidableEq, Repr

namespace Predefined

def name : Predefined → String
  | sp => "SP"
  | lcl => "LCL"
  | arg => "ARG"
  | this => "THIS"
  | that => "THAT"
  | register n => "R" ++ n.val.repr
  | screen => "SCREEN"
  | keyboard => "KBD"

def address : Predefined → Nat
  | sp => 0
  | lcl => 1
  | arg => 2
  | this => 3
  | that => 4
  | register n => n.val
  | screen => 16384
  | keyboard => 24576

/-- The symbols whose names hold no number. -/
def named : List Predefined :=
  [sp, lcl, arg, this, that, screen, keyboard]

def registerOfName? (name : String) : Option Predefined :=
  match name.toList with
  | 'R' :: number => (Text.unsigned? number).bind fun n => if h : n < 16 then some (register ⟨n, h⟩) else none
  | _ => none

def ofName? (name : String) : Option Predefined :=
  named.find? (·.name == name) <|> registerOfName? name

theorem ofName?_name (p : Predefined) : ofName? p.name = some p := by
  cases p with
  | register n => revert n; decide +kernel
  | _ => rfl

end Predefined

end StackToHack
