/-
  StackToHack.Assembly.Symbol — the symbols of the assembly that is written.

  Words of the source name procedures and labels; the other symbols are made for them
  or known to the assembler. `text` writes them all into one set of names.
-/

import StackToHack.Predefined

namespace StackToHack

inductive Symbol
  | predefined (p : Predefined)
  | procedure (name : String)
  /-- A label of a procedure. -/
  | label (procedure name : String)
  /-- Where a procedure's call number `site` returns to. -/
  | returnAddress (procedure : String) (site : Nat)
  /-- Where comparison `number` goes on if it holds. -/
  | holds (number : Nat)
  /-- Where comparison `number` ends. -/
  | done (number : Nat)
  /-- The loop in which the machine parks. -/
  | halt
  /-- A unit's static variable. -/
  | static (unit : String) (index : Nat)
  deriving DecidableEq, Repr

namespace Symbol

def text : Symbol → String
  | predefined p => p.name
  | procedure f => f
  | label f l => f ++ "$" ++ l
  | returnAddress f n => f ++ "$ret." ++ n.repr
  | holds n => "TRUE_" ++ n.repr
  | done n => "DONE_" ++ n.repr
  | halt => "$halt"
  | static u i => u ++ "." ++ i.repr

end Symbol

end StackToHack
