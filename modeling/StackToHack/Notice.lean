/-
  StackToHack.Notice — what a run reports while it works.

  Notices are information, warnings and errors; a quiet run shows errors only. Each is
  one line, its level first.
-/

import StackToHack.Error

namespace StackToHack

structure Summary where
  units : Nat
  instructions : Nat
  /-- Lines of assembly, comments included. -/
  lines : Nat
  deriving DecidableEq, Repr

inductive Level
  | info
  | warning
  | error
  deriving DecidableEq, Repr

def Level.name : Level → String
  | info => "info"
  | warning => "warning"
  | error => "error"

inductive Notice
  | translated (unit : String) (instructions : Nat)
  | entryMissing (entry : String)
  | wrote (path : String) (summary : Summary)
  | failed (e : Error)
  deriving DecidableEq, Repr

namespace Notice

def level : Notice → Level
  | translated _ _ => .info
  | entryMissing _ => .warning
  | wrote _ _ => .info
  | failed _ => .error

def message : Notice → String
  | translated unit instructions => "translated " ++ unit ++ " (" ++ instructions.repr ++ " instructions)"
  | entryMissing entry => "entry procedure " ++ entry ++ " is never defined; the bootstrap call has no target"
  | wrote path summary =>
    "wrote " ++ path ++ " (" ++ summary.lines.repr ++ " lines from " ++ summary.instructions.repr ++
      " instructions in " ++ summary.units.repr ++ " units)"
  | failed e => "[" ++ e.diagnostic.category ++ "] " ++ e.diagnostic.message

def line (n : Notice) : String :=
  n.level.name ++ ": " ++ n.message ++ "\n"

def write (quiet : Bool) (notices : List Notice) : String :=
  String.join ((notices.filter fun n => !quiet || n.level = .error).map line)

end Notice

end StackToHack
