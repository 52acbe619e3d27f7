/-
  StackToHack.Scope — what the symbols of the code depend on.

  Labels belong to the procedure whose `function` came last, return addresses are
  counted within it, comparisons are counted over the whole program, and static
  variables belong to the unit. `Instruction.after` is the only thing that moves the
  first three, `Scope.inUnit` the last.
-/

import StackToHack.Instruction
import StackToHack.Assembly.Symbol

namespace StackToHack

structure Scope where
  /-- The comparisons so far. -/
  comparisons : Nat := 0
  /-- The procedure that owns the code; `null` owns what no `function` precedes. -/
  procedure : String := "null"
  /-- The calls so far in this procedure. -/
  calls : Nat := 0
  unit : String := ""
  deriving DecidableEq, Repr

namespace Scope

def inUnit (scope : Scope) (unit : String) : Scope :=
  { scope with unit }

def label (scope : Scope) (name : String) : Symbol :=
  .label scope.procedure name

/-- Where the next call returns to. -/
def returnAddress (scope : Scope) : Symbol :=
  .returnAddress scope.procedure scope.calls

def static (scope : Scope) (index : Nat) : Symbol :=
  .static scope.unit index

end Scope

def Instruction.after (scope : Scope) : Instruction → Scope
  | .operation (.compare _) => { scope with comparisons := scope.comparisons + 1 }
  | .function name _ => { scope with procedure := name, calls := 0 }
  | .call _ _ => { scope with calls := scope.calls + 1 }
  | _ => scope

end StackToHack
