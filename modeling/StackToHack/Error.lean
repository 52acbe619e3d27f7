/-
  StackToHack.Error — why a run, or a step of one, fails, and how that is reported.

  `Error` is the cause: a fault of an instruction at its place in a source, a file that
  cannot be used, or a use that is not allowed. `Diagnostic` is the report: the place
  and the reason in words. `Error.diagnostic` words each cause, and
  `Diagnostic.message` puts the place first.
-/

import StackToHack.Fault

namespace StackToHack

/-! ## Reports -/

structure Location where
  unit : String
  /-- Lines count from 1. -/
  line : Nat
  text : String
  deriving DecidableEq, Repr

def Location.display (place : Location) : String :=
  place.unit ++ ".vm:" ++ place.line.repr ++ ": `" ++ place.text ++ "`"

inductive Diagnostic
  | source (category : FaultCategory) (place : Location) (reason : String)
  | io (context : String) (reason : String)
  | usage (reason : String)
  deriving DecidableEq, Repr

namespace Diagnostic

def category : Diagnostic → String
  | source c _ _ => c.name
  | io _ _ => "io"
  | usage _ => "usage"

def location? : Diagnostic → Option Location
  | source _ place _ => some place
  | io _ _ => none
  | usage _ => none

def message : Diagnostic → String
  | source _ place reason => place.display ++ ": " ++ reason
  | io context reason => context ++ ": " ++ reason
  | usage reason => reason

end Diagnostic

/-! ## Causes -/

inductive FileFault
  | notFound
  | notADirectory
  | isADirectory
  /-- The bytes are no UTF-8 text. -/
  | notText
  /-- What receives the output gives this reason. -/
  | refused (reason : String)
  deriving DecidableEq, Repr

def FileFault.message : FileFault → String
  | notFound => "No such file or directory (os error 2)"
  | notADirectory => "Not a directory (os error 20)"
  | isADirectory => "Is a directory (os error 21)"
  | notText => "stream did not contain valid UTF-8"
  | refused reason => reason

inductive UsageFault
  | repeatedUnit (name : String)
  | invalidEntry (entry : String) (why : NameFault)
  | noUnitsIn (directory : String)
  | notAUnit (path : String)
  | noUnitName (path : String)
  | noOutputName (directory : String)
  | severalInputs
  deriving DecidableEq, Repr

def UsageFault.message : UsageFault → String
  | repeatedUnit name => "more than one unit is named `" ++ name ++ "`"
  | invalidEntry entry why => "invalid entry procedure `" ++ entry ++ "`: " ++ why.message entry
  | noUnitsIn directory => directory ++ " contains no .vm files"
  | notAUnit path => path ++ " is not a .vm file"
  | noUnitName path => path ++ " has no usable file name"
  | noOutputName directory => "cannot name output for " ++ directory
  | severalInputs => "several inputs need an explicit -o/--output"

inductive Error
  | instruction (place : Location) (fault : Fault)
  | file (context : String) (fault : FileFault)
  | usage (fault : UsageFault)
  deriving DecidableEq, Repr

namespace Error

def diagnostic : Error → Diagnostic
  | instruction place fault => .source fault.category place fault.message
  | file context fault => .io context fault.message
  | usage fault => .usage fault.message

end Error

end StackToHack
