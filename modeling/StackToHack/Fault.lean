/-
  StackToHack.Fault — what can be wrong with one instruction.

  The first group is found in a line's words, the second in the instruction they make.
  `category` sorts faults and `message` words them; where the fault stands is added by
  `StackToHack.Error`.
-/

import StackToHack.Instruction
import StackToHack.Name

namespace StackToHack

/-- The largest number that an instruction of the machine can load. -/
def maxIndex : Nat := 32767

def tempSize : Nat := 8

/-! ## Categories -/

inductive FaultCategory
  | grammar
  | segment
  | arity
  deriving DecidableEq, Repr

def FaultCategory.name : FaultCategory → String
  | grammar => "syntax"
  | segment => "segment"
  | arity => "arity"

/-! ## Faults -/

inductive IndexFault
  | negative
  | tooLarge
  | notANumber
  deriving DecidableEq, Repr

def IndexFault.message (word : String) : IndexFault → String
  | negative => "index `" ++ word ++ "` must be non-negative"
  | tooLarge => "index `" ++ word ++ "` is larger than " ++ maxIndex.repr
  | notANumber => "index `" ++ word ++ "` is not a number"

inductive Fault
  /-- No instruction starts with this word. -/
  | unknownKeyword (word : String)
  /-- So many operands after a keyword that takes none. -/
  | unexpectedOperands (k : Keyword) (found : Nat)
  /-- Not the operands that the keyword takes. -/
  | wrongOperands (k : Keyword)
  | unknownSegment (word : String)
  | index (word : String) (why : IndexFault)
  | name (word : String) (why : NameFault)
  | popConstant
  | constantRange (index : Nat)
  | pointerRange (index : Nat)
  | tempRange (index : Nat)
  deriving DecidableEq, Repr

def Keyword.expectation : Keyword → String
  | operation _ => "no operands"
  | push => "a segment and an index"
  | pop => "a segment and an index"
  | label => "exactly one label"
  | goto => "exactly one label"
  | ifGoto => "exactly one label"
  | function => "a name and a count"
  | call => "a name and a count"
  | ret => "no operands"

namespace Fault

def category : Fault → FaultCategory
  | unknownKeyword _ => .grammar
  | unexpectedOperands _ _ => .arity
  | wrongOperands _ => .grammar
  | unknownSegment _ => .segment
  | index _ _ => .grammar
  | name _ _ => .grammar
  | popConstant => .segment
  | constantRange _ => .segment
  | pointerRange _ => .segment
  | tempRange _ => .segment

def message : Fault → String
  | unknownKeyword word => "unknown instruction `" ++ word ++ "`"
  | unexpectedOperands k found => "`" ++ k.name ++ "` takes no operands, found " ++ found.repr
  | wrongOperands k => "`" ++ k.name ++ "` expects " ++ k.expectation
  | unknownSegment word => "unknown segment `" ++ word ++ "`"
  | index word why => why.message word
  | name word why => why.message word
  | popConstant => "cannot pop into the constant segment"
  | constantRange i => "constant " ++ i.repr ++ " does not fit in 15 bits"
  | pointerRange i => "pointer index must be 0 or 1, found " ++ i.repr
  | tempRange i => "temp index must be below " ++ tempSize.repr ++ ", found " ++ i.repr

end Fault

end StackToHack
