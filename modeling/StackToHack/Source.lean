/-
  StackToHack.Source — units of source text and how their lines are read.

  A unit holds one instruction a line. What follows `//` is a comment; a line that holds
  nothing else is skipped but counted. The first line that cannot be read fails the
  whole unit, and a line is judged from left to right: its keyword, the number of its
  operands, then each operand.
  - `Instruction.ofWords`: the instruction that a line's words write.
  - `SourceUnit.lines`: a unit's instructions with their line numbers and texts.
-/

import StackToHack.Text.Blank
import StackToHack.Error

namespace StackToHack

structure SourceLine where
  instruction : Instruction
  /-- Lines count from 1. -/
  line : Nat
  /-- The line without its comment and without blanks at the ends. -/
  text : String
  deriving DecidableEq, Repr

structure SourceUnit where
  name : String
  source : String
  deriving DecidableEq, Repr

/-! ## Words -/

namespace Instruction

def readIndex (word : String) : Except Fault Nat :=
  if Text.isNumeral word.toList then
    if Text.value word.toList ≤ maxIndex then .ok (Text.value word.toList)
    else .error (.index word .tooLarge)
  else if word.toList.head? = some '-' then .error (.index word .negative)
  else .error (.index word .notANumber)

def readSegment (word : String) : Except Fault Segment :=
  match Segment.ofName? word with
  | some s => .ok s
  | none => .error (.unknownSegment word)

/-- The word, if no rule and no character stops it from being a name. -/
def readName (fault? : String → Option NameFault) (word : String) : Except Fault String :=
  match fault? word with
  | some why => .error (.name word why)
  | none => if Name.isIdentifier word then .ok word else .error (.name word .identifier)

def readLabel : String → Except Fault String :=
  readName Name.labelFault?

def readProcedure : String → Except Fault String :=
  readName Name.procedureFault?

def ofOperands : Keyword → List String → Except Fault Instruction
  | .operation o, [] => .ok (.operation o)
  | .operation o, words => .error (.unexpectedOperands (.operation o) words.length)
  | .push, [s, i] => do return .push (← readSegment s) (← readIndex i)
  | .push, _ => .error (.wrongOperands .push)
  | .pop, [s, i] => do
    match ← readSegment s with
    | .constant => .error .popConstant
    | segment => return .pop segment (← readIndex i)
  | .pop, _ => .error (.wrongOperands .pop)
  | .label, [l] => do return .label (← readLabel l)
  | .label, _ => .error (.wrongOperands .label)
  | .goto, [l] => do return .goto (← readLabel l)
  | .goto, _ => .error (.wrongOperands .goto)
  | .ifGoto, [l] => do return .ifGoto (← readLabel l)
  | .ifGoto, _ => .error (.wrongOperands .ifGoto)
  | .function, [f, n] => do return .function (← readProcedure f) (← readIndex n)
  | .function, _ => .error (.wrongOperands .function)
  | .call, [f, n] => do return .call (← readProcedure f) (← readIndex n)
  | .call, _ => .error (.wrongOperands .call)
  | .ret, [] => .ok .ret
  | .ret, words => .error (.unexpectedOperands .ret words.length)

def ofWords : List String → Except Fault Instruction
  | [] => .error (.unknownKeyword "")
  | word :: operands => match Keyword.ofWord? word with
    | some k => ofOperands k operands
    | none => .error (.unknownKeyword word)

end Instruction

/-! ## Lines -/

/-- The instruction on one line of a unit, if the line holds any. -/
def SourceLine.read? (unit : String) (number : Nat) (raw : List Char) : Except Error (Option SourceLine) :=
  let text := Text.trim (Text.beforeComment raw)
  if text.isEmpty then .ok none
  else match Instruction.ofWords (Text.words text) with
    | .ok i => .ok (some ⟨i, number, String.ofList text⟩)
    | .error fault => .error (.instruction ⟨unit, number, String.ofList text⟩ fault)

namespace SourceUnit

def readFrom (unit : String) (number : Nat) : List (List Char) → Except Error (List SourceLine)
  | [] => .ok []
  | raw :: rest => match SourceLine.read? unit number raw with
    | .error e => .error e
    | .ok line? => match readFrom unit (number + 1) rest with
      | .error e => .error e
      | .ok lines => .ok (line?.toList ++ lines)

def lines (u : SourceUnit) : Except Error (List SourceLine) :=
  readFrom u.name 1 (Text.lines u.source.toList)

end SourceUnit

end StackToHack
