/-
  StackToHack.Fragment — the assembly of each instruction.

  The stack grows upward from 256 and `SP` holds the cell above its top. The procedure
  at work has its locals from `LCL` on and its arguments from `ARG` on; a call saves the
  return address and the caller's `LCL`, `ARG`, `THIS` and `THAT` above the arguments.
  `R13` and `R14` are scratch. A cell of a segment lies at an offset from a pointer or at
  a symbol of its own, `Cell`.

  `Instruction.code` is the code of an instruction in a scope, or what is wrong with the
  instruction; the scope behind it is `Instruction.after`.
-/

import StackToHack.Fault
import StackToHack.Scope
import StackToHack.Assembly.Statement

namespace StackToHack

def stackBase : Nat := 256

/-- The cells that a call saves. -/
def frameSize : Nat := 5

namespace Fragment

open Statement

/-! ## The stack -/

def pushD : List Statement :=
  [loadCell .sp, assign .toM .succM, assign .toA .predM, assign .toM .d]

/-- Pops into `D`; `A` is left at the popped cell. -/
def popD : List Statement :=
  [loadCell .sp, assign .toAM .predM, assign .toD .m]

def pushNumber (n : Nat) : List Statement :=
  [loadNumber n, assign .toD .a] ++ pushD

/-- Pushes what the cell of a symbol holds. -/
def pushSymbol (s : Symbol) : List Statement :=
  [load s, assign .toD .m] ++ pushD

/-! ## Segments -/

/-- Where a segment's value lives: at an offset from where a pointer points, or in the
    cell of a symbol. -/
inductive Cell
  | offset (base : Predefined) (index : Nat)
  | symbol (s : Symbol)
  deriving DecidableEq, Repr

def temporary (index : Nat) : Except Fault Cell :=
  if h : index < tempSize then .ok (.symbol (.predefined (.register ⟨5 + index, by simp [tempSize] at h; omega⟩)))
  else .error (.tempRange index)

/-- The pointer that a segment's base is kept in. -/
def basePointer : Nat → Except Fault Cell
  | 0 => .ok (.symbol (.predefined .this))
  | 1 => .ok (.symbol (.predefined .that))
  | index => .error (.pointerRange index)

/-- The cell with this index. Constants have no cells. -/
def cell (scope : Scope) (index : Nat) : Segment → Except Fault Cell
  | .constant => .error .popConstant
  | .locals => .ok (.offset .lcl index)
  | .argument => .ok (.offset .arg index)
  | .this => .ok (.offset .this index)
  | .that => .ok (.offset .that index)
  | .static => .ok (.symbol (scope.static index))
  | .temp => temporary index
  | .pointer => basePointer index

def pushCell : Cell → List Statement
  | .offset base index =>
    [loadCell base, assign .toD .m, loadNumber index, assign .toA .dPlusA, assign .toD .m] ++ pushD
  | .symbol s => pushSymbol s

/-- Pops into a cell. The address at an offset waits in `R13` while `D` holds the value. -/
def popCell : Cell → List Statement
  | .offset base index =>
    [loadCell base, assign .toD .m, loadNumber index, assign .toD .dPlusA, loadCell (.register 13), assign .toM .d] ++
      popD ++ [loadCell (.register 13), assign .toA .m, assign .toM .d]
  | .symbol s => popD ++ [load s, assign .toM .d]

def push (scope : Scope) (index : Nat) : Segment → Except Fault (List Statement)
  | .constant => if index ≤ maxIndex then .ok (pushNumber index) else .error (.constantRange index)
  | segment => (cell scope index segment).map pushCell

def pop (scope : Scope) (index : Nat) (segment : Segment) : Except Fault (List Statement) :=
  (cell scope index segment).map popCell

/-! ## Operations -/

def unaryExpression : Unary → Expression
  | .neg => .negM
  | .not => .notM

/-- The right operand is in `D`, the left one is the addressed cell. -/
def binaryExpression : Binary → Expression
  | .add => .dPlusM
  | .sub => .mMinusD
  | .and => .dAndM
  | .or => .dOrM

/-- The condition on the difference of the operands, left less right. -/
def comparisonCondition : Comparison → Condition
  | .eq => .eq
  | .gt => .gt
  | .lt => .lt

def unary (u : Unary) : List Statement :=
  [loadCell .sp, assign .toA .predM, assign .toM (unaryExpression u)]

def binary (b : Binary) : List Statement :=
  popD ++ [assign .toA .predA, assign .toM (binaryExpression b)]

/-- Leaves -1 for true and 0 for false. -/
def compare (number : Nat) (c : Comparison) : List Statement :=
  popD ++
    [assign .toA .predA, assign .toD .mMinusD, load (.holds number), jump .d (comparisonCondition c),
      assign .toD .zero, load (.done number), jump .zero .always, label (.holds number), assign .toD .minusOne,
      label (.done number), loadCell .sp, assign .toA .predM, assign .toM .d]

def operation (scope : Scope) : Operation → List Statement
  | .unary u => unary u
  | .binary b => binary b
  | .compare c => compare scope.comparisons c

/-! ## Jumps -/

def goto (s : Symbol) : List Statement :=
  [load s, jump .zero .always]

def ifGoto (s : Symbol) : List Statement :=
  popD ++ [load s, jump .d .ne]

def halt : List Statement :=
  label .halt :: goto .halt

/-! ## Procedures -/

def pushZero : List Statement :=
  [loadCell .sp, assign .toM .succM, assign .toA .predM, assign .toM .zero]

def function (name : String) (locals : Nat) : List Statement :=
  label (.procedure name) :: (List.replicate locals pushZero).flatten

/-- Saves the caller's pointers, moves `ARG` to the first argument and `LCL` to the top,
    and jumps; the callee returns to the label at the end. -/
def call (scope : Scope) (name : String) (arguments : Nat) : List Statement :=
  [load scope.returnAddress, assign .toD .a] ++ pushD ++
    pushSymbol (.predefined .lcl) ++ pushSymbol (.predefined .arg) ++
    pushSymbol (.predefined .this) ++ pushSymbol (.predefined .that) ++
    [loadCell .sp, assign .toD .m, loadNumber frameSize, assign .toD .dMinusA, loadNumber arguments,
      assign .toD .dMinusA, loadCell .arg, assign .toM .d, loadCell .sp, assign .toD .m, loadCell .lcl, assign .toM .d] ++
    goto (.procedure name) ++ [label scope.returnAddress]

/-- Takes the cell below `R13` back into a pointer. -/
def restore (pointer : Predefined) : List Statement :=
  [loadCell (.register 13), assign .toAM .predM, assign .toD .m, loadCell pointer, assign .toM .d]

/-- The return address is read before the result is put where `ARG` points, which is the
    same cell if there are no arguments. -/
def ret : List Statement :=
  [loadCell .lcl, assign .toD .m, loadCell (.register 13), assign .toM .d, loadNumber frameSize,
    assign .toA .dMinusA, assign .toD .m, loadCell (.register 14), assign .toM .d] ++
    popD ++
    [loadCell .arg, assign .toA .m, assign .toM .d, loadCell .arg, assign .toD .succM, loadCell .sp, assign .toM .d] ++
    restore .that ++ restore .this ++ restore .arg ++ restore .lcl ++
    [loadCell (.register 14), assign .toA .m, jump .zero .always]

def setUp : List Statement :=
  [loadNumber stackBase, assign .toD .a, loadCell .sp, assign .toM .d, loadCell .lcl, assign .toM .d]

end Fragment

namespace Instruction

/-- The code, unless a rule stops the word from being a name. -/
def named (fault? : String → Option NameFault) (word : String) (code : List Statement) : Except Fault (List Statement) :=
  match fault? word with
  | some why => .error (.name word why)
  | none => .ok code

/-- The assembly of an instruction in a scope, or what is wrong with the instruction. -/
def code (scope : Scope) : Instruction → Except Fault (List Statement)
  | operation o => .ok (Fragment.operation scope o)
  | push segment index => Fragment.push scope index segment
  | pop segment index => Fragment.pop scope index segment
  | label l => named Name.labelFault? l [Statement.label (scope.label l)]
  | goto l => named Name.labelFault? l (Fragment.goto (scope.label l))
  | ifGoto l => named Name.labelFault? l (Fragment.ifGoto (scope.label l))
  | function f n => named Name.procedureFault? f (Fragment.function f n)
  | call f n => named Name.procedureFault? f (Fragment.call scope f n)
  | ret => .ok Fragment.ret

end Instruction

end StackToHack
