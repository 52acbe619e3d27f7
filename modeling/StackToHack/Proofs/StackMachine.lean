/-
  StackToHack.Proofs.StackMachine — what the instructions of the stack machine mean.

  The stack machine works on the memory of the processor and knows nothing of code. Its
  program is the list of all instructions, each with the unit that it stands in, and it
  stands at one of them. A label belongs to the procedure whose `function` came last
  before it. The only places it knows are the return addresses, which a call saves on the
  stack and a return takes from there; `returnTo` gives the one behind an instruction.
  - `step`: where an instruction goes on, and the memory behind it.
  - `Ready`: the cells that an instruction uses are there.
-/

import StackToHack.Source
import StackToHack.Fragment
import StackToHack.Machine.Assembler

namespace StackToHack

/-! ## Operations -/

def truth (b : Bool) : Word := if b then -1 else 0

def Unary.apply : Unary → Word → Word
  | .neg, x => -x
  | .not, x => ~~~x

def Binary.apply : Binary → Word → Word → Word
  | .add, x, y => x + y
  | .sub, x, y => x - y
  | .and, x, y => x &&& y
  | .or, x, y => x ||| y

/-- Comparisons look at the sign of the difference, which may wrap. -/
def Comparison.holds : Comparison → Word → Word → Bool
  | .eq, x, y => x - y = 0
  | .gt, x, y => 0 < (x - y).toInt
  | .lt, x, y => (x - y).toInt < 0

namespace StackMachine

open Processor (store)

abbrev Memory := Nat → Word

/-! ## The stack -/

namespace Memory

def get (m : Memory) (p : Predefined) : Word := m p.address

def set (m : Memory) (p : Predefined) (v : Word) : Memory := store m p.address v

def push (m : Memory) (v : Word) : Memory :=
  set (store m (m.get .sp).toNat v) .sp (m.get .sp + 1)

def top (m : Memory) : Word := m (m.get .sp - 1).toNat

def drop (m : Memory) : Memory := m.set .sp (m.get .sp - 1)

def replaceTop (m : Memory) (v : Word) : Memory := store m (m.get .sp - 1).toNat v

def pushAll (m : Memory) : List Word → Memory
  | [] => m
  | v :: vs => (m.push v).pushAll vs

/-- Saves the return address and the caller's pointers, and makes the arguments and the
    stack the callee's. -/
def enter (m : Memory) (returnAddress : Word) (arguments : Nat) : Memory :=
  let m := m.pushAll [returnAddress, m.get .lcl, m.get .arg, m.get .this, m.get .that]
  (m.set .arg (m.get .sp - BitVec.ofNat 16 frameSize - BitVec.ofNat 16 arguments)).set .lcl (m.get .sp)

/-- A cell of the saved frame, counted from the callee's locals down. -/
def saved (m : Memory) (frame : Word) (offset : Nat) : Word := m (frame - BitVec.ofNat 16 offset).toNat

/-- Puts the result in the place of the first argument and takes the caller's pointers
    back. -/
def leave (m : Memory) : Memory :=
  let frame := m.get .lcl
  let result := m.get .arg
  let m := Memory.set (store m result.toNat m.top) .sp (result + 1)
  (((m.set .that (m.saved frame 1)).set .this (m.saved frame 2)).set .arg (m.saved frame 3)).set .lcl (m.saved frame 4)

end Memory

/-! ## Programs -/

abbrev Program := List (String × Instruction)

/-- The procedure that owns an instruction, none before the first. -/
def owner (program : Program) (k : Nat) : Option String :=
  ((program.take (k + 1)).filterMap fun i => match i.2 with
    | .function f _ => some f
    | _ => none).getLast?

def labelTarget (program : Program) (k : Nat) (name : String) : Option Nat :=
  (List.range program.length).find? fun j =>
    program[j]?.map Prod.snd = some (.label name) && owner program j = owner program k

def procedureTarget (program : Program) (name : String) : Option Nat :=
  program.findIdx? fun i => match i.2 with
    | .function f _ => f = name
    | _ => false

def staticOf? : String × Instruction → Option (String × Nat)
  | (unit, .push .static index) => some (unit, index)
  | (unit, .pop .static index) => some (unit, index)
  | _ => none

def meet (met : List (String × Nat)) (v : String × Nat) : List (String × Nat) :=
  if v ∈ met then met else met ++ [v]

/-- The static variables in the order of their first uses. -/
def statics (program : Program) : List (String × Nat) :=
  (program.filterMap staticOf?).foldl meet []

/-- The cells of static variables follow the registers. -/
def staticAddress (program : Program) (unit : String) (index : Nat) : Nat :=
  firstVariable + (statics program).idxOf (unit, index)

def address (program : Program) (unit : String) (m : Memory) (index : Nat) : Segment → Nat
  | .constant => index
  | .locals => (m.get .lcl + BitVec.ofNat 16 index).toNat
  | .argument => (m.get .arg + BitVec.ofNat 16 index).toNat
  | .this => (m.get .this + BitVec.ofNat 16 index).toNat
  | .that => (m.get .that + BitVec.ofNat 16 index).toNat
  | .pointer => Predefined.this.address + index
  | .temp => 5 + index
  | .static => staticAddress program unit index

def value (program : Program) (unit : String) (m : Memory) (index : Nat) : Segment → Word
  | .constant => BitVec.ofNat 16 index
  | segment => m (address program unit m index segment)

/-! ## Steps -/

inductive Next
  | instruction (k : Nat)
  | returned (w : Word)
  deriving DecidableEq, Repr

/-- One step at instruction `k`. It fails where there is no instruction or no target. -/
def step (program : Program) (returnTo : Nat → Word) (k : Nat) (m : Memory) : Option (Next × Memory) :=
  program[k]?.bind fun (unit, i) => match i with
    | .operation (.unary u) => some (.instruction (k + 1), m.replaceTop (u.apply m.top))
    | .operation (.binary b) => some (.instruction (k + 1), m.drop.replaceTop (b.apply m.drop.top m.top))
    | .operation (.compare c) => some (.instruction (k + 1), m.drop.replaceTop (truth (c.holds m.drop.top m.top)))
    | .push segment index => some (.instruction (k + 1), m.push (value program unit m index segment))
    | .pop segment index => some (.instruction (k + 1), store m.drop (address program unit m index segment) m.top)
    | .label _ => some (.instruction (k + 1), m)
    | .goto l => (labelTarget program k l).map fun j => (.instruction j, m)
    | .ifGoto l =>
      if m.top = 0 then some (.instruction (k + 1), m.drop)
      else (labelTarget program k l).map fun j => (.instruction j, m.drop)
    | .function _ n => some (.instruction (k + 1), m.pushAll (List.replicate n 0))
    | .call f n => (procedureTarget program f).map fun j => (.instruction j, m.enter (returnTo k) n)
    | .ret => some (.returned (m.saved (m.get .lcl) frameSize), m.leave)

/-! ## Cells -/

def stackCells (m : Memory) : Instruction → List Nat
  | .operation (.unary _) => [(m.get .sp).toNat - 1]
  | .operation _ => [(m.get .sp).toNat - 1, (m.get .sp).toNat - 2]
  | .push _ _ => [(m.get .sp).toNat]
  | .pop _ _ => [(m.get .sp).toNat - 1]
  | .label _ => []
  | .goto _ => []
  | .ifGoto _ => [(m.get .sp).toNat - 1]
  | .function _ n => (List.range n).map ((m.get .sp).toNat + ·)
  | .call _ _ => (List.range frameSize).map ((m.get .sp).toNat + ·)
  | .ret => (m.get .arg).toNat :: ((m.get .sp).toNat - 1) ::
      (List.range frameSize).map fun i => (m.get .lcl).toNat - (i + 1)

def segment? : Instruction → Option (Segment × Nat)
  | .push segment index => some (segment, index)
  | .pop segment index => some (segment, index)
  | _ => none

/-- The stack cells lie in the stack, and the cell of the segment in memory. -/
structure Ready (program : Program) (m : Memory) (i : String × Instruction) : Prop where
  stack : ∀ a ∈ stackCells m i.2, stackBase ≤ a ∧ a < memorySize
  segment : ∀ s ∈ segment? i.2, address program i.1 m s.2 s.1 < memorySize

end StackMachine

end StackToHack
