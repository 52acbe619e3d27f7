/-
  StackToHack.Machine.Processor — the machine that the assembly runs on.

  Words have 16 bits and wrap. Memory has 32768 cells; a step that touches a cell beyond
  them, or that stands behind the program, has no successor. A jump goes to where `A`
  pointed before the step.
  - `Processor.step`: one step of a program.
  - `Processor.run`: so many steps; `run_add` puts runs end to end.
-/

import StackToHack.Assembly.Computation

namespace StackToHack

abbrev Word := BitVec 16

def memorySize : Nat := 32768

/-! ## Computations -/

def Expression.value (a d m : Word) : Expression → Word
  | .zero => 0
  | .one => 1
  | .minusOne => -1
  | .d => d
  | .a => a
  | .m => m
  | .notD => ~~~d
  | .notA => ~~~a
  | .notM => ~~~m
  | .negD => -d
  | .negA => -a
  | .negM => -m
  | .succD => d + 1
  | .succA => a + 1
  | .succM => m + 1
  | .predD => d - 1
  | .predA => a - 1
  | .predM => m - 1
  | .dPlusA => d + a
  | .dPlusM => d + m
  | .dMinusA => d - a
  | .dMinusM => d - m
  | .aMinusD => a - d
  | .mMinusD => m - d
  | .dAndA => d &&& a
  | .dAndM => d &&& m
  | .dOrA => d ||| a
  | .dOrM => d ||| m

/-- The condition on a signed word. -/
def Condition.holds (v : Word) : Condition → Bool
  | .never => false
  | .gt => 0 < v.toInt
  | .eq => v.toInt = 0
  | .ge => 0 ≤ v.toInt
  | .lt => v.toInt < 0
  | .ne => v.toInt ≠ 0
  | .le => v.toInt ≤ 0
  | .always => true

/-! ## Steps -/

inductive Order
  | load (n : Word)
  | compute (t : Destination) (e : Expression) (j : Condition)
  deriving DecidableEq, Repr

structure Processor where
  /-- The place of the next instruction. -/
  pc : Nat := 0
  a : Word := 0
  d : Word := 0
  memory : Nat → Word := fun _ => 0

namespace Processor

def store (memory : Nat → Word) (address : Nat) (v : Word) : Nat → Word :=
  fun other => if other = address then v else memory other

def compute (p : Processor) (t : Destination) (e : Expression) (j : Condition) : Option Processor :=
  let address := p.a.toNat
  if (e.usesMemory || t.m) && decide (memorySize ≤ address) then none
  else
    let v := e.value p.a p.d (p.memory address)
    some
      { pc := if j.holds v then address else p.pc + 1
        a := if t.a then v else p.a
        d := if t.d then v else p.d
        memory := if t.m then store p.memory address v else p.memory }

def perform (p : Processor) : Order → Option Processor
  | .load n => some { p with a := n, pc := p.pc + 1 }
  | .compute t e j => p.compute t e j

def step (program : List Order) (p : Processor) : Option Processor :=
  program[p.pc]?.bind p.perform

def run (program : List Order) : Nat → Processor → Option Processor
  | 0, p => some p
  | n + 1, p => (p.step program).bind (run program n)

theorem run_add (program : List Order) (m n : Nat) (p : Processor) :
    run program (m + n) p = (run program m p).bind (run program n) := by
  induction m generalizing p with
  | zero => simp [run]
  | succ m ih =>
    rw [Nat.succ_add, run, run, Option.bind_assoc]
    exact congrArg _ (funext ih)

theorem store_self (memory : Nat → Word) (address : Nat) (v : Word) : store memory address v address = v := by
  simp [store]

theorem store_of_ne (memory : Nat → Word) {address other : Nat} (h : other ≠ address) (v : Word) :
    store memory address v other = memory other := by
  simp [store, h]

end Processor

end StackToHack
