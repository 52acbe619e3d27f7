/-
  StackToHack.Proofs.Execution — running a piece of code inside a program.

  Orders that do not jump are performed one after the other wherever they stand, so a
  piece of code is executed on its own, `execute`, and the program that holds it does the
  same, `run_of_codeAt`. An order that may jump is performed where it stands.
  - `codeAt_append`: where the parts of a piece of code stand.
  - `run_of_codeAt`, `run_jump`: a program does what a piece of its code does.
  - `perform_assign`: what a computation does that does not jump.
-/

import Mathlib.Data.List.Basic
import StackToHack.Machine.Processor
import StackToHack.Predefined

namespace StackToHack

/-! ## Places -/

def CodeAt (program : List Order) (place : Nat) (code : List Order) : Prop :=
  ∀ i, i < code.length → program[place + i]? = code[i]?

theorem codeAt_append {program : List Order} {place : Nat} {first second : List Order} :
    CodeAt program place (first ++ second) ↔
      CodeAt program place first ∧ CodeAt program (place + first.length) second := by
  constructor
  · intro h
    refine ⟨fun i hi => ?_, fun i hi => ?_⟩
    · rw [h i (by rw [List.length_append]; omega), List.getElem?_append_left hi]
    · rw [Nat.add_assoc, h (first.length + i) (by rw [List.length_append]; omega),
        List.getElem?_append_right (Nat.le_add_right _ _), Nat.add_sub_cancel_left]
  · rintro ⟨h₁, h₂⟩ i hi
    rw [List.length_append] at hi
    by_cases hlt : i < first.length
    · rw [h₁ i hlt, List.getElem?_append_left hlt]
    · have := h₂ (i - first.length) (by omega)
      rw [List.getElem?_append_right (by omega), ← this]
      congr 1
      omega

theorem CodeAt.left {program : List Order} {place : Nat} {first second : List Order}
    (h : CodeAt program place (first ++ second)) : CodeAt program place first :=
  (codeAt_append.mp h).1

theorem CodeAt.right {program : List Order} {place : Nat} {first second : List Order}
    (h : CodeAt program place (first ++ second)) : CodeAt program (place + first.length) second :=
  (codeAt_append.mp h).2

theorem CodeAt.head {program : List Order} {place : Nat} {o : Order} {code : List Order}
    (h : CodeAt program place (o :: code)) : program[place]? = some o :=
  h 0 (Nat.zero_lt_succ _)

theorem CodeAt.tail {program : List Order} {place : Nat} {o : Order} {code : List Order}
    (h : CodeAt program place (o :: code)) : CodeAt program (place + 1) code :=
  @CodeAt.right program place [o] code h

theorem codeAt_of_append (before code after : List Order) : CodeAt (before ++ code ++ after) before.length code := by
  intro i hi
  rw [List.append_assoc, List.getElem?_append_right (Nat.le_add_right _ _), Nat.add_sub_cancel_left,
    List.getElem?_append_left hi]

namespace Order

def straight : Order → Bool
  | load _ => true
  | compute _ _ j => j == .never

end Order

namespace Processor

/-! ## Code on its own -/

def execute : List Order → Processor → Option Processor
  | [], p => some p
  | o :: os, p => (p.perform o).bind (execute os)

@[simp] theorem execute_nil (p : Processor) : execute [] p = some p := rfl

@[simp] theorem execute_cons (o : Order) (os : List Order) (p : Processor) :
    execute (o :: os) p = (p.perform o).bind (execute os) := rfl

theorem execute_append (first second : List Order) (p : Processor) :
    execute (first ++ second) p = (execute first p).bind (execute second) := by
  induction first generalizing p with
  | nil => rfl
  | cons o first ih =>
    rw [List.cons_append, execute, execute, Option.bind_assoc]
    exact congrArg _ (funext ih)

theorem pc_of_straight {o : Order} {p q : Processor} (ho : o.straight = true) (h : p.perform o = some q) :
    q.pc = p.pc + 1 := by
  cases o with
  | load n =>
    cases h
    rfl
  | compute t e j =>
    obtain rfl : j = .never := by simpa [Order.straight] using ho
    simp only [perform, compute] at h
    split at h
    · cases h
    · cases h
      rfl

theorem run_of_codeAt {program code : List Order} {p q : Processor} (hc : CodeAt program p.pc code)
    (hs : code.all Order.straight = true) (h : execute code p = some q) :
    run program code.length p = some q ∧ q.pc = p.pc + code.length := by
  induction code generalizing p with
  | nil =>
    cases h
    exact ⟨rfl, rfl⟩
  | cons o code ih =>
    rw [execute] at h
    obtain ⟨r, hr, hq⟩ := Option.bind_eq_some_iff.mp h
    rw [List.all_cons, Bool.and_eq_true] at hs
    have hpc := pc_of_straight hs.1 hr
    obtain ⟨hrun, hend⟩ := ih (by rw [hpc]; exact hc.tail) hs.2 hq
    refine ⟨?_, by rw [hend, hpc, List.length_cons]; omega⟩
    have hstep : p.step program = some r := by
      rw [step, hc.head]
      exact hr
    rw [List.length_cons, run, hstep]
    exact hrun

/-- Straight code and one more order. -/
theorem run_jump {program code : List Order} {o : Order} {p q r : Processor}
    (hc : CodeAt program p.pc (code ++ [o])) (hs : code.all Order.straight = true) (h : execute code p = some q)
    (ho : q.perform o = some r) : run program (code.length + 1) p = some r := by
  obtain ⟨hrun, hpc⟩ := run_of_codeAt hc.left hs h
  have hstep : q.step program = some r := by
    rw [step, hpc, hc.right.head]
    exact ho
  rw [run_add, hrun]
  show run program 1 q = some r
  rw [run, hstep]
  rfl

/-! ## Orders -/

def assigned (p : Processor) (t : Destination) (v : Word) : Processor where
  pc := p.pc + 1
  a := if t.a then v else p.a
  d := if t.d then v else p.d
  memory := if t.m then store p.memory p.a.toNat v else p.memory

attribute [simp] Expression.usesMemory Expression.value store_self

@[simp] theorem toA_m : Destination.toA.m = false := rfl

@[simp] theorem toD_m : Destination.toD.m = false := rfl

@[simp] theorem toM_m : Destination.toM.m = true := rfl

@[simp] theorem toAM_m : Destination.toAM.m = true := rfl

@[simp] theorem assigned_toD (p : Processor) (v : Word) : p.assigned .toD v = { p with pc := p.pc + 1, d := v } := rfl

@[simp] theorem assigned_toA (p : Processor) (v : Word) : p.assigned .toA v = { p with pc := p.pc + 1, a := v } := rfl

@[simp] theorem assigned_toM (p : Processor) (v : Word) :
    p.assigned .toM v = { p with pc := p.pc + 1, memory := store p.memory p.a.toNat v } := rfl

@[simp] theorem assigned_toAM (p : Processor) (v : Word) :
    p.assigned .toAM v = { p with pc := p.pc + 1, a := v, memory := store p.memory p.a.toNat v } := rfl

@[simp] theorem perform_load (p : Processor) (n : Word) : p.perform (.load n) = some { p with a := n, pc := p.pc + 1 } :=
  rfl

/-- A computation works if it uses no memory or if the addressed cell exists. -/
@[simp] theorem perform_assign {p : Processor} {t : Destination} {e : Expression}
    (h : (e.usesMemory || t.m) = false ∨ p.a.toNat < memorySize) :
    p.perform (.compute t e .never) = some (p.assigned t (e.value p.a p.d (p.memory p.a.toNat))) := by
  have hn : ¬ ((e.usesMemory || t.m) && decide (memorySize ≤ p.a.toNat)) = true := by
    intro hb
    obtain ⟨h₁, h₂⟩ := Bool.and_eq_true_iff.mp hb
    have := of_decide_eq_true h₂
    rcases h with h | h
    · rw [h] at h₁
      cases h₁
    · omega
  simp only [perform, compute, hn]
  rfl

theorem perform_jump {p : Processor} {e : Expression} (h : e.usesMemory = false) (j : Condition) :
    p.perform (.compute .nowhere e j) =
      some { p with pc := if j.holds (e.value p.a p.d (p.memory p.a.toNat)) then p.a.toNat else p.pc + 1 } := by
  have hn : ¬ ((e.usesMemory || Destination.nowhere.m) && decide (memorySize ≤ p.a.toNat)) = true := by
    rw [h]
    simp [Destination.nowhere]
  simp only [perform, compute, hn]
  rfl

/-- Straight code and a jump to where `A` points. -/
theorem run_jumpAlways {program code : List Order} {p q : Processor}
    (hc : CodeAt program p.pc (code ++ [.compute .nowhere .zero .always])) (hs : code.all Order.straight = true)
    (h : execute code p = some q) : run program (code.length + 1) p = some { q with pc := q.a.toNat } :=
  run_jump hc hs h (perform_jump rfl .always)

@[simp] theorem address_lt (p : Predefined) : p.address < memorySize := by
  cases p with
  | register n => exact Nat.lt_trans n.isLt (by decide)
  | _ => decide

@[simp] theorem address_mod (p : Predefined) : p.address % 65536 = p.address :=
  Nat.mod_eq_of_lt (Nat.lt_trans (address_lt p) (by decide))

/-! ## Runs -/

def Reaches (program : List Order) (p q : Processor) : Prop :=
  ∃ n, run program n p = some q

theorem Reaches.refl (program : List Order) (p : Processor) : Reaches program p p := ⟨0, rfl⟩

theorem Reaches.trans {program : List Order} {p q r : Processor} (h₁ : Reaches program p q) (h₂ : Reaches program q r) :
    Reaches program p r := by
  obtain ⟨m, hm⟩ := h₁
  obtain ⟨n, hn⟩ := h₂
  exact ⟨m + n, by rw [run_add, hm]; exact hn⟩

/-! ## Memory -/

theorem store_store (memory : Nat → Word) (address : Nat) (v w : Word) :
    store (store memory address v) address w = store memory address w := by
  funext other
  by_cases h : other = address <;> simp [store, h]

theorem store_comm (memory : Nat → Word) {first second : Nat} (h : first ≠ second) (v w : Word) :
    store (store memory first v) second w = store (store memory second w) first v := by
  funext other
  by_cases h₁ : other = first
  · subst h₁
    simp [store, h]
  · by_cases h₂ : other = second
    · subst h₂
      simp [store, h₁]
    · simp [store, h₁, h₂]

end Processor

end StackToHack
