/-
  StackToHack.Proofs.Runs — whole runs of the stack machine.

  A run goes from instruction to instruction, and a return goes on behind the call whose
  address it takes back. The memories of the stack machine and of the processor may differ
  in the scratch registers from the first `pop` on, so that the next step is one from a
  memory that only agrees: no step looks at the scratch registers, unless a segment that
  points there does.
  - `step_agree`: steps from memories that agree end in memories that agree.
  - `runs_simulated`: the processor gets to where a run ends, with a memory that agrees.
-/

import StackToHack.Proofs.Simulation

namespace StackToHack

open Processor

namespace StackMachine

/-! ## Memories that agree -/

namespace Agree

variable {m m' : Memory}

theorem push (h : Agree m m') (v : Word) : Agree (m.push v) (m'.push v) := by
  rw [Memory.push, Memory.push, h.get (by decide) (by decide)]
  exact (h.store _ v).set _ _

theorem pushAll (h : Agree m m') (vs : List Word) : Agree (m.pushAll vs) (m'.pushAll vs) := by
  induction vs generalizing m m' with
  | nil => exact h
  | cons v vs ih => exact ih (h.push v)

theorem replaceTop (h : Agree m m') (v : Word) : Agree (m.replaceTop v) (m'.replaceTop v) := by
  rw [Memory.replaceTop, Memory.replaceTop, h.get (by decide) (by decide)]
  exact h.store _ v

theorem enter (h : Agree m m') (r : Word) (n : Nat) : Agree (m.enter r n) (m'.enter r n) := by
  have hpointers : ∀ p ∈ [Predefined.lcl, .arg, .this, .that], m.get p = m'.get p := by
    intro p hp
    apply h.get <;> revert p <;> decide
  have hframe := h.pushAll [r, m'.get .lcl, m'.get .arg, m'.get .this, m'.get .that]
  rw [Memory.enter, Memory.enter, hpointers .lcl (by decide), hpointers .arg (by decide), hpointers .this (by decide),
    hpointers .that (by decide), hframe.get (by decide) (by decide)]
  exact (hframe.set _ _).set _ _

theorem saved (h : Agree m m') {frame : Word} {i : Nat} (hs : InStack (frame - BitVec.ofNat 16 i).toNat) :
    m.saved frame i = m'.saved frame i := h.inStack hs

theorem leave (h : Agree m m') (ht : InStack (m'.get .sp - 1).toNat)
    (hf : ∀ i, 1 ≤ i → i ≤ frameSize → InStack (m'.get .lcl - BitVec.ofNat 16 i).toNat) : Agree m.leave m'.leave := by
  have hresult := (h.store (m'.get .arg).toNat m'.top).set .sp (m'.get .arg + 1)
  rw [Memory.leave, Memory.leave, h.get (by decide) (by decide), h.get (by decide) (by decide), h.top ht,
    hresult.saved (hf 1 (by decide) (by decide)), hresult.saved (hf 2 (by decide) (by decide)),
    hresult.saved (hf 3 (by decide) (by decide)), hresult.saved (hf 4 (by decide) (by decide))]
  exact (((hresult.set _ _).set _ _).set _ _).set _ _

theorem address (h : Agree m m') (program : Program) (unit : String) (index : Nat) (segment : Segment) :
    StackMachine.address program unit m index segment = StackMachine.address program unit m' index segment := by
  cases segment with
  | locals => exact congrArg (fun w => (w + BitVec.ofNat 16 index).toNat) (h.get (p := .lcl) (by decide) (by decide))
  | argument => exact congrArg (fun w => (w + BitVec.ofNat 16 index).toNat) (h.get (p := .arg) (by decide) (by decide))
  | this => exact congrArg (fun w => (w + BitVec.ofNat 16 index).toNat) (h.get (p := .this) (by decide) (by decide))
  | that => exact congrArg (fun w => (w + BitVec.ofNat 16 index).toNat) (h.get (p := .that) (by decide) (by decide))
  | constant | pointer | temp | static => rfl

theorem trans {m'' : Memory} (h : Agree m m') (h' : Agree m' m'') : Agree m m'' :=
  fun c h₁ h₂ => (h c h₁ h₂).trans (h' c h₁ h₂)

theorem stackCells (h : Agree m m') (i : Instruction) : StackMachine.stackCells m i = StackMachine.stackCells m' i := by
  have hsp : m.get .sp = m'.get .sp := h.get (by decide) (by decide)
  have hlcl : m.get .lcl = m'.get .lcl := h.get (by decide) (by decide)
  have harg : m.get .arg = m'.get .arg := h.get (by decide) (by decide)
  cases i with
  | operation o => cases o <;> simp only [StackMachine.stackCells, hsp]
  | _ => simp only [StackMachine.stackCells, hsp, hlcl, harg]

end Agree

theorem Ready.of_agree {program : Program} {m m' : Memory} {i : String × Instruction} (hr : Ready program m' i)
    (h : Agree m m') : Ready program m i := by
  constructor
  · rw [h.stackCells]
    exact hr.stack
  · intro s hs
    rw [h.address]
    exact hr.segment s hs

/-! ## Steps -/

/-- The cell that the instruction reads or writes through a segment is no scratch register. -/
def ApartFromScratch (program : Program) (m : Memory) (i : String × Instruction) : Prop :=
  ∀ s ∈ segment? i.2, s.1 ≠ .constant → address program i.1 m s.2 s.1 ≠ 13 ∧ address program i.1 m s.2 s.1 ≠ 14

theorem Agree.value {m m' : Memory} (h : Agree m m') {program : Program} {unit : String} {index : Nat} {segment : Segment}
    (ha : segment ≠ .constant →
      StackMachine.address program unit m' index segment ≠ 13 ∧ StackMachine.address program unit m' index segment ≠ 14) :
    StackMachine.value program unit m index segment = StackMachine.value program unit m' index segment := by
  by_cases hc : segment = .constant
  · rw [hc]
    rfl
  · obtain ⟨h₁, h₂⟩ := ha hc
    have hvalue : ∀ m, StackMachine.value program unit m index segment =
        m (StackMachine.address program unit m index segment) := by
      intro m
      cases segment with
      | constant => exact absurd rfl hc
      | _ => rfl
    rw [hvalue, hvalue, h.address]
    exact h _ h₁ h₂

/-- The scratch registers have no effect on a step. -/
theorem step_agree {program : Program} {returnTo : Nat → Word} {k : Nat} {i : String × Instruction} {m m' v' : Memory}
    {next : Next} (h : Agree m m') (hi : program[k]? = some i) (hr : Ready program m' i)
    (ha : ApartFromScratch program m' i) (hstep : step program returnTo k m' = some (next, v')) :
    ∃ v, step program returnTo k m = some (next, v) ∧ Agree v v' := by
  obtain ⟨unit, i⟩ := i
  simp only [step, hi, Option.bind_some] at hstep ⊢
  cases i with
  | operation o =>
    have htop := h.top (hr.below (j := 1) (by cases o <;> exact List.mem_cons_self))
    have hleft : stackCells m' (.operation o) = [(m'.get .sp).toNat - 1, (m'.get .sp).toNat - 2] →
        m.drop.top = m'.drop.top := by
      intro hc
      apply h.drop.top
      rw [Memory.get_drop]
      exact (hr.operands hc).2
    cases o with
    | unary u =>
      cases hstep
      refine ⟨_, ?_, h.replaceTop _⟩
      simp only [htop]
    | binary b =>
      cases hstep
      refine ⟨_, ?_, h.drop.replaceTop _⟩
      simp only [htop, hleft rfl]
    | compare c =>
      cases hstep
      refine ⟨_, ?_, h.drop.replaceTop _⟩
      simp only [htop, hleft rfl]
  | push segment index =>
    cases hstep
    refine ⟨_, ?_, h.push _⟩
    simp only [h.value (ha (segment, index) rfl)]
  | pop segment index =>
    cases hstep
    refine ⟨_, ?_, h.drop.store _ _⟩
    simp only [h.top (hr.below (j := 1) List.mem_cons_self), h.address]
  | label l =>
    cases hstep
    exact ⟨_, rfl, h⟩
  | goto l =>
    obtain ⟨j, hj, he⟩ := Option.map_eq_some_iff.mp hstep
    cases he
    refine ⟨_, ?_, h⟩
    simp only [hj, Option.map_some]
  | ifGoto l =>
    simp only [h.top (hr.below (j := 1) List.mem_cons_self)] at hstep ⊢
    by_cases hz : m'.top = 0
    · rw [if_pos hz] at hstep ⊢
      cases hstep
      exact ⟨_, rfl, h.drop⟩
    · rw [if_neg hz] at hstep ⊢
      obtain ⟨j, hj, he⟩ := Option.map_eq_some_iff.mp hstep
      cases he
      refine ⟨_, ?_, h.drop⟩
      rw [hj, Option.map_some]
  | function f n =>
    cases hstep
    exact ⟨_, rfl, h.pushAll _⟩
  | call f n =>
    obtain ⟨j, hj, he⟩ := Option.map_eq_some_iff.mp hstep
    cases he
    refine ⟨_, ?_, h.enter _ _⟩
    simp only [hj, Option.map_some]
  | ret =>
    cases hstep
    refine ⟨_, ?_, h.leave (hr.below (j := 1) (List.mem_cons_of_mem _ List.mem_cons_self)) hr.frame⟩
    simp only [h.get (p := .lcl) (by decide) (by decide), h.saved (hr.frame frameSize (by decide) (by decide))]

/-! ## Runs -/

/-- Where the machine goes on is instruction `k`; a return goes on behind a call. -/
def Next.Resumes (returnTo : Nat → Word) (k : Nat) : Next → Prop
  | .instruction j => k = j
  | .returned w => ∃ j, w = returnTo j ∧ k = j + 1

inductive Runs (program : Program) (returnTo : Nat → Word) : Nat → Memory → Nat → Memory → Prop
  | refl (k : Nat) (m : Memory) : Runs program returnTo k m k m
  | step {k k' k'' : Nat} {m m' m'' : Memory} {i : String × Instruction} {next : Next} : program[k]? = some i →
      Ready program m i → ApartFromScratch program m i → step program returnTo k m = some (next, m') →
      next.Resumes returnTo k' → Runs program returnTo k' m' k'' m'' → Runs program returnTo k m k'' m''

end StackMachine

open StackMachine

variable {options : Options} {units : List SourceUnit} {asm : Assembled}

/-- Where the stack machine goes on lies the code of the instruction that it goes on with. -/
theorem place_of_resumes (h : Complete options units) (ha : Assembler.assemble (translate options units).text = .ok asm)
    (hfits : asm.orders.length ≤ programSize) {k : Nat} {next : Next} (hn : next.Resumes (returnTo options units) k) :
    next.place options units = place options units k := by
  cases next with
  | instruction j =>
    obtain rfl : k = j := hn
    rfl
  | returned w =>
    obtain ⟨j, rfl, rfl⟩ := hn
    have hle := place_le h ha (j + 1)
    unfold programSize at hfits
    rw [Next.place, returnTo, BitVec.toNat_ofNat]
    exact Nat.mod_eq_of_lt (by omega)

/-- Whatever run the stack machine makes, the processor makes it too. -/
theorem runs_simulated (h : Complete options units) (ha : Assembler.assemble (translate options units).text = .ok asm)
    (hfits : asm.orders.length ≤ programSize) {k k' : Nat} {m m' : Memory}
    (hruns : Runs (Program.ofUnits units) (returnTo options units) k m k' m') {p : Processor}
    (hpc : p.pc = place options units k) (hagree : Agree p.memory m) :
    ∃ q, Reaches asm.orders p q ∧ q.pc = place options units k' ∧ Agree q.memory m' := by
  induction hruns generalizing p with
  | refl k m => exact ⟨p, Reaches.refl _ _, hpc, hagree⟩
  | step hi hready hapart hstep hresumes _ ih =>
    obtain ⟨pl, hpl, rfl⟩ := @exists_placed options _ _ _ hi
    obtain ⟨v, hv, hvm⟩ := step_agree hagree hi hready hapart hstep
    obtain ⟨next, w, q, hw, hq, hto, hqm⟩ := step_simulated ⟨h, ha, hfits, hpl, hpc, hready.of_agree hagree⟩
    obtain ⟨rfl, rfl⟩ := Prod.mk.inj (Option.some.inj (hw.symm.trans hv))
    obtain ⟨r, hr, hrpc, hrm⟩ := ih (hto.trans (place_of_resumes h ha hfits hresumes)) (hqm.trans hvm)
    exact ⟨r, hq.trans hr, hrpc, hrm⟩

end StackToHack
