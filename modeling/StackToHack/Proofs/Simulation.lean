/-
  StackToHack.Proofs.Simulation — a complete program does what the stack machine does.

  Where the processor stands at the code of an instruction, it runs through the code and
  then stands where the stack machine goes on, with the memory that the stack machine has
  then, the scratch registers apart. Instructions that do not jump run through straight
  code; a comparison runs one of two ways to the same place; jumps and calls go to the
  place of their target, and a return to the address that the call has saved.
  - `step_simulated`: one step of the stack machine.
  - `program_simulates`: a complete program is assembled, and simulates each step.
-/

import Mathlib.Tactic.IntervalCases
import StackToHack.Proofs.Calls
import StackToHack.Proofs.Variables

namespace StackToHack

open Processor StackMachine

/-! ## Words -/

theorem toNat_sub_ofNat {w : Word} {i : Nat} (h : i ≤ w.toNat) : (w - BitVec.ofNat 16 i).toNat = w.toNat - i := by
  have := w.isLt
  rw [BitVec.toNat_sub, BitVec.toNat_ofNat]
  omega

theorem InStack.le {i t : Nat} (h : InStack (t - i)) : i ≤ t := by
  have hpos : 0 < stackBase := by decide
  have := h.1
  omega

theorem InStack.sub {w : Word} {i : Nat} (h : InStack (w.toNat - i)) : InStack (w - BitVec.ofNat 16 i).toNat := by
  rw [toNat_sub_ofNat h.le]
  exact h

/-! ## Cells that are there -/

namespace StackMachine.Ready

variable {program : Program} {m : Memory} {unit : String}

theorem below {i : Instruction} (h : Ready program m (unit, i)) {j : Nat} (hj : (m.get .sp).toNat - j ∈ stackCells m i) :
    InStack (m.get .sp - BitVec.ofNat 16 j).toNat := InStack.sub (h.stack _ hj)

/-- Both operands of a binary operation or a comparison. -/
theorem operands {i : Instruction} (h : Ready program m (unit, i))
    (hi : stackCells m i = [(m.get .sp).toNat - 1, (m.get .sp).toNat - 2]) :
    InStack (m.get .sp - 1).toNat ∧ InStack (m.get .sp - 1 - 1).toNat := by
  have e : m.get .sp - 1 - 1 = m.get .sp - BitVec.ofNat 16 2 := sub_ofNat_sub_one _ 1
  constructor
  · exact h.below (j := 1) (by rw [hi]; exact List.mem_cons_self)
  · rw [e]
    exact h.below (by rw [hi]; exact List.mem_cons_of_mem _ List.mem_cons_self)

/-- The frame that a return takes back. -/
theorem frame (h : Ready program m (unit, .ret)) :
    ∀ i, 1 ≤ i → i ≤ frameSize → InStack (m.get .lcl - BitVec.ofNat 16 i).toNat := by
  intro i h₁ h₂
  apply InStack.sub
  apply h.stack
  refine List.mem_cons_of_mem _ (List.mem_cons_of_mem _ (List.mem_map.mpr ⟨i - 1, List.mem_range.mpr (by omega), ?_⟩))
  rw [Nat.sub_add_cancel h₁]

end StackMachine.Ready

/-! ## Straight code -/

def PassesTo (asm : Assembled) (code : List Statement) (p : Processor) (m : Memory) : Prop :=
  ∃ q, Reaches asm.orders p q ∧ q.pc = p.pc + (asm.link code).length ∧ Agree q.memory m

theorem passesTo_of_execute {asm : Assembled} {code : List Statement} {p : Processor} {m : Memory}
    (hc : CodeAt asm.orders p.pc (asm.link code)) (hs : (asm.link code).all Order.straight = true)
    (h : ∃ q, execute (asm.link code) p = some q ∧ Agree q.memory m) : PassesTo asm code p m := by
  obtain ⟨q, hq, hm⟩ := h
  obtain ⟨hrun, hpc⟩ := run_of_codeAt hc hs hq
  exact ⟨q, ⟨_, hrun⟩, hpc, hm⟩

theorem passesTo_of_memory {asm : Assembled} {code : List Statement} {p : Processor} {m : Memory}
    (hc : CodeAt asm.orders p.pc (asm.link code)) (hs : (asm.link code).all Order.straight = true)
    (h : ∃ q, execute (asm.link code) p = some q ∧ q.memory = m) : PassesTo asm code p m := by
  obtain ⟨q, hq, rfl⟩ := h
  exact passesTo_of_execute hc hs ⟨q, hq, Agree.refl _⟩

namespace Fragment

theorem straight_pushCell (asm : Assembled) (c : Cell) : (asm.link (pushCell c)).all Order.straight = true := by
  cases c <;> rfl

theorem straight_popCell (asm : Assembled) (c : Cell) : (asm.link (popCell c)).all Order.straight = true := by
  cases c <;> rfl

theorem straight_pushLocals (asm : Assembled) (n : Nat) :
    (asm.link (List.replicate n pushZero).flatten).all Order.straight = true := by
  induction n with
  | zero => rfl
  | succ n ih =>
    rw [List.replicate_succ, List.flatten_cons, Assembled.link_append, List.all_append, ih]
    rfl

/-! ## Jumps -/

theorem run_goto {asm : Assembled} {s : Symbol} {p : Processor} (hc : CodeAt asm.orders p.pc (asm.link (goto s))) :
    ∃ q, Reaches asm.orders p q ∧ q.pc = asm.value s % 65536 ∧ q.memory = p.memory := by
  have hload : execute (asm.link [.load s]) p = some { p with pc := p.pc + 1, a := BitVec.ofNat 16 (asm.value s) } := rfl
  have hcode : asm.link (goto s) = asm.link [.load s] ++ [.compute .nowhere .zero .always] := rfl
  rw [hcode] at hc
  exact ⟨_, ⟨_, run_jumpAlways hc rfl hload⟩, by simp, rfl⟩

/-- The value on top is popped, and decides. -/
theorem run_ifGoto {asm : Assembled} {s : Symbol} {p : Processor} (hc : CodeAt asm.orders p.pc (asm.link (ifGoto s)))
    (h : InStack (Memory.get p.memory .sp - 1).toNat) :
    ∃ q, Reaches asm.orders p q ∧
      q.pc = (if Memory.top p.memory = 0 then p.pc + (asm.link (ifGoto s)).length else asm.value s % 65536) ∧
      q.memory = Memory.drop p.memory := by
  obtain ⟨v, hv⟩ : ∃ v, v = Memory.top p.memory := ⟨_, rfl⟩
  have hload : execute (asm.link (popD ++ [.load s])) p =
      some { pc := p.pc + 4, a := BitVec.ofNat 16 (asm.value s), d := v, memory := Memory.drop p.memory } := by
    rw [execute_link_append (execute_popD asm h), hv]
    rfl
  have hcode : asm.link (ifGoto s) = asm.link (popD ++ [.load s]) ++ [.compute .nowhere .d .ne] := rfl
  have hlen : (asm.link (ifGoto s)).length = 5 := rfl
  rw [hcode] at hc
  refine ⟨_, ⟨_, run_jump hc rfl hload (perform_jump rfl .ne)⟩, ?_, rfl⟩
  rw [← hv, hlen]
  have hzero : v.toInt = 0 ↔ v = 0 := BitVec.toInt_inj (y := 0)
  by_cases h₀ : v = 0
  · rw [if_pos h₀]
    simp [Condition.holds, h₀]
  · have hne : v.toInt ≠ 0 := fun e => h₀ (hzero.mp e)
    rw [if_neg h₀]
    simp [Condition.holds, hne]

/-! ## Comparisons -/

/-- The code of a comparison before it jumps: the difference of the operands. -/
def difference (number : Nat) : List Statement :=
  popD ++ [.assign .toA .predA, .assign .toD .mMinusD, .load (.holds number)]

def answerFalse (number : Nat) : List Statement :=
  [.assign .toD .zero, .load (.done number)]

def answerTrue : List Statement :=
  [.assign .toD .minusOne]

def putAnswer : List Statement :=
  [.loadCell .sp, .assign .toA .predM, .assign .toM .d]

/-- What stands around the label for operands that compare. -/
theorem compare_eq_holds (number : Nat) (c : Comparison) : compare number c =
    (difference number ++ .jump .d (comparisonCondition c) :: (answerFalse number ++ [.jump .zero .always])) ++
      .label (.holds number) :: (answerTrue ++ .label (.done number) :: putAnswer) := rfl

/-- What stands around the label where both ways meet. -/
theorem compare_eq_done (number : Nat) (c : Comparison) : compare number c =
    (difference number ++ .jump .d (comparisonCondition c) ::
      (answerFalse number ++ .jump .zero .always :: .label (.holds number) :: answerTrue)) ++
      .label (.done number) :: putAnswer := rfl

theorem link_compare (asm : Assembled) (number : Nat) (c : Comparison) :
    asm.link (compare number c) = (asm.link (difference number) ++ [.compute .nowhere .d (comparisonCondition c)]) ++
      ((asm.link (answerFalse number) ++ [.compute .nowhere .zero .always]) ++
        (asm.link answerTrue ++ asm.link putAnswer)) := rfl

theorem execute_difference (asm : Assembled) (number : Nat) {p : Processor}
    (h₁ : InStack (Memory.get p.memory .sp - 1).toNat) (h₂ : InStack (Memory.get p.memory .sp - 1 - 1).toNat) :
    execute (asm.link (difference number)) p = some
      { pc := p.pc + 6
        a := BitVec.ofNat 16 (asm.value (.holds number))
        d := (Memory.drop p.memory).top - Memory.top p.memory
        memory := Memory.drop p.memory } := by
  obtain ⟨a, ha⟩ : ∃ a, a = Memory.get p.memory .sp - 1 - 1 := ⟨_, rfl⟩
  have hlt : a.toNat < memorySize := ha ▸ h₂.lt
  have htop : (Memory.drop p.memory).top = Memory.drop p.memory a.toNat := by rw [Memory.top, Memory.get_drop, ← ha]
  rw [difference, execute_operands asm h₁, ← ha, htop]
  simp [hlt]

/-- A comparison up to its first jump. -/
theorem run_difference {asm : Assembled} {number : Nat} {c : Comparison} {p : Processor}
    (hc : CodeAt asm.orders p.pc (asm.link (compare number c)))
    (h₁ : InStack (Memory.get p.memory .sp - 1).toNat) (h₂ : InStack (Memory.get p.memory .sp - 1 - 1).toNat) :
    run asm.orders 7 p = some
      { pc := if c.holds (Memory.drop p.memory).top (Memory.top p.memory) then asm.value (.holds number) % 65536
          else p.pc + 7
        a := BitVec.ofNat 16 (asm.value (.holds number))
        d := (Memory.drop p.memory).top - Memory.top p.memory
        memory := Memory.drop p.memory } := by
  rw [link_compare] at hc
  have hjump := run_jump hc.left rfl (execute_difference asm number h₁ h₂) (perform_jump rfl (comparisonCondition c))
  simp only [Expression.value, holds_comparisonCondition, BitVec.toNat_ofNat] at hjump
  exact hjump

/-- A comparison gets to its end with its truth in the place of its operands, whichever
    way it runs. -/
theorem reaches_compare {asm : Assembled} {number : Nat} {c : Comparison} {p : Processor}
    (hc : CodeAt asm.orders p.pc (asm.link (compare number c))) (hholds : asm.value (.holds number) = p.pc + 10)
    (hdone : asm.value (.done number) = p.pc + 11) (hpc : p.pc + 11 < 65536)
    (h₁ : InStack (Memory.get p.memory .sp - 1).toNat) (h₂ : InStack (Memory.get p.memory .sp - 1 - 1).toNat) :
    ∃ q, Reaches asm.orders p q ∧ q.pc = p.pc + (asm.link (compare number c)).length ∧ q.memory =
      (Memory.drop p.memory).replaceTop (truth (c.holds (Memory.drop p.memory).top (Memory.top p.memory))) := by
  have hlen : (asm.link (compare number c)).length = 14 := rfl
  obtain ⟨m, hm⟩ : ∃ m, m = Memory.drop p.memory := ⟨_, rfl⟩
  have htop : InStack (Memory.get m .sp - 1).toNat := by
    rw [hm, Memory.get_drop]
    exact h₂
  have hjump := run_difference hc h₁ h₂
  rw [link_compare] at hc
  rw [← hm, hholds] at hjump
  rw [← hm]
  have hend : ∀ d : Word, ∀ a : Word,
      Reaches asm.orders ⟨p.pc + 11, a, d, m⟩ ⟨p.pc + 14, Memory.get m .sp - 1, d, m.replaceTop d⟩ := by
    intro d a
    have hput : CodeAt asm.orders (p.pc + 11) (asm.link putAnswer) := hc.right.right.right
    exact ⟨_, (run_of_codeAt hput rfl (@execute_replaceTop asm ⟨p.pc + 11, a, d, m⟩ htop)).1⟩
  obtain ⟨a, ha⟩ : ∃ a, a = BitVec.ofNat 16 (p.pc + 10) := ⟨_, rfl⟩
  obtain ⟨d, hd⟩ : ∃ d, d = m.top - Memory.top p.memory := ⟨_, rfl⟩
  cases hb : c.holds m.top (Memory.top p.memory) with
  | true =>
    have hfirst : Reaches asm.orders p ⟨p.pc + 10, a, d, m⟩ := by
      have hmod : (p.pc + 10) % 65536 = p.pc + 10 := Nat.mod_eq_of_lt (by omega)
      rw [hb, if_pos rfl, hmod, ← hd, ← ha] at hjump
      exact ⟨_, hjump⟩
    have htrue : CodeAt asm.orders (p.pc + 10) (asm.link answerTrue) := hc.right.right.left
    have hsecond := (run_of_codeAt (p := ⟨p.pc + 10, a, d, m⟩) htrue rfl rfl).1
    exact ⟨_, hfirst.trans (.trans ⟨_, hsecond⟩ (hend (-1) a)), by rw [hlen], rfl⟩
  | false =>
    have hfirst : Reaches asm.orders p ⟨p.pc + 7, a, d, m⟩ := by
      rw [hb, ← hd, ← ha] at hjump
      exact ⟨_, hjump⟩
    have hfalse : CodeAt asm.orders (p.pc + 7) (asm.link (answerFalse number) ++ [.compute .nowhere .zero .always]) :=
      hc.right.left
    have hto : (BitVec.ofNat 16 (asm.value (.done number))).toNat = p.pc + 11 := by
      rw [BitVec.toNat_ofNat, hdone]
      exact Nat.mod_eq_of_lt (by omega)
    have hsecond : Reaches asm.orders ⟨p.pc + 7, a, d, m⟩ ⟨p.pc + 11, BitVec.ofNat 16 (asm.value (.done number)), 0, m⟩ := by
      rw [← hto]
      exact ⟨_, run_jumpAlways (p := ⟨p.pc + 7, a, d, m⟩) hfalse rfl rfl⟩
    exact ⟨_, hfirst.trans (hsecond.trans (hend 0 _)), by rw [hlen], rfl⟩

theorem passesTo_compare {asm : Assembled} {number : Nat} {c : Comparison} {p : Processor}
    (hc : CodeAt asm.orders p.pc (asm.link (compare number c))) (hholds : asm.value (.holds number) = p.pc + 10)
    (hdone : asm.value (.done number) = p.pc + 11) (hpc : p.pc + 14 < 65536)
    (h₁ : InStack (Memory.get p.memory .sp - 1).toNat) (h₂ : InStack (Memory.get p.memory .sp - 1 - 1).toNat) :
    PassesTo asm (compare number c) p
      ((Memory.drop p.memory).replaceTop (truth (c.holds (Memory.drop p.memory).top (Memory.top p.memory)))) := by
  obtain ⟨q, hq, hto, hm⟩ := @reaches_compare asm number c p hc hholds hdone (by omega) h₁ h₂
  exact ⟨q, hq, hto, hm ▸ Agree.refl _⟩

end Fragment

/-! ## Targets -/

theorem labelTarget_eq_some {program : Program} {k : Nat} {l : String}
    (h : ∃ j v, program[j]? = some (v, .label l) ∧ owner program j = owner program k) :
    ∃ j v, labelTarget program k l = some j ∧ program[j]? = some (v, .label l) ∧ owner program j = owner program k := by
  obtain ⟨j, v, hj, ho⟩ := h
  have hlt : j < program.length := (List.getElem?_eq_some_iff.mp hj).1
  obtain ⟨j', hj'⟩ : ∃ j', labelTarget program k l = some j' := by
    apply Option.isSome_iff_exists.mp
    rw [labelTarget, List.find?_isSome]
    exact ⟨j, List.mem_range.mpr hlt, by simp [hj, ho]⟩
  have hfound := List.find?_some hj'
  simp only [Bool.and_eq_true, decide_eq_true_eq] at hfound
  obtain ⟨hlabel, howner⟩ := hfound
  obtain ⟨⟨v', i⟩, hi, he⟩ := Option.map_eq_some_iff.mp hlabel
  obtain rfl : i = .label l := he
  exact ⟨j', v', hj', hi, howner⟩

theorem procedureTarget_eq_some {program : Program} {f : String}
    (h : ∃ (j : Nat) (v : String) (n : Nat), program[j]? = some (v, .function f n)) :
    ∃ (j : Nat) (v : String) (n : Nat), procedureTarget program f = some j ∧ program[j]? = some (v, .function f n) := by
  obtain ⟨j, v, n, hj⟩ := h
  obtain ⟨j', hj'⟩ : ∃ j', procedureTarget program f = some j' := by
    apply Option.isSome_iff_exists.mp
    rw [procedureTarget, List.findIdx?_isSome, List.any_eq_true]
    exact ⟨(v, .function f n), List.mem_of_getElem? hj, by simp⟩
  obtain ⟨hlt, hfound, -⟩ := List.findIdx?_eq_some_iff_getElem.mp hj'
  obtain ⟨⟨v', i⟩, hi⟩ : ∃ i, i = program[j'] := ⟨_, rfl⟩
  rw [← hi] at hfound
  cases i with
  | function g m =>
    obtain rfl : g = f := by simpa using hfound
    exact ⟨j', v', m, hj', by rw [hi]; exact List.getElem?_eq_getElem hlt⟩
  | _ => cases hfound

/-! ## Segments -/

section Programs

variable {options : Options} {units : List SourceUnit} {asm : Assembled}

/-- A cell has the address that the stack machine gives it. -/
theorem address_cell (h : Complete options units) (ha : Assembler.assemble (translate options units).text = .ok asm)
    {scope : Scope} (hu : Name.isIdentifier scope.unit = true) {index : Nat} {segment : Segment} {c : Fragment.Cell}
    (hc : Fragment.cell scope index segment = .ok c) (m : Memory) :
    c.address asm m = address (Program.ofUnits units) scope.unit m index segment ∧
      value (Program.ofUnits units) scope.unit m index segment = m (c.address asm m) := by
  cases segment with
  | constant => cases hc
  | locals | argument | this | that =>
    cases hc
    exact ⟨rfl, rfl⟩
  | static =>
    cases hc
    have hstatic := value_static h ha hu index
    exact ⟨hstatic, congrArg m hstatic.symm⟩
  | temp =>
    simp only [Fragment.cell, Fragment.temporary] at hc
    split at hc
    · cases hc
      exact ⟨rfl, rfl⟩
    · cases hc
  | pointer =>
    simp only [Fragment.cell] at hc
    unfold Fragment.basePointer at hc
    split at hc
    · cases hc
      exact ⟨rfl, rfl⟩
    · cases hc
      exact ⟨rfl, rfl⟩
    · cases hc

/-! ## Steps -/

def StackMachine.Next.place (options : Options) (units : List SourceUnit) : Next → Nat
  | .instruction k => StackToHack.place options units k
  | .returned w => w.toNat

def returnTo (options : Options) (units : List SourceUnit) (k : Nat) : Word :=
  BitVec.ofNat 16 (place options units (k + 1))

/-- From `p`, at the code of instruction `k`, the program does the step of the stack
    machine. -/
def Simulated (options : Options) (units : List SourceUnit) (asm : Assembled) (k : Nat) (p : Processor) : Prop :=
  ∃ next m q, StackMachine.step (Program.ofUnits units) (returnTo options units) k p.memory = some (next, m) ∧
    Reaches asm.orders p q ∧ q.pc = next.place options units ∧ Agree q.memory m

structure StandsAt (options : Options) (units : List SourceUnit) (asm : Assembled) (k : Nat) (pl : Placed)
    (p : Processor) : Prop where
  complete : Complete options units
  assembled : Assembler.assemble (translate options units).text = .ok asm
  fits : asm.orders.length ≤ programSize
  placed : (listing options units)[k]? = some pl
  pc : p.pc = place options units k
  ready : Ready (Program.ofUnits units) p.memory pl.entry

namespace StandsAt

variable {k : Nat} {pl : Placed} {p : Processor}

theorem entry (s : StandsAt options units asm k pl p) : (Program.ofUnits units)[k]? = some (pl.scope.unit, pl.instruction) := by
  rw [← listing_entries options, List.getElem?_map, s.placed]
  rfl

theorem coded (s : StandsAt options units asm k pl p) : pl.instruction.code pl.scope = .ok pl.code :=
  s.complete.toAccepted.coded pl (List.mem_of_getElem? s.placed)

theorem codeAt (s : StandsAt options units asm k pl p) : CodeAt asm.orders p.pc (asm.link pl.code) := by
  rw [s.pc]
  exact codeAt_place s.complete s.assembled s.placed

theorem isIdentifier_unit (s : StandsAt options units asm k pl p) : Name.isIdentifier pl.scope.unit = true :=
  (mem_listing s.complete.toAccepted s.complete.identifiers (List.mem_of_getElem? s.placed)).2.1

theorem code_eq (s : StandsAt options units asm k pl p) {code : List Statement}
    (h : pl.instruction.code pl.scope = .ok code) : pl.code = code :=
  Except.ok.inj (s.coded.symm.trans h)

theorem readyFor (s : StandsAt options units asm k pl p) {i : Instruction} (hi : pl.instruction = i) :
    Ready (Program.ofUnits units) p.memory (pl.scope.unit, i) := hi ▸ s.ready

/-- An instruction that goes on with the next one. -/
theorem simulated (s : StandsAt options units asm k pl p) {m : Memory}
    (hstep : StackMachine.step (Program.ofUnits units) (returnTo options units) k p.memory =
      some (.instruction (k + 1), m)) (hp : PassesTo asm pl.code p m) : Simulated options units asm k p := by
  obtain ⟨q, hq, hend, hm⟩ := hp
  refine ⟨_, m, q, hstep, hq, ?_, hm⟩
  rw [hend, s.pc]
  exact (place_succ_link s.complete asm s.placed).symm

/-! ## Instructions that go on -/

theorem simulated_unary (s : StandsAt options units asm k pl p) {u : Unary} (hi : pl.instruction = .operation (.unary u)) :
    Simulated options units asm k p := by
  have hcode : pl.code = Fragment.unary u := s.code_eq (by rw [hi]; rfl)
  have hat := s.codeAt
  have htop : InStack (Memory.get p.memory .sp - 1).toNat := (s.readyFor hi).below (j := 1) List.mem_cons_self
  rw [hcode] at hat
  refine s.simulated (by simp only [StackMachine.step, s.entry, hi, Option.bind_some]; rfl) ?_
  rw [hcode]
  exact passesTo_of_memory hat rfl (Fragment.execute_unary asm u htop)

theorem simulated_binary (s : StandsAt options units asm k pl p) {b : Binary}
    (hi : pl.instruction = .operation (.binary b)) : Simulated options units asm k p := by
  have hcode : pl.code = Fragment.binary b := s.code_eq (by rw [hi]; rfl)
  have hat := s.codeAt
  obtain ⟨h₁, h₂⟩ := (s.readyFor hi).operands rfl
  rw [hcode] at hat
  refine s.simulated (by simp only [StackMachine.step, s.entry, hi, Option.bind_some]; rfl) ?_
  rw [hcode]
  exact passesTo_of_memory hat rfl (Fragment.execute_binary asm b h₁ h₂)

theorem simulated_compare (s : StandsAt options units asm k pl p) {c : Comparison}
    (hi : pl.instruction = .operation (.compare c)) : Simulated options units asm k p := by
  have hcode := code_of_compare s.complete s.placed hi
  have hat := s.codeAt
  obtain ⟨h₁, h₂⟩ := (s.readyFor hi).operands rfl
  have hholds : asm.value (.holds pl.scope.comparisons) = p.pc + 10 := by
    rw [s.pc]
    exact value_of_code s.complete s.assembled s.placed (hcode.trans (Fragment.compare_eq_holds _ c)) (by intro _ e; cases e)
  have hdone : asm.value (.done pl.scope.comparisons) = p.pc + 11 := by
    rw [s.pc]
    exact value_of_code s.complete s.assembled s.placed (hcode.trans (Fragment.compare_eq_done _ c)) (by intro _ e; cases e)
  have hend : p.pc + 14 < 65536 := by
    have hnext := place_le s.complete s.assembled (k + 1)
    have hlen : (asm.link pl.code).length = 14 := by rw [hcode]; rfl
    have hfits := s.fits
    rw [place_succ_link s.complete asm s.placed, hlen, ← s.pc] at hnext
    unfold programSize at hfits
    omega
  rw [hcode] at hat
  refine s.simulated (by simp only [StackMachine.step, s.entry, hi, Option.bind_some]; rfl) ?_
  rw [hcode]
  exact Fragment.passesTo_compare hat hholds hdone hend h₁ h₂

theorem simulated_push (s : StandsAt options units asm k pl p) {segment : Segment} {index : Nat}
    (hi : pl.instruction = .push segment index) : Simulated options units asm k p := by
  have hat := s.codeAt
  have hcoded := s.coded
  have hsp : InStack (Memory.get p.memory .sp).toNat := (s.readyFor hi).stack _ List.mem_cons_self
  rw [hi] at hcoded
  refine s.simulated (by simp only [StackMachine.step, s.entry, hi, Option.bind_some]; rfl) ?_
  rcases Fragment.push_ok hcoded with ⟨rfl, -, hcode⟩ | ⟨c, hc, hcode⟩
  · rw [hcode] at hat ⊢
    exact passesTo_of_memory hat rfl (Fragment.execute_pushNumber asm index hsp)
  · obtain ⟨haddress, hvalue⟩ := address_cell s.complete s.assembled s.isIdentifier_unit hc p.memory
    have hlt : c.address asm p.memory < memorySize := by
      rw [haddress]
      exact (s.readyFor hi).segment (segment, index) rfl
    rw [hcode] at hat ⊢
    rw [hvalue]
    exact passesTo_of_memory hat (Fragment.straight_pushCell asm c) (Fragment.execute_pushCell asm hlt hsp)

theorem simulated_pop (s : StandsAt options units asm k pl p) {segment : Segment} {index : Nat}
    (hi : pl.instruction = .pop segment index) : Simulated options units asm k p := by
  have hat := s.codeAt
  have hcoded := s.coded
  have htop : InStack (Memory.get p.memory .sp - 1).toNat := (s.readyFor hi).below (j := 1) List.mem_cons_self
  rw [hi] at hcoded
  refine s.simulated (by simp only [StackMachine.step, s.entry, hi, Option.bind_some]; rfl) ?_
  obtain ⟨c, hc, hcode⟩ := Fragment.pop_ok hcoded
  obtain ⟨haddress, -⟩ := address_cell s.complete s.assembled s.isIdentifier_unit hc p.memory
  have hlt : c.address asm p.memory < memorySize := by
    rw [haddress]
    exact (s.readyFor hi).segment (segment, index) rfl
  rw [hcode] at hat ⊢
  rw [← haddress]
  exact passesTo_of_execute hat (Fragment.straight_popCell asm c) (Fragment.execute_popCell asm hlt htop)

theorem simulated_label (s : StandsAt options units asm k pl p) {l : String} (hi : pl.instruction = .label l) :
    Simulated options units asm k p := by
  have hcode := code_of_label s.complete s.placed hi
  refine s.simulated (by simp only [StackMachine.step, s.entry, hi, Option.bind_some]; rfl) ?_
  rw [hcode]
  exact ⟨p, Reaches.refl _ _, rfl, Agree.refl _⟩

theorem simulated_function (s : StandsAt options units asm k pl p) {f : String} {n : Nat}
    (hi : pl.instruction = .function f n) : Simulated options units asm k p := by
  have hcode := code_of_function s.complete s.placed hi
  have hat := s.codeAt
  rw [hcode] at hat
  refine s.simulated (by simp only [StackMachine.step, s.entry, hi, Option.bind_some]; rfl) ?_
  rw [hcode]
  refine passesTo_of_memory hat (Fragment.straight_pushLocals asm n) (Fragment.execute_pushLocals asm n fun i hlt => ?_)
  exact (s.readyFor hi).stack _ (List.mem_map.mpr ⟨i, List.mem_range.mpr hlt, rfl⟩)

/-! ## Instructions that jump -/

theorem place_mod (s : StandsAt options units asm k pl p) (j : Nat) : place options units j % 65536 = place options units j := by
  have hle := place_le s.complete s.assembled j
  have hfits := s.fits
  unfold programSize at hfits
  exact Nat.mod_eq_of_lt (by omega)

/-- The target of a jump, and what its label stands for. -/
theorem exists_labelTarget (s : StandsAt options units asm k pl p) {l : String}
    (hi : pl.instruction = .goto l ∨ pl.instruction = .ifGoto l) :
    ∃ j, labelTarget (Program.ofUnits units) k l = some j ∧ asm.value (pl.scope.label l) = place options units j := by
  have hentry := s.entry
  have hfunction : pl.instruction.isFunction = false := by rcases hi with hi | hi <;> rw [hi] <;> rfl
  have hjump := s.complete.jumps k pl.scope.unit l (by
    rcases hi with hi | hi
    · exact .inl (hi ▸ hentry)
    · exact .inr (hi ▸ hentry))
  obtain ⟨j, v, htarget, hj, ho⟩ := labelTarget_eq_some hjump
  exact ⟨j, htarget, (value_label s.complete s.assembled s.placed hfunction hj ho).1⟩

theorem simulated_goto (s : StandsAt options units asm k pl p) {l : String} (hi : pl.instruction = .goto l) :
    Simulated options units asm k p := by
  have hcoded := s.coded
  rw [hi] at hcoded
  have hat := s.codeAt
  rw [(Instruction.named_ok hcoded).2] at hat
  obtain ⟨j, htarget, hvalue⟩ := s.exists_labelTarget (.inl hi)
  obtain ⟨q, hq, hto, hm⟩ := Fragment.run_goto hat
  refine ⟨.instruction j, p.memory, q, ?_, hq, ?_, hm ▸ Agree.refl _⟩
  · simp only [StackMachine.step, s.entry, hi, Option.bind_some, htarget, Option.map_some]
  · rw [hto, hvalue, s.place_mod]
    rfl

theorem simulated_ifGoto (s : StandsAt options units asm k pl p) {l : String} (hi : pl.instruction = .ifGoto l) :
    Simulated options units asm k p := by
  have hcoded := s.coded
  rw [hi] at hcoded
  have hcode := (Instruction.named_ok hcoded).2
  have hat := s.codeAt
  have htop : InStack (Memory.get p.memory .sp - 1).toNat := (s.readyFor hi).below (j := 1) List.mem_cons_self
  rw [hcode] at hat
  obtain ⟨j, htarget, hvalue⟩ := s.exists_labelTarget (.inr hi)
  obtain ⟨q, hq, hto, hm⟩ := Fragment.run_ifGoto hat htop
  by_cases hv : Memory.top p.memory = 0
  · refine ⟨.instruction (k + 1), Memory.drop p.memory, q, ?_, hq, ?_, hm ▸ Agree.refl _⟩
    · simp only [StackMachine.step, s.entry, hi, Option.bind_some, if_pos hv]
    · rw [hto, if_pos hv, s.pc, ← hcode]
      exact (place_succ_link s.complete asm s.placed).symm
  · refine ⟨.instruction j, Memory.drop p.memory, q, ?_, hq, ?_, hm ▸ Agree.refl _⟩
    · simp only [StackMachine.step, s.entry, hi, Option.bind_some, if_neg hv, htarget, Option.map_some]
    · rw [hto, if_neg hv, hvalue, s.place_mod]
      rfl

theorem simulated_call (s : StandsAt options units asm k pl p) {f : String} {n : Nat} (hi : pl.instruction = .call f n) :
    Simulated options units asm k p := by
  have hcoded := s.coded
  rw [hi] at hcoded
  have hcode := (Instruction.named_ok hcoded).2
  have hat := s.codeAt
  have hentry := s.entry
  rw [hcode] at hat
  rw [hi] at hentry
  have hcall : .call f n ∈ instructions units := by
    rw [instructions_eq]
    exact List.mem_map.mpr ⟨_, List.mem_of_getElem? hentry, rfl⟩
  obtain ⟨j, v, m, htarget, hj⟩ := procedureTarget_eq_some (exists_function_of_mem (s.complete.calls f n hcall))
  have hframe : ∀ i < frameSize, InStack ((Memory.get p.memory .sp).toNat + i) := by
    intro i hlt
    exact (s.readyFor hi).stack _ (List.mem_map.mpr ⟨i, List.mem_range.mpr hlt, rfl⟩)
  have hreturn : BitVec.ofNat 16 (asm.value pl.scope.returnAddress) = returnTo options units k := by
    have hsplit : pl.code = (Fragment.saveCaller pl.scope n ++ Fragment.goto (.procedure f)) ++
        .label pl.scope.returnAddress :: [] := by rw [hcode, Fragment.call_eq]
    have hlen : (asm.link pl.code).length =
        (asm.link (Fragment.saveCaller pl.scope n ++ Fragment.goto (.procedure f))).length := by
      rw [hsplit, Assembled.link_append, List.length_append]
      rfl
    rw [returnTo, place_succ_link s.complete asm s.placed, hlen,
      value_of_code s.complete s.assembled s.placed hsplit (by intro _ e; cases e), Assembled.length_link]
  obtain ⟨q, hq, hto, hm⟩ := Fragment.run_call hat hframe
  refine ⟨.instruction j, Memory.enter p.memory (returnTo options units k) n, q, ?_, ⟨_, hq⟩, ?_, ?_⟩
  · simp only [StackMachine.step, s.entry, hi, Option.bind_some, htarget, Option.map_some]
  · rw [hto, (value_procedure s.complete s.assembled hj).1, s.place_mod]
    rfl
  · rw [hm, hreturn]
    exact Agree.refl _

theorem simulated_ret (s : StandsAt options units asm k pl p) (hi : pl.instruction = .ret) :
    Simulated options units asm k p := by
  have hcode : pl.code = Fragment.ret := s.code_eq (by rw [hi]; rfl)
  have hat := s.codeAt
  rw [hcode] at hat
  have harg : InStack (Memory.get p.memory .arg).toNat := (s.readyFor hi).stack _ List.mem_cons_self
  have htop : InStack (Memory.get p.memory .sp - 1).toNat :=
    (s.readyFor hi).below (j := 1) (List.mem_cons_of_mem _ List.mem_cons_self)
  obtain ⟨q, hq, hto, hm⟩ := Fragment.run_ret hat (s.readyFor hi).frame harg htop
  refine ⟨.returned (Memory.saved p.memory (Memory.get p.memory .lcl) frameSize), Memory.leave p.memory, q, ?_, ⟨_, hq⟩, hto, hm⟩
  simp only [StackMachine.step, s.entry, hi, Option.bind_some]

end StandsAt

/-! ## Programs -/

/-- Where the processor stands at the code of an instruction, it does what the stack
    machine does. -/
theorem step_simulated {k : Nat} {pl : Placed} {p : Processor} (s : StandsAt options units asm k pl p) :
    Simulated options units asm k p := by
  cases hi : pl.instruction with
  | operation o =>
    cases o with
    | unary u => exact s.simulated_unary hi
    | binary b => exact s.simulated_binary hi
    | compare c => exact s.simulated_compare hi
  | push segment index => exact s.simulated_push hi
  | pop segment index => exact s.simulated_pop hi
  | label l => exact s.simulated_label hi
  | goto l => exact s.simulated_goto hi
  | ifGoto l => exact s.simulated_ifGoto hi
  | function f n => exact s.simulated_function hi
  | call f n => exact s.simulated_call hi
  | ret => exact s.simulated_ret hi

/-- A complete program is assembled, and if it fits the instruction memory it simulates
    the stack machine: from the code of any instruction and any memory that holds the cells
    of the instruction it gets to where the stack machine goes on, with the memory that
    the stack machine has then. -/
theorem program_simulates (h : Complete options units) :
    ∃ asm, Assembler.assemble (translate options units).text = .ok asm ∧
      (asm.orders.length ≤ programSize →
        ∀ (k : Nat) (i : String × Instruction) (p : Processor), (Program.ofUnits units)[k]? = some i →
          p.pc = place options units k → Ready (Program.ofUnits units) p.memory i →
          ∃ next m q, StackMachine.step (Program.ofUnits units) (returnTo options units) k p.memory = some (next, m) ∧
            Reaches asm.orders p q ∧ q.pc = next.place options units ∧ Agree q.memory m) := by
  obtain ⟨asm, ha⟩ := h.assembled
  refine ⟨asm, ha, fun hfits k i p hi hpc hready => ?_⟩
  obtain ⟨pl, hpl, rfl⟩ := @exists_placed options _ _ _ hi
  exact step_simulated ⟨h, ha, hfits, hpl, hpc, hready⟩

end Programs

/-- Compares a static variable and calls itself while it is small. -/
def countdown : SourceUnit :=
  ⟨"A", "function F 0\npush static 3\npush constant 7\nlt\nif-goto L\nlabel L\ncall F 0\nreturn\n"⟩

theorem countdown_program : Program.ofUnits [countdown] =
    [("A", .function "F" 0), ("A", .push .static 3), ("A", .push .constant 7), ("A", .operation (.compare .lt)),
      ("A", .ifGoto "L"), ("A", .label "L"), ("A", .call "F" 0), ("A", .ret)] := by
  decide +kernel

theorem countdown_complete : Complete { entry := "F" } [countdown] := by
  refine ⟨⟨⟨1, 8, 185⟩, by decide +kernel⟩, by decide +kernel, ⟨?_, ?_⟩, ?_, ?_, ?_, ?_⟩ <;>
    simp only [instructions_eq, countdown_program]
  · decide
  · decide
  · decide
  · intro k u l hk
    have hlt : k < 8 := by
      rcases hk with hk | hk <;> exact (List.getElem?_eq_some_iff.mp hk).1
    interval_cases k <;> simp at hk
    obtain ⟨-, rfl⟩ := hk
    exact ⟨5, "A", rfl, rfl⟩
  · intro f n hf
    simp at hf
    obtain ⟨rfl, -⟩ := hf
    decide
  · intro _
    decide

theorem program_simulates_countdown :
    ∃ asm, Assembler.assemble (translate { entry := "F" } [countdown]).text = .ok asm ∧
      ∃ p q, p.pc = place { entry := "F" } [countdown] 3 ∧ p.memory 0 = 258 ∧ p.memory 256 = 3 ∧ p.memory 257 = 7 ∧
        Reaches asm.orders p q ∧ q.pc = place { entry := "F" } [countdown] 4 ∧ q.memory 0 = 257 ∧ q.memory 256 = -1 := by
  obtain ⟨asm, ha, hsimulates⟩ := program_simulates countdown_complete
  refine ⟨asm, ha, ?_⟩
  have hfits : asm.orders.length ≤ programSize := by
    rw [countdown_complete.length_orders ha]
    decide +kernel
  -- 3 and 7 lie on the stack
  obtain ⟨m, hm⟩ : ∃ m : Memory, m = fun c => if c = 0 then 258 else if c = 256 then 3 else if c = 257 then 7 else 0 := ⟨_, rfl⟩
  have hready : Ready (Program.ofUnits [countdown]) m ("A", .operation (.compare .lt)) := by
    constructor
    · intro a ha
      have : stackCells m (.operation (.compare .lt)) = [257, 256] := by
        rw [hm]
        rfl
      rw [this] at ha
      revert a
      decide
    · intro s hs
      cases hs
  obtain ⟨p, hp⟩ : ∃ p : Processor, p = ⟨place { entry := "F" } [countdown] 3, 0, 0, m⟩ := ⟨_, rfl⟩
  have hpc : p.pc = place { entry := "F" } [countdown] 3 := by rw [hp]
  have hmem : p.memory = m := by rw [hp]
  obtain ⟨next, m', q, hstep, hreaches, hto, hagree⟩ := hsimulates hfits 3 ("A", .operation (.compare .lt)) p
    (by rw [countdown_program]; rfl) hpc (hmem ▸ hready)
  rw [countdown_program, hmem] at hstep
  refine ⟨p, q, hpc, ?_, ?_, ?_, hreaches, ?_⟩
  · rw [hmem, hm]
    rfl
  · rw [hmem, hm]
    rfl
  · rw [hmem, hm]
    rfl
  · cases hstep
    refine ⟨hto, ?_, ?_⟩
    · rw [hagree 0 (by decide) (by decide), hm]
      rfl
    · rw [hagree 256 (by decide) (by decide), hm]
      rfl

end StackToHack
