/-
  StackToHack.Proofs.Comparisons — what a comparison says of its operands as numbers.

  The code decides by the sign of a difference of 16 bits. While the difference of the
  operands as numbers has 16 bits, the word is that difference and its sign is right.
  Otherwise the word is off by 2 ^ 16, not 0, and of the other sign. So equality is
  exact, and the order is told the wrong way round exactly where the difference wraps.
  - `toInt_sub_of_fits`, `toInt_sub_of_wraps`: the difference as a number.
  - `Comparison.holds_eq`: when the sign tells the order.
  - `run_compare`: the code of a comparison, from any state, wherever it stands.
  - `comparison_signed_unless_wraps`: the answer that it leaves, in numbers.
  - `instruction_compares`: the same of each `eq`, `gt` and `lt` in a complete program.
  - `comparison_goes_wrong`: operands that are told the wrong way round, and code behind
    the last place that a word can hold.
-/

import StackToHack.Proofs.Simulation
import StackToHack.Proofs.Startup

namespace StackToHack

open Processor StackMachine

/-! ## Numbers -/

def Comparison.relates : Comparison → Int → Int → Bool
  | .eq, x, y => x = y
  | .gt, x, y => y < x
  | .lt, x, y => x < y

/-- The difference of the words, as numbers with a sign, has 16 bits. -/
def DifferenceFits (x y : Word) : Prop :=
  -32768 ≤ x.toInt - y.toInt ∧ x.toInt - y.toInt ≤ 32767

instance (x y : Word) : Decidable (DifferenceFits x y) :=
  inferInstanceAs (Decidable (_ ∧ _))

theorem toInt_bounds (x : Word) : -32768 ≤ x.toInt ∧ x.toInt ≤ 32767 := by
  have hle := x.le_toInt
  have hlt := x.toInt_lt
  omega

theorem toInt_sub_of_fits {x y : Word} (h : DifferenceFits x y) : (x - y).toInt = x.toInt - y.toInt := by
  obtain ⟨hlow, hhigh⟩ := h
  rw [BitVec.toInt_sub, Int.bmod_eq_of_le] <;> omega

/-- A difference that does not fit is off by 2 ^ 16, towards the other sign. -/
theorem toInt_sub_of_wraps {x y : Word} (h : ¬ DifferenceFits x y) :
    (32767 < x.toInt - y.toInt ∧ (x - y).toInt = x.toInt - y.toInt - 65536) ∨
      (x.toInt - y.toInt < -32768 ∧ (x - y).toInt = x.toInt - y.toInt + 65536) := by
  have hx := toInt_bounds x
  have hy := toInt_bounds y
  unfold DifferenceFits at h
  rw [BitVec.toInt_sub, Int.bmod_def]
  omega

theorem Comparison.holds_of_fits {x y : Word} (c : Comparison) (h : DifferenceFits x y) :
    c.holds x y = c.relates x.toInt y.toInt := by
  have hsub := toInt_sub_of_fits h
  have hzero : x - y = 0 ↔ (x - y).toInt = 0 := (BitVec.toInt_inj (y := 0)).symm
  cases c with
  | eq =>
    simp only [holds, relates, decide_eq_decide]
    rw [hzero]
    omega
  | gt =>
    simp only [holds, relates, decide_eq_decide]
    omega
  | lt =>
    simp only [holds, relates, decide_eq_decide]
    omega

theorem Comparison.holds_of_wraps {x y : Word} {c : Comparison} (hc : c ≠ .eq) (h : ¬ DifferenceFits x y) :
    c.holds x y = !c.relates x.toInt y.toInt := by
  have hx := toInt_bounds x
  have hy := toInt_bounds y
  have hsub := toInt_sub_of_wraps h
  cases c with
  | eq => exact absurd rfl hc
  | gt =>
    simp only [holds, relates, ← decide_not, decide_eq_decide]
    omega
  | lt =>
    simp only [holds, relates, ← decide_not, decide_eq_decide]
    omega

/-- Words are different if their difference wraps, and then the difference is not 0. -/
theorem Comparison.holds_eq_self (x y : Word) : Comparison.eq.holds x y = Comparison.eq.relates x.toInt y.toInt := by
  by_cases h : DifferenceFits x y
  · exact holds_of_fits .eq h
  · have hx := toInt_bounds x
    have hy := toInt_bounds y
    have hsub := toInt_sub_of_wraps h
    have hzero : x - y = 0 ↔ (x - y).toInt = 0 := (BitVec.toInt_inj (y := 0)).symm
    simp only [holds, relates, decide_eq_decide]
    rw [hzero]
    omega

/-- The answer of a comparison is that of the numbers, unless it looks at the sign of a
    difference that wraps. -/
theorem Comparison.holds_eq (c : Comparison) (x y : Word) :
    c.holds x y = if c = .eq ∨ DifferenceFits x y then c.relates x.toInt y.toInt else !c.relates x.toInt y.toInt := by
  split
  · rename_i h
    rcases h with rfl | h
    · exact holds_eq_self x y
    · exact c.holds_of_fits h
  · rename_i h
    exact holds_of_wraps (fun hc => h (.inl hc)) fun hf => h (.inr hf)

/-! ## Code -/

section Programs

variable {before after : List Statement} {number : Nat} {c : Comparison} {asm : Assembled} {p : Processor} {s : Nat}

/-- A label in the code lies behind the orders before it if the passes of the assembler
    agree on all lines before the code. -/
theorem value_of_split {code front back : List Statement} {symbol : Symbol}
    (ha : Assembler.assemble (Statement.write (before ++ code ++ after)) = .ok asm) (hd : Assembler.drift before = 0)
    (hs : ∀ t ∈ code, t.Sound) (hcode : code = front ++ .label symbol :: back) (hp : ∀ p, symbol ≠ .predefined p) :
    asm.value symbol = Assembler.size before + front.countP Statement.isOrder := by
  subst hcode
  have hfront : ∀ t ∈ front, t.Sound := fun t ht => hs t (List.mem_append_left _ ht)
  have hsymbol : symbol.Sound := hs (.label symbol) (List.mem_append_right _ List.mem_cons_self)
  have hwhole : before ++ (front ++ .label symbol :: back) ++ after = (before ++ front) ++ .label symbol :: (back ++ after) := by
    simp
  rw [hwhole] at ha
  rw [value_of_lookup (lookup_of_assemble ha hsymbol) hp, Assembler.size_append, Assembler.drift_append, hd,
    Assembler.drift_of_sound hfront, Assembler.size_of_sound hfront, Nat.zero_add, Nat.add_zero]

namespace Fragment

theorem countP_function (name : String) (locals : Nat) :
    (function name locals).countP Statement.isOrder = 4 * locals := by
  have hzeros : ∀ n : Nat, (List.replicate n pushZero).flatten.countP Statement.isOrder = 4 * n := by
    intro n
    induction n with
    | zero => rfl
    | succ n ih =>
      rw [List.replicate_succ, List.flatten_cons, List.countP_append, ih]
      show 4 + 4 * n = 4 * (n + 1)
      omega
  rw [function, List.countP_cons, hzeros]
  rfl

theorem sound_compare (number : Nat) (c : Comparison) : ∀ t ∈ compare number c, t.Sound :=
  sound_operation { comparisons := number } (.compare c)

/-- Where the two labels of a comparison lie. -/
theorem values_compare (ha : Assembler.assemble (Statement.write (before ++ compare number c ++ after)) = .ok asm)
    (hd : Assembler.drift before = 0) :
    asm.value (.holds number) = Assembler.size before + 10 ∧ asm.value (.done number) = Assembler.size before + 11 := by
  have hsound := sound_compare number c
  constructor
  · exact value_of_split ha hd hsound (compare_eq_holds number c) (by intro _ e; cases e)
  · exact value_of_split ha hd hsound (compare_eq_done number c) (by intro _ e; cases e)

end Fragment

/-- The cells of the operands, counted from the cell behind them. -/
theorem operand_cells {m : Memory} (hsp : Memory.get m .sp = BitVec.ofNat 16 s) (hlow : stackBase + 2 ≤ s)
    (hhigh : s < memorySize) :
    Memory.get m .sp - 1 = BitVec.ofNat 16 (s - 1) ∧ (Memory.get m .sp - 1).toNat = s - 1 ∧
      (Memory.get m .sp - 1 - 1).toNat = s - 2 := by
  have hone : Memory.get m .sp - 1 = BitVec.ofNat 16 (s - 1) := by
    rw [hsp]
    exact ofNat_sub_ofNat (b := 1) (by omega) hhigh
  have htwo : Memory.get m .sp - 1 - 1 = BitVec.ofNat 16 (s - 2) := by
    rw [hone]
    exact ofNat_sub_ofNat (a := s - 1) (b := 1) (by omega) (by omega)
  rw [htwo, hone, toNat_ofNat (by omega), toNat_ofNat (by omega)]
  exact ⟨rfl, rfl, rfl⟩

theorem inStack_operands {m : Memory} (hsp : Memory.get m .sp = BitVec.ofNat 16 s) (hlow : stackBase + 2 ≤ s)
    (hhigh : s < memorySize) : InStack (Memory.get m .sp - 1).toNat ∧ InStack (Memory.get m .sp - 1 - 1).toNat := by
  obtain ⟨-, e₁, e₂⟩ := operand_cells hsp hlow hhigh
  rw [e₁, e₂]
  exact ⟨⟨by omega, by omega⟩, by omega, by omega⟩

/-- The operands: the left one lies below the right one. -/
theorem operands_eq {m : Memory} (hsp : Memory.get m .sp = BitVec.ofNat 16 s) (hlow : stackBase + 2 ≤ s)
    (hhigh : s < memorySize) : Memory.top (Memory.drop m) = m (s - 2) ∧ Memory.top m = m (s - 1) := by
  obtain ⟨-, e₁, e₂⟩ := operand_cells hsp hlow hhigh
  have hne : s - 2 ≠ Predefined.sp.address := e₂ ▸ (inStack_operands hsp hlow hhigh).2.ne_address (by decide)
  constructor
  · rw [Memory.top, Memory.get_drop, e₂, Memory.drop, Memory.set, store_of_ne _ hne]
  · rw [Memory.top, e₁]

/-- The code of a comparison leaves its answer in the place of its operands, from any
    state, and changes no other cell. -/
theorem run_compare
    (ha : Assembler.assemble (Statement.write (before ++ Fragment.compare number c ++ after)) = .ok asm)
    (hd : Assembler.drift before = 0) (hplace : Assembler.size before + 11 < 65536) (hpc : p.pc = Assembler.size before)
    (hsp : Memory.get p.memory .sp = BitVec.ofNat 16 s) (hlow : stackBase + 2 ≤ s) (hhigh : s < memorySize) :
    ∃ q, Reaches asm.orders p q ∧ q.pc = Assembler.size (before ++ Fragment.compare number c) ∧
      Memory.get q.memory .sp = BitVec.ofNat 16 (s - 1) ∧
      q.memory (s - 2) = truth (c.holds (p.memory (s - 2)) (p.memory (s - 1))) ∧
      ∀ cell, cell ≠ Predefined.sp.address → cell ≠ s - 2 → q.memory cell = p.memory cell := by
  have hsound := Fragment.sound_compare number c
  have hcode := codeAt_of_assemble ha hsound
  obtain ⟨hholds, hdone⟩ := Fragment.values_compare ha hd
  obtain ⟨hone, -, e₂⟩ := operand_cells hsp hlow hhigh
  obtain ⟨hin₁, hin₂⟩ := inStack_operands hsp hlow hhigh
  rw [← hpc] at hcode hholds hdone hplace
  obtain ⟨q, hq, hto, hm⟩ := Fragment.reaches_compare hcode hholds hdone hplace hin₁ hin₂
  have hsize : Assembler.size (before ++ Fragment.compare number c) = p.pc + (asm.link (Fragment.compare number c)).length := by
    rw [Assembler.size_append, Assembler.size_of_sound hsound, Assembled.length_link, hpc]
  have hne : s - 2 ≠ Predefined.sp.address := e₂ ▸ hin₂.ne_address (by decide)
  obtain ⟨hleft, hright⟩ := operands_eq hsp hlow hhigh
  rw [hleft, hright, Memory.replaceTop, Memory.get_drop, e₂] at hm
  refine ⟨q, hq, hto.trans hsize.symm, ?_, ?_, ?_⟩
  · rw [← hone, ← Memory.get_drop, hm]
    exact store_of_ne _ hne.symm _
  · rw [hm, store_self]
  · intro cell hcell hother
    rw [hm, store_of_ne _ hother]
    exact store_of_ne _ hcell _

/-- The code of a comparison compares its operands as numbers with a sign, unless it tells
    their order by a difference that wraps: then it leaves the opposite answer. -/
theorem comparison_signed_unless_wraps
    (ha : Assembler.assemble (Statement.write (before ++ Fragment.compare number c ++ after)) = .ok asm)
    (hd : Assembler.drift before = 0) (hplace : Assembler.size before + 11 < 65536) (hpc : p.pc = Assembler.size before)
    (hsp : Memory.get p.memory .sp = BitVec.ofNat 16 s) (hlow : stackBase + 2 ≤ s) (hhigh : s < memorySize) :
    ∃ q, Reaches asm.orders p q ∧ q.pc = Assembler.size (before ++ Fragment.compare number c) ∧
      Memory.get q.memory .sp = BitVec.ofNat 16 (s - 1) ∧
      (c = .eq ∨ DifferenceFits (p.memory (s - 2)) (p.memory (s - 1)) →
        q.memory (s - 2) = truth (c.relates (p.memory (s - 2)).toInt (p.memory (s - 1)).toInt)) ∧
      (¬ (c = .eq ∨ DifferenceFits (p.memory (s - 2)) (p.memory (s - 1))) →
        q.memory (s - 2) = truth (!c.relates (p.memory (s - 2)).toInt (p.memory (s - 1)).toInt)) ∧
      ∀ cell, cell ≠ Predefined.sp.address → cell ≠ s - 2 → q.memory cell = p.memory cell := by
  obtain ⟨q, hq, hto, hpointer, hanswer, hrest⟩ := run_compare ha hd hplace hpc hsp hlow hhigh
  rw [c.holds_eq] at hanswer
  refine ⟨q, hq, hto, hpointer, fun h => ?_, fun h => ?_, hrest⟩
  · rw [hanswer, if_pos h]
  · rw [hanswer, if_neg h]

/-- So do `eq`, `gt` and `lt` in a complete program: this is the code of their instructions. -/
theorem instruction_compares {options : Options} {units : List SourceUnit} (h : Complete options units)
    (ha : Assembler.assemble (translate options units).text = .ok asm) {k : Nat} {pl : Placed}
    (hk : (listing options units)[k]? = some pl) (hi : pl.instruction = .operation (.compare c))
    (hplace : place options units k + 11 < 65536) (hpc : p.pc = place options units k)
    (hsp : Memory.get p.memory .sp = BitVec.ofNat 16 s) (hlow : stackBase + 2 ≤ s) (hhigh : s < memorySize) :
    ∃ q, Reaches asm.orders p q ∧ q.pc = place options units (k + 1) ∧
      Memory.get q.memory .sp = BitVec.ofNat 16 (s - 1) ∧
      q.memory (s - 2) = truth (if c = .eq ∨ DifferenceFits (p.memory (s - 2)) (p.memory (s - 1))
        then c.relates (p.memory (s - 2)).toInt (p.memory (s - 1)).toInt
        else !c.relates (p.memory (s - 2)).toInt (p.memory (s - 1)).toInt) ∧
      ∀ cell, cell ≠ Predefined.sp.address → cell ≠ s - 2 → q.memory cell = p.memory cell := by
  obtain ⟨before, after, hw, hbefore⟩ := written_eq_append h hk
  have hsound : ∀ t ∈ before, t.Sound := by
    intro t ht
    apply h.sound_written
    rw [hw]
    exact List.mem_append_left _ (List.mem_append_left _ ht)
  have hcode := code_of_compare h hk hi
  have hnext : place options units (k + 1) = Assembler.size (before ++ pl.code) := by
    rw [place_succ h hk, ← hbefore, Assembler.size_append]
  rw [Run.text, hw, hcode] at ha
  rw [← hbefore] at hplace hpc
  rw [hnext, hcode, ← c.holds_eq]
  exact run_compare ha (Assembler.drift_of_sound hsound) hplace hpc hsp hlow hhigh

end Programs

/-! ## Programs -/

def bare : Options := { bootstrap := false, annotate := false }

/-- Asks whether 32767 is more than -1. -/
def descending : SourceUnit := ⟨"A", "push constant 32767\npush constant 1\nneg\ngt\n"⟩

def descendingOperands : List Statement :=
  Fragment.pushNumber 32767 ++ Fragment.pushNumber 1 ++ Fragment.unary .neg

theorem written_descending :
    (translate bare [descending]).written = descendingOperands ++ Fragment.compare 0 .gt ++ Fragment.halt := by
  decide +kernel

theorem assembled_descending : ∃ asm, Assembler.assemble (translate bare [descending]).text = .ok asm := by
  have hok : (translate bare [descending]).outcome = .ok ⟨1, 4, 34⟩ := by decide +kernel
  exact assemble_written (accepted_of_ok hok) (by decide +kernel) (Options.legible_entryLoad fun h => by cases h)
    (by decide +kernel)

theorem placed_descending : Assembler.drift descendingOperands = 0 ∧ Assembler.size descendingOperands + 11 < 65536 := by
  decide +kernel

/-- 5 is more than -3. -/
theorem comparison_signed_descending :
    (translate bare [descending]).written = descendingOperands ++ Fragment.compare 0 .gt ++ Fragment.halt ∧
      ∃ asm p q, Assembler.assemble (translate bare [descending]).text = .ok asm ∧
        p.pc = Assembler.size descendingOperands ∧ Memory.get p.memory .sp = BitVec.ofNat 16 258 ∧
        (p.memory 256).toInt = 5 ∧ (p.memory 257).toInt = -3 ∧ Reaches asm.orders p q ∧
        q.pc = Assembler.size (descendingOperands ++ Fragment.compare 0 .gt) ∧ q.memory 256 = -1 := by
  obtain ⟨asm, ha⟩ := assembled_descending
  have hcode := ha
  rw [Run.text, written_descending] at hcode
  obtain ⟨m, hm⟩ : ∃ m : Memory, m = fun c => if c = 0 then 258 else if c = 256 then 5 else -3 := ⟨_, rfl⟩
  obtain ⟨q, hq, hto, -, hanswer, -, -⟩ := @comparison_signed_unless_wraps descendingOperands Fragment.halt 0 .gt asm
    ⟨Assembler.size descendingOperands, 0, 0, m⟩ 258 hcode placed_descending.1 placed_descending.2 rfl (by rw [hm]; rfl)
    (by decide) (by decide)
  refine ⟨written_descending, asm, ⟨Assembler.size descendingOperands, 0, 0, m⟩, q, ha, rfl, ?_, ?_, ?_, hq, hto, ?_⟩
  · rw [hm]
    rfl
  · rw [hm]
    rfl
  · rw [hm]
    rfl
  · rw [hm] at hanswer
    exact hanswer (by decide)

def faraway : SourceUnit := ⟨"A", "label L\ngoto L\nfunction F 16381\neq\n"⟩

def farawayLines (locals : Nat) : List SourceLine :=
  [⟨.label "L", 1, "label L"⟩, ⟨.goto "L", 2, "goto L"⟩, ⟨.function "F" locals, 3, "function F 16381"⟩,
    ⟨.operation (.compare .eq), 4, "eq"⟩]

def farawayLoop : List Statement :=
  .label (.label "null" "L") :: Fragment.goto (.label "null" "L")

theorem emitted_farawayLines (locals : Nat) :
    (({} : Scope).placeUnits [("A", farawayLines locals)]).flatMap (Placed.emitted bare) =
      farawayLoop ++ Fragment.function "F" locals ++ Fragment.compare 0 .eq := by
  have hlabel : Name.labelFault? "L" = none := by decide +kernel
  have hprocedure : Name.procedureFault? "F" = none := by decide +kernel
  simp [farawayLines, bare, Scope.placeUnits, Scope.place, Placed.emitted, Placed.code, Session.remark, Placed.instruction,
    Instruction.code, Instruction.named, hlabel, hprocedure, Except.toOption, farawayLoop]
  exact ⟨rfl, rfl⟩

theorem accepted_faraway : Accepted bare [faraway] := by
  have hok : (translate bare [faraway]).outcome.toOption.isSome = true := by decide +kernel
  cases h : (translate bare [faraway]).outcome with
  | ok summary => exact accepted_of_ok h
  | error e =>
    rw [h] at hok
    cases hok

theorem written_faraway :
    (translate bare [faraway]).written =
      farawayLoop ++ Fragment.function "F" 16381 ++ Fragment.compare 0 .eq ++ Fragment.halt := by
  have hlines : faraway.lines = .ok (farawayLines 16381) := by decide +kernel
  have hread : faraway.readLines = farawayLines 16381 := by
    rw [SourceUnit.readLines, hlines]
    rfl
  have hscope : bare.startScope = {} := rfl
  have hopening : bare.opening = [] := rfl
  have hclosing : bare.closing = Fragment.halt := rfl
  rw [accepted_faraway.written, listing, List.map_singleton, hread, hscope, hopening, hclosing, ← emitted_farawayLines]
  rfl

theorem assembled_faraway : ∃ asm, Assembler.assemble (translate bare [faraway]).text = .ok asm := by
  refine assemble_written accepted_faraway (by decide +kernel) (Options.legible_entryLoad fun h => by cases h) ?_
  rw [written_faraway]
  simp only [List.filterMap_append, Fragment.symbol?_function]
  decide +kernel

theorem sound_farawayCode :
    (∀ t ∈ farawayLoop, t.Sound) ∧ ∀ t ∈ Fragment.function "F" 16381, t.Sound := by
  have hlabel : Name.IsLabel "L" := by
    unfold Name.IsLabel
    decide +kernel
  have hprocedure : Name.IsProcedure "F" := by
    unfold Name.IsProcedure
    decide +kernel
  have hnull : Name.IsProcedure "null" := by
    unfold Name.IsProcedure
    decide +kernel
  refine ⟨?_, Fragment.sound_function hprocedure 16381⟩
  simp [farawayLoop, Fragment.goto, Symbol.Sound, hlabel, hnull]

/-- The place of a label behind the last place of 16 bits is loaded as another: words that
    are equal lead back to the start of the program, into its loop. -/
theorem parked_faraway {asm : Assembled} (ha : Assembler.assemble (translate bare [faraway]).text = .ok asm) {p : Processor}
    (hpc : p.pc = Assembler.size (farawayLoop ++ Fragment.function "F" 16381))
    (hsp : Memory.get p.memory .sp = BitVec.ofNat 16 258) (hsame : p.memory 256 = p.memory 257) :
    ∃ q, run asm.orders 7 p = some q ∧ Parked asm.orders 0 q := by
  rw [Run.text, written_faraway] at ha
  obtain ⟨hloop, hfunction⟩ := sound_farawayCode
  have hbefore := Statement.sound_append.mpr ⟨hloop, hfunction⟩
  have hsize : Assembler.size (farawayLoop ++ Fragment.function "F" 16381) = 65526 := by
    rw [Assembler.size_of_sound hbefore, List.countP_append, Fragment.countP_function]
    rfl
  obtain ⟨hholds, -⟩ := Fragment.values_compare ha (Assembler.drift_of_sound hbefore)
  obtain ⟨hin₁, hin₂⟩ := inStack_operands hsp (by decide) (by decide)
  have hcode := codeAt_of_assemble ha (Fragment.sound_compare 0 .eq)
  rw [← hpc] at hcode
  have hrun := Fragment.run_difference hcode hin₁ hin₂
  obtain ⟨hleft, hright⟩ := operands_eq hsp (by decide) (by decide)
  have hequal : Comparison.eq.holds (p.memory 256) (p.memory 257) = true := by
    rw [hsame, Comparison.holds, BitVec.sub_self]
    rfl
  rw [hleft, hright, hequal, if_pos rfl, hholds, hsize] at hrun
  have hstart : farawayLoop ++ Fragment.function "F" 16381 ++ Fragment.compare 0 .eq ++ Fragment.halt =
      [] ++ farawayLoop ++ (Fragment.function "F" 16381 ++ (Fragment.compare 0 .eq ++ Fragment.halt)) := by
    simp only [List.append_assoc, List.nil_append]
  rw [hstart] at ha
  have hnone : Assembler.size [] = 0 := rfl
  have hlabel : asm.value (.label "null" "L") = 0 :=
    @value_of_split [] _ asm farawayLoop [] _ _ ha rfl hloop rfl (by intro _ e; cases e)
  have hcycle := codeAt_of_assemble ha hloop
  rw [hnone, farawayLoop, Assembled.link_label, Fragment.goto, Assembled.link_load, hlabel] at hcycle
  exact ⟨_, hrun, parked_of_inLoop hcycle (by decide) (.inl rfl)⟩

/-- Two comparisons that go wrong: 32767 is not told to be more than -1, and code behind
    the last place of 16 bits does not compare at all. -/
theorem comparison_goes_wrong :
    ((translate bare [descending]).written = descendingOperands ++ Fragment.compare 0 .gt ++ Fragment.halt ∧
      ∃ asm p q, Assembler.assemble (translate bare [descending]).text = .ok asm ∧
        p.pc = Assembler.size descendingOperands ∧ Memory.get p.memory .sp = BitVec.ofNat 16 258 ∧
        (p.memory 257).toInt < (p.memory 256).toInt ∧ Reaches asm.orders p q ∧
        q.pc = Assembler.size (descendingOperands ++ Fragment.compare 0 .gt) ∧ q.memory 256 = 0) ∧
    (translate bare [faraway]).written =
        farawayLoop ++ Fragment.function "F" 16381 ++ Fragment.compare 0 .eq ++ Fragment.halt ∧
      ∃ asm, Assembler.assemble (translate bare [faraway]).text = .ok asm ∧
        ∀ p : Processor, p.pc = Assembler.size (farawayLoop ++ Fragment.function "F" 16381) →
          Memory.get p.memory .sp = BitVec.ofNat 16 258 → p.memory 256 = p.memory 257 →
          ∃ q, run asm.orders 7 p = some q ∧ Parked asm.orders 0 q := by
  refine ⟨⟨written_descending, ?_⟩, written_faraway, ?_⟩
  · obtain ⟨asm, ha⟩ := assembled_descending
    have hcode := ha
    rw [Run.text, written_descending] at hcode
    obtain ⟨m, hm⟩ : ∃ m : Memory, m = fun c => if c = 0 then 258 else if c = 256 then 32767 else -1 := ⟨_, rfl⟩
    obtain ⟨q, hq, hto, -, hanswer, -⟩ := @run_compare descendingOperands Fragment.halt 0 .gt asm
      ⟨Assembler.size descendingOperands, 0, 0, m⟩ 258 hcode placed_descending.1 placed_descending.2 rfl (by rw [hm]; rfl)
      (by decide) (by decide)
    refine ⟨asm, ⟨Assembler.size descendingOperands, 0, 0, m⟩, q, ha, rfl, ?_, ?_, hq, hto, ?_⟩
    · rw [hm]
      rfl
    · rw [hm]
      decide
    · rw [hanswer, hm]
      rfl
  · obtain ⟨asm, ha⟩ := assembled_faraway
    exact ⟨asm, ha, fun p => parked_faraway ha⟩

end StackToHack
