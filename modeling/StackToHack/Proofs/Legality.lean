/-
  StackToHack.Proofs.Legality — what is left to check when a line has been read.

  The reader and the translation check instructions apart from each other. Most rules are
  checked twice: names, constants, the pop into constants. The bounds of the segments
  `pointer` and `temp` are checked by the translation alone, `Instruction.rangeFault?`, and
  of an instruction that was read they are all that it can object to.
  - `code_eq_error_iff`: the faults of readable instructions, in every scope.
  - `line_eq_error_iff`: the answer to such an instruction, in every session.
-/

import StackToHack.Proofs.Listing

namespace StackToHack

namespace Instruction

/-! ## The bounds -/

/-- The instruction pushes or pops a cell behind the last one of `pointer` or `temp`. -/
def OutOfRange (i : Instruction) : Prop :=
  ∃ segment index, (i = push segment index ∨ i = pop segment index) ∧
    ((segment = .pointer ∧ 1 < index) ∨ (segment = .temp ∧ 7 < index))

def boundFault? (index : Nat) : Segment → Option Fault
  | .pointer => if 1 < index then some (.pointerRange index) else none
  | .temp => if 7 < index then some (.tempRange index) else none
  | _ => none

def rangeFault? : Instruction → Option Fault
  | push segment index => boundFault? index segment
  | pop segment index => boundFault? index segment
  | _ => none

theorem isSome_boundFault? {index : Nat} {segment : Segment} :
    (boundFault? index segment).isSome ↔ (segment = .pointer ∧ 1 < index) ∨ (segment = .temp ∧ 7 < index) := by
  cases segment <;> simp [boundFault?]

theorem outOfRange_iff {i : Instruction} : i.OutOfRange ↔ ∃ fault, i.rangeFault? = some fault := by
  rw [← Option.isSome_iff_exists]
  cases i with
  | push segment index | pop segment index =>
    rw [rangeFault?, isSome_boundFault?]
    simp [OutOfRange]
  | _ => simp [OutOfRange, rangeFault?]

theorem category_boundFault? {index : Nat} {segment : Segment} {fault : Fault}
    (h : boundFault? index segment = some fault) : fault.category = .segment := by
  unfold boundFault? at h
  repeat' split at h
  all_goals cases h
  all_goals rfl

theorem category_rangeFault? {i : Instruction} {fault : Fault} (h : i.rangeFault? = some fault) :
    fault.category = .segment := by
  cases i with
  | push segment index => exact category_boundFault? h
  | pop segment index => exact category_boundFault? h
  | _ => cases h

/-! ## The translation of readable instructions -/

theorem temporary_eq_error_iff {index : Nat} {fault : Fault} :
    Fragment.temporary index = .error fault ↔ boundFault? index .temp = some fault := by
  unfold Fragment.temporary boundFault? tempSize
  by_cases h : index < 8
  · simp [h, Nat.not_lt.mpr (Nat.le_of_lt_succ h)]
  · simp [h, show 7 < index by omega]

theorem basePointer_eq_error_iff {index : Nat} {fault : Fault} :
    Fragment.basePointer index = .error fault ↔ boundFault? index .pointer = some fault := by
  match index with
  | 0 => simp [Fragment.basePointer, boundFault?]
  | 1 => simp [Fragment.basePointer, boundFault?]
  | n + 2 => simp [Fragment.basePointer, boundFault?]

/-- The cell of a segment other than the constants is missing only behind a bound. -/
theorem cell_eq_error_iff {scope : Scope} {index : Nat} {segment : Segment} (h : segment ≠ .constant) {fault : Fault} :
    Fragment.cell scope index segment = .error fault ↔ boundFault? index segment = some fault := by
  cases segment with
  | constant => exact absurd rfl h
  | temp => exact temporary_eq_error_iff
  | pointer => exact basePointer_eq_error_iff
  | _ => simp [Fragment.cell, boundFault?]

theorem named_eq_ok {fault? : String → Option NameFault} {word : String} (h : fault? word = none)
    (code : List Statement) : named fault? word code = .ok code := by
  rw [named, h]

theorem code_eq_error_iff {i : Instruction} (h : i.Readable) (scope : Scope) {fault : Fault} :
    i.code scope = .error fault ↔ i.rangeFault? = some fault := by
  cases i with
  | operation _ | ret => simp [code, rangeFault?]
  | push segment index =>
    by_cases hs : segment = .constant
    · subst hs
      simp [code, Fragment.push, rangeFault?, boundFault?, show index ≤ maxIndex from h]
    · rw [code, rangeFault?, ← cell_eq_error_iff hs, Fragment.push]
      · exact map_eq_error_iff
      · exact hs
  | pop segment index =>
    rw [code, rangeFault?, Fragment.pop, map_eq_error_iff]
    exact cell_eq_error_iff h.1
  | label l | goto l | ifGoto l => simp [code, rangeFault?, named_eq_ok h.1]
  | function f n | call f n => simp [code, rangeFault?, named_eq_ok h.1.1]

end Instruction

/-! ## Lines in a session -/

def SourceLine.rangeError? (unit : String) (l : SourceLine) : Option Error :=
  l.instruction.rangeFault?.map (.instruction ⟨unit, l.line, l.text⟩)

theorem SourceLine.rangeError?_eq_some {unit : String} {l : SourceLine} {e : Error} (h : l.rangeError? unit = some e) :
    ∃ fault, l.instruction.rangeFault? = some fault ∧ e = .instruction ⟨unit, l.line, l.text⟩ fault := by
  obtain ⟨fault, hf, rfl⟩ := Option.map_eq_some_iff.mp h
  exact ⟨fault, hf, rfl⟩

theorem SourceLine.exists_rangeError?_iff {unit : String} {l : SourceLine} :
    (∃ e, l.rangeError? unit = some e) ↔ l.instruction.OutOfRange := by
  simp [rangeError?, Instruction.outOfRange_iff]

theorem Session.line_eq_error_iff {l : SourceLine} (h : l.instruction.Readable) (s : Session) {e : Error} :
    (s.line l).1 = .error e ↔ l.rangeError? s.scope.unit = some e := by
  rw [SourceLine.rangeError?, Option.map_eq_some_iff]
  simp only [← Instruction.code_eq_error_iff h s.scope]
  unfold Session.line
  cases l.instruction.code s.scope with
  | ok code => simp
  | error fault => simp

/-- A line that was read is translated, in whatever state the session is, unless it goes
    behind the end of `pointer` or `temp`. This is an error of the sort `segment`, in the
    session's unit and at the line's own number and text. -/
theorem translates_unless_out_of_range {u : SourceUnit} {ls : List SourceLine} (h : u.lines = .ok ls) {l : SourceLine}
    (hl : l ∈ ls) (s : Session) :
    ((∃ e, (s.line l).1 = .error e) ↔ l.instruction.OutOfRange) ∧
      ∀ e, (s.line l).1 = .error e →
        e.diagnostic.category = "segment" ∧ e.diagnostic.location? = some ⟨s.scope.unit, l.line, l.text⟩ := by
  simp only [s.line_eq_error_iff (SourceUnit.mem_lines_readable h hl)]
  refine ⟨SourceLine.exists_rangeError?_iff, fun e he => ?_⟩
  obtain ⟨fault, hf, rfl⟩ := SourceLine.rangeError?_eq_some he
  refine ⟨?_, rfl⟩
  show fault.category.name = "segment"
  rw [Instruction.category_rangeFault? hf]
  rfl

/-- The first index behind `temp`, read in one unit and translated in another, after a call
    and a comparison, and the last index before it. -/
theorem translates_unless_out_of_range_temp :
    let s := (({} : Session).run [.inUnit "B", .bootstrap, .line ⟨.operation (.compare .eq), 1, "eq"⟩]).2
    (∃ e, (s.line ⟨.pop .temp 8, 2, "pop temp 8"⟩).1 = .error e ∧ e.diagnostic.category = "segment" ∧
        e.diagnostic.location? = some ⟨"B", 2, "pop temp 8"⟩) ∧
      ¬ ∃ e, (s.line ⟨.push .temp 7, 1, "push temp 7"⟩).1 = .error e := by
  intro s
  have hread : (⟨"A", "push temp 7\npop temp 8"⟩ : SourceUnit).lines =
      .ok [⟨.push .temp 7, 1, "push temp 7"⟩, ⟨.pop .temp 8, 2, "pop temp 8"⟩] := by
    decide +kernel
  obtain ⟨hbehind, hplace⟩ := translates_unless_out_of_range hread (List.mem_cons_of_mem _ List.mem_cons_self) s
  obtain ⟨hbefore, -⟩ := translates_unless_out_of_range hread List.mem_cons_self s
  obtain ⟨e, he⟩ := hbehind.mpr ⟨.temp, 8, .inr rfl, .inr ⟨rfl, by decide⟩⟩
  refine ⟨⟨e, he, hplace e he⟩, fun h => ?_⟩
  obtain ⟨segment, index, hi, hs⟩ := hbefore.mp h
  simp_all

end StackToHack
