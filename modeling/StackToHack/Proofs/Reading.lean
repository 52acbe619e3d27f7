/-
  StackToHack.Proofs.Reading — what the reader lets through.

  An instruction that a source can write is `Instruction.Readable`: its index is one the
  machine can load, it does not pop into constants, and its name is an identifier that
  breaks no rule.
  - `ofWords_readable`, `mem_lines_readable`: the reader gives readable instructions only.
  - `notMem_text_of_mem_lines`: the text that a line keeps is one line.
-/

import Mathlib.Data.List.Basic
import StackToHack.Source

namespace StackToHack

theorem bind_eq_ok {ε α β : Type} {x : Except ε α} {f : α → Except ε β} {b : β} (h : (x >>= f) = .ok b) :
    ∃ a, x = .ok a ∧ f a = .ok b := by
  cases x with
  | error e => cases h
  | ok a => exact ⟨a, rfl, h⟩

/-! ## Readable instructions -/

namespace Name

def IsLabel (word : String) : Prop := labelFault? word = none ∧ isIdentifier word = true

def IsProcedure (word : String) : Prop := procedureFault? word = none ∧ isIdentifier word = true

end Name

namespace Instruction

def Readable : Instruction → Prop
  | operation _ => True
  | push _ index => index ≤ maxIndex
  | pop segment index => segment ≠ .constant ∧ index ≤ maxIndex
  | label l => Name.IsLabel l
  | goto l => Name.IsLabel l
  | ifGoto l => Name.IsLabel l
  | function f n => Name.IsProcedure f ∧ n ≤ maxIndex
  | call f n => Name.IsProcedure f ∧ n ≤ maxIndex
  | ret => True

/-! ## Words -/

theorem readIndex_le {word : String} {index : Nat} (h : readIndex word = .ok index) : index ≤ maxIndex := by
  unfold readIndex at h
  split at h
  · split at h
    · rename_i hle
      cases h
      exact hle
    · cases h
  · split at h <;> cases h

theorem readName_ok {fault? : String → Option NameFault} {word name : String} (h : readName fault? word = .ok name) :
    fault? name = none ∧ Name.isIdentifier name = true := by
  unfold readName at h
  split at h
  · cases h
  · rename_i hf
    split at h
    · rename_i hi
      cases h
      exact ⟨hf, hi⟩
    · cases h

theorem ofOperands_readable {k : Keyword} {words : List String} {i : Instruction} (h : ofOperands k words = .ok i) :
    i.Readable := by
  unfold ofOperands at h
  split at h
  · cases h; trivial
  · cases h
  · obtain ⟨s, _, h⟩ := bind_eq_ok h
    obtain ⟨n, hn, h⟩ := bind_eq_ok h
    cases h
    exact readIndex_le hn
  · cases h
  · obtain ⟨s, _, h⟩ := bind_eq_ok h
    split at h
    · cases h
    · rename_i hs
      obtain ⟨n, hn, h⟩ := bind_eq_ok h
      cases h
      exact ⟨hs, readIndex_le hn⟩
  · cases h
  · obtain ⟨l, hl, h⟩ := bind_eq_ok h
    cases h
    exact readName_ok hl
  · cases h
  · obtain ⟨l, hl, h⟩ := bind_eq_ok h
    cases h
    exact readName_ok hl
  · cases h
  · obtain ⟨l, hl, h⟩ := bind_eq_ok h
    cases h
    exact readName_ok hl
  · cases h
  · obtain ⟨f, hf, h⟩ := bind_eq_ok h
    obtain ⟨n, hn, h⟩ := bind_eq_ok h
    cases h
    exact ⟨readName_ok hf, readIndex_le hn⟩
  · cases h
  · obtain ⟨f, hf, h⟩ := bind_eq_ok h
    obtain ⟨n, hn, h⟩ := bind_eq_ok h
    cases h
    exact ⟨readName_ok hf, readIndex_le hn⟩
  · cases h
  · cases h; trivial
  · cases h

theorem ofWords_readable {words : List String} {i : Instruction} (h : ofWords words = .ok i) : i.Readable := by
  unfold ofWords at h
  split at h
  · cases h
  · split at h
    · exact ofOperands_readable h
    · cases h

end Instruction

/-! ## Lines -/

namespace Text

/-- A piece of a longer text is empty, a piece of the rest, or one with the first character in
    front. -/
theorem mem_splitOn_cons {sep c : Char} {cs piece : List Char} (h : piece ∈ (c :: cs).splitOn sep) :
    piece = [] ∨ piece ∈ cs.splitOn sep ∨ c ≠ sep ∧ ∃ first ∈ cs.splitOn sep, piece = c :: first := by
  rw [List.splitOn_eq_splitOnP, List.splitOnP_cons_eq_if_modifyHead] at h
  rw [List.splitOn_eq_splitOnP]
  split at h
  · exact (List.mem_cons.mp h).imp_right .inl
  · rename_i hc
    cases hs : cs.splitOnP (· == sep) with
    | nil => exact absurd hs (List.splitOnP_ne_nil _ _)
    | cons first rest =>
      rw [hs] at h
      rcases List.mem_cons.mp h with rfl | h
      · exact .inr (.inr ⟨by simpa using hc, first, List.mem_cons_self, rfl⟩)
      · exact .inr (.inl (List.mem_cons_of_mem _ h))

/-- No piece holds what the text was cut at. -/
theorem notMem_of_mem_splitOn {sep : Char} {cs piece : List Char} (h : piece ∈ cs.splitOn sep) : sep ∉ piece := by
  induction cs generalizing piece with
  | nil => simp_all
  | cons c cs ih =>
    rcases mem_splitOn_cons h with rfl | hm | ⟨hc, first, hm, rfl⟩
    · exact List.not_mem_nil
    · exact ih hm
    · exact List.not_mem_cons_of_ne_of_not_mem hc.symm (ih hm)

theorem notMem_of_mem_lines {cs piece : List Char} (h : piece ∈ lines cs) : '\n' ∉ piece :=
  notMem_of_mem_splitOn h

theorem sublist_of_mem_lines {cs piece : List Char} (h : piece ∈ lines cs) : piece.Sublist cs := by
  rw [lines] at h
  induction cs generalizing piece with
  | nil =>
    obtain rfl : piece = [] := by simpa using h
    exact List.Sublist.refl _
  | cons c cs ih =>
    rcases mem_splitOn_cons h with rfl | hm | ⟨-, first, hm, rfl⟩
    · exact List.nil_sublist _
    · exact (ih hm).cons c
    · exact (ih hm).cons_cons c

theorem beforeComment_sublist (cs : List Char) : (beforeComment cs).Sublist cs := by
  fun_induction beforeComment cs with
  | case1 => exact List.Sublist.refl _
  | case2 => exact List.nil_sublist _
  | case3 c rest _ ih => exact ih.cons_cons c

theorem trim_sublist (cs : List Char) : (trim cs).Sublist cs := by
  have hend : (trimEnd (cs.dropWhile isBlank)).Sublist (cs.dropWhile isBlank) := by
    rw [trimEnd, ← List.reverse_sublist, List.reverse_reverse]
    exact List.dropWhile_sublist _
  exact hend.trans (List.dropWhile_sublist _)

end Text

namespace SourceUnit

theorem read?_some {unit : String} {number : Nat} {raw : List Char} {l : SourceLine}
    (h : SourceLine.read? unit number raw = .ok (some l)) :
    l.instruction.Readable ∧ l.text.toList ⊆ raw := by
  unfold SourceLine.read? at h
  simp only at h
  split at h
  · cases h
  · split at h
    · rename_i hw
      cases h
      refine ⟨Instruction.ofWords_readable hw, ?_⟩
      simp only [String.toList_ofList]
      exact ((Text.trim_sublist _).trans (Text.beforeComment_sublist raw)).subset
    · cases h

theorem readFrom_mem {unit : String} {number : Nat} {raws : List (List Char)} {ls : List SourceLine} {l : SourceLine}
    (h : readFrom unit number raws = .ok ls) (hl : l ∈ ls) :
    ∃ raw ∈ raws, l.instruction.Readable ∧ l.text.toList ⊆ raw := by
  induction raws generalizing number ls with
  | nil => cases h; cases hl
  | cons raw rest ih =>
    unfold readFrom at h
    split at h
    · cases h
    · rename_i line? hread
      split at h
      · cases h
      · rename_i others hrest
        cases h
        rcases List.mem_append.mp hl with hl | hl
        · cases line? with
          | none => cases hl
          | some l' =>
            obtain rfl := List.mem_singleton.mp hl
            exact ⟨raw, List.mem_cons_self, read?_some hread⟩
        · obtain ⟨raw', hraw, hr⟩ := ih hrest hl
          exact ⟨raw', List.mem_cons_of_mem _ hraw, hr⟩

theorem mem_lines_readable {u : SourceUnit} {ls : List SourceLine} (h : u.lines = .ok ls) {l : SourceLine}
    (hl : l ∈ ls) : l.instruction.Readable := by
  obtain ⟨_, _, hr, _⟩ := readFrom_mem h hl
  exact hr

theorem notMem_text_of_mem_lines {u : SourceUnit} {ls : List SourceLine} (h : u.lines = .ok ls) {l : SourceLine}
    (hl : l ∈ ls) : '\n' ∉ l.text.toList := by
  obtain ⟨raw, hraw, _, ht⟩ := readFrom_mem h hl
  exact fun hn => Text.notMem_of_mem_lines hraw (ht hn)

end SourceUnit

end StackToHack
