/-
  StackToHack.Proofs.Sources — the reader against the grammar, line by line.

  A source is judged by what each of its lines holds, `SourceUnit.Holds`: the text that the
  comment and the blanks around leave, if any. Whether a text is an instruction, and which,
  is `Writes`. Lines are read one by one, so the result lists those that hold something
  and the error, if there is one, is that of the first line outside the grammar.
  - `mem_lines_iff`, `pairwise_lines`: which lines a source that is read gives.
  - `first_of_lines_error`: the line that is blamed for a source that is not.
  - `reader_accepts_grammar`: both together.
-/

import StackToHack.Proofs.Grammar

namespace StackToHack

def Writes (text : String) (i : Instruction) : Prop :=
  ∃ words, Text.Spells text.toList words ∧ Grammar words i

theorem writes_iff {text : String} {i : Instruction} :
    Writes text i ↔ Instruction.ofWords (Text.words text.toList) = .ok i := by
  rw [Instruction.ofWords_eq_ok_iff]
  constructor
  · rintro ⟨words, hs, hg⟩
    rwa [Text.words_eq_iff.mpr hs]
  · intro hg
    exact ⟨_, Text.words_eq_iff.mp rfl, hg⟩

theorem Writes.unique {text : String} {i j : Instruction} (hi : Writes text i) (hj : Writes text j) : i = j :=
  Except.ok.inj ((writes_iff.mp hi).symm.trans (writes_iff.mp hj))

def Unreadable (text : String) : Prop :=
  ∀ i, ¬ Writes text i

theorem unreadable_iff {text : String} :
    Unreadable text ↔ ∃ fault, Instruction.ofWords (Text.words text.toList) = .error fault := by
  simp only [Unreadable, writes_iff]
  cases Instruction.ofWords (Text.words text.toList) <;> simp

/-! ## One line -/

namespace SourceLine

/-- What a line is read as, by the text that remains of it. -/
theorem read?_of_remains {raw : List Char} {text : String} (h : Text.trim (Text.beforeComment raw) = text.toList)
    (unit : String) (number : Nat) :
    read? unit number raw = if text = "" then .ok none
      else match Instruction.ofWords (Text.words text.toList) with
        | .ok i => .ok (some ⟨i, number, text⟩)
        | .error fault => .error (.instruction ⟨unit, number, text⟩ fault) := by
  have hempty : text.toList.isEmpty = true ↔ text = "" := by simp
  rw [read?, h, String.ofList_toList]
  exact if_congr hempty rfl rfl

theorem exists_remains (raw : List Char) : ∃ text : String, Text.trim (Text.beforeComment raw) = text.toList :=
  ⟨String.ofList _, String.toList_ofList.symm⟩

theorem read?_eq_some_iff {unit : String} {number : Nat} {raw : List Char} {l : SourceLine} :
    read? unit number raw = .ok (some l) ↔
      l.line = number ∧ Text.trim (Text.beforeComment raw) = l.text.toList ∧ l.text ≠ "" ∧ Writes l.text l.instruction := by
  rw [writes_iff]
  constructor
  · intro h
    obtain ⟨text, ht⟩ := exists_remains raw
    rw [read?_of_remains ht] at h
    split at h
    · cases h
    · rename_i hne
      split at h
      · rename_i i hw
        cases h
        exact ⟨rfl, ht, hne, hw⟩
      · cases h
  · rintro ⟨rfl, ht, hne, hw⟩
    rw [read?_of_remains ht, if_neg hne, hw]

/-- A line that is read holds nothing unreadable. -/
theorem not_unreadable_of_read? {unit : String} {number : Nat} {raw : List Char} {line? : Option SourceLine}
    {text : String} (h : read? unit number raw = .ok line?) (ht : Text.trim (Text.beforeComment raw) = text.toList)
    (hne : text ≠ "") : ¬ Unreadable text := by
  rw [unreadable_iff]
  rintro ⟨fault, hw⟩
  rw [read?_of_remains ht, if_neg hne, hw] at h
  cases h

theorem read?_eq_error {unit : String} {number : Nat} {raw : List Char} {e : Error}
    (h : read? unit number raw = .error e) :
    ∃ text fault, Text.trim (Text.beforeComment raw) = text.toList ∧ text ≠ "" ∧
      Instruction.ofWords (Text.words text.toList) = .error fault ∧ e = .instruction ⟨unit, number, text⟩ fault := by
  obtain ⟨text, ht⟩ := exists_remains raw
  rw [read?_of_remains ht] at h
  split at h
  · cases h
  · rename_i hne
    split at h
    · cases h
    · rename_i fault hw
      cases h
      exact ⟨text, fault, ht, hne, hw, rfl⟩

end SourceLine

/-! ## All lines -/

namespace SourceUnit

section Numbered

variable {unit : String} {number : Nat} {raws : List (List Char)} {ls : List SourceLine}

theorem readFrom_cons {raw : List Char} (h : readFrom unit number (raw :: raws) = .ok ls) :
    ∃ line? others, SourceLine.read? unit number raw = .ok line? ∧ readFrom unit (number + 1) raws = .ok others ∧
      ls = line?.toList ++ others := by
  unfold readFrom at h
  split at h
  · cases h
  · rename_i line? hline
    split at h
    · cases h
    · rename_i others hothers
      exact ⟨line?, others, hline, hothers, (Except.ok.inj h).symm⟩

theorem mem_readFrom_iff (h : readFrom unit number raws = .ok ls) {l : SourceLine} :
    l ∈ ls ↔ ∃ k raw, raws[k]? = some raw ∧ SourceLine.read? unit (number + k) raw = .ok (some l) := by
  induction raws generalizing number ls with
  | nil =>
    cases h
    simp
  | cons raw raws ih =>
    obtain ⟨line?, others, hline, hothers, rfl⟩ := readFrom_cons h
    rw [List.mem_append, ih hothers, Option.mem_toList]
    constructor
    · rintro (rfl | ⟨k, raw', hraw, hread⟩)
      · exact ⟨0, raw, rfl, hline⟩
      · refine ⟨k + 1, raw', hraw, ?_⟩
        rwa [Nat.add_assoc, Nat.add_comm 1 k] at hread
    · rintro ⟨k, raw', hraw, hread⟩
      cases k with
      | zero =>
        obtain rfl := Option.some.inj hraw
        exact .inl (Except.ok.inj (hline.symm.trans hread))
      | succ k =>
        refine .inr ⟨k, raw', hraw, ?_⟩
        rwa [Nat.add_assoc, Nat.add_comm 1 k]

/-- Lines are numbered upward. -/
theorem pairwise_readFrom (h : readFrom unit number raws = .ok ls) : (ls.map (·.line)).Pairwise (· < ·) := by
  induction raws generalizing number ls with
  | nil =>
    cases h
    exact .nil
  | cons raw raws ih =>
    obtain ⟨line?, others, hline, hothers, rfl⟩ := readFrom_cons h
    cases line? with
    | none => exact ih hothers
    | some l =>
      refine List.pairwise_cons.mpr ⟨fun n hn => ?_, ih hothers⟩
      obtain ⟨l', hl', rfl⟩ := List.mem_map.mp hn
      obtain ⟨k, raw', -, hread⟩ := (mem_readFrom_iff hothers).mp hl'
      show l.line < l'.line
      rw [(SourceLine.read?_eq_some_iff.mp hline).1, (SourceLine.read?_eq_some_iff.mp hread).1]
      omega

theorem read?_of_readFrom (h : readFrom unit number raws = .ok ls) {k : Nat} {raw : List Char}
    (hraw : raws[k]? = some raw) : ∃ line?, SourceLine.read? unit (number + k) raw = .ok line? := by
  induction raws generalizing number ls k with
  | nil => simp at hraw
  | cons first raws ih =>
    obtain ⟨line?, others, hline, hothers, -⟩ := readFrom_cons h
    cases k with
    | zero =>
      obtain rfl := Option.some.inj hraw
      exact ⟨line?, hline⟩
    | succ k =>
      have hrest := ih hothers hraw
      rwa [Nat.add_assoc, Nat.add_comm 1 k] at hrest

/-- The error is that of a line before which all could be read. -/
theorem readFrom_eq_error {e : Error} (h : readFrom unit number raws = .error e) :
    ∃ k raw, raws[k]? = some raw ∧ SourceLine.read? unit (number + k) raw = .error e ∧
      ∀ j < k, ∀ raw', raws[j]? = some raw' → ∃ line?, SourceLine.read? unit (number + j) raw' = .ok line? := by
  induction raws generalizing number with
  | nil => cases h
  | cons raw raws ih =>
    unfold readFrom at h
    split at h
    · rename_i e' hline
      obtain rfl := Except.error.inj h
      exact ⟨0, raw, rfl, hline, fun j hj => absurd hj (Nat.not_lt_zero j)⟩
    · rename_i line? hline
      split at h
      · rename_i e' hothers
        obtain rfl := Except.error.inj h
        obtain ⟨k, raw', hraw, hread, hbefore⟩ := ih hothers
        refine ⟨k + 1, raw', hraw, ?_, fun j hj raw'' hraw' => ?_⟩
        · rwa [Nat.add_assoc, Nat.add_comm 1 k] at hread
        · cases j with
          | zero =>
            obtain rfl := Option.some.inj hraw'
            exact ⟨line?, hline⟩
          | succ j =>
            have := hbefore j (Nat.lt_of_succ_lt_succ hj) raw'' hraw'
            rwa [Nat.add_assoc, Nat.add_comm 1 j] at this
      · cases h

end Numbered

/-- Line `n` of the source, counted from 1, holds the text: the comment and the blanks
    around leave it, and it is not empty. -/
def Holds (u : SourceUnit) (n : Nat) (text : String) : Prop :=
  ∃ raws k raw, Text.IsLines u.source.toList raws ∧ raws[k]? = some raw ∧ n = k + 1 ∧
    Text.Remains raw text.toList ∧ text ≠ ""

structure First (u : SourceUnit) (sort : String → Prop) (n : Nat) (text : String) : Prop where
  holds : u.Holds n text
  here : sort text
  before : ∀ m < n, ∀ t, u.Holds m t → ¬ sort t

variable {u : SourceUnit} {ls : List SourceLine}

theorem holds_iff {n : Nat} {text : String} : u.Holds n text ↔ ∃ k raw, (Text.lines u.source.toList)[k]? = some raw ∧
    n = k + 1 ∧ Text.trim (Text.beforeComment raw) = text.toList ∧ text ≠ "" := by
  constructor
  · rintro ⟨raws, k, raw, hl, hraw, hn, hr, hne⟩
    rw [Text.lines_eq_iff.mpr hl]
    exact ⟨k, raw, hraw, hn, Text.remains_iff.mpr hr, hne⟩
  · rintro ⟨k, raw, hraw, hn, hr, hne⟩
    exact ⟨_, k, raw, Text.lines_eq_iff.mp rfl, hraw, hn, Text.remains_iff.mp hr, hne⟩

theorem Holds.unique {n : Nat} {text text' : String} (h : u.Holds n text) (h' : u.Holds n text') : text = text' := by
  obtain ⟨k, raw, hraw, rfl, ht, -⟩ := holds_iff.mp h
  obtain ⟨k', raw', hraw', hk, ht', -⟩ := holds_iff.mp h'
  obtain rfl := Nat.succ.inj hk
  obtain rfl := Option.some.inj (hraw.symm.trans hraw')
  exact String.toList_inj.mp (ht.symm.trans ht')

theorem First.unique {sort : String → Prop} {n n' : Nat} {text text' : String} (h : u.First sort n text)
    (h' : u.First sort n' text') : n = n' ∧ text = text' := by
  have hle : ¬ n' < n := fun hlt => h.before _ hlt _ h'.holds h'.here
  have hge : ¬ n < n' := fun hlt => h'.before _ hlt _ h.holds h.here
  obtain rfl : n = n' := by omega
  exact ⟨rfl, h.holds.unique h'.holds⟩

theorem mem_lines_iff (h : u.lines = .ok ls) {l : SourceLine} :
    l ∈ ls ↔ u.Holds l.line l.text ∧ Writes l.text l.instruction := by
  rw [mem_readFrom_iff h, holds_iff]
  simp only [SourceLine.read?_eq_some_iff]
  constructor
  · rintro ⟨k, raw, hraw, hn, ht, hne, hw⟩
    exact ⟨⟨k, raw, hraw, by rw [hn, Nat.add_comm], ht, hne⟩, hw⟩
  · rintro ⟨⟨k, raw, hraw, hn, ht, hne⟩, hw⟩
    exact ⟨k, raw, hraw, by rw [hn, Nat.add_comm], ht, hne, hw⟩

theorem pairwise_lines (h : u.lines = .ok ls) : (ls.map (·.line)).Pairwise (· < ·) :=
  pairwise_readFrom h

/-- A source that cannot be read is blamed on its first unreadable line. -/
theorem first_of_lines_error {e : Error} (h : u.lines = .error e) :
    ∃ n text fault, e = .instruction ⟨u.name, n, text⟩ fault ∧ u.First Unreadable n text ∧
      Instruction.ofWords (Text.words text.toList) = .error fault := by
  obtain ⟨k, raw, hraw, hread, hbefore⟩ := readFrom_eq_error h
  obtain ⟨text, fault, ht, hne, hw, rfl⟩ := SourceLine.read?_eq_error hread
  refine ⟨1 + k, text, fault, rfl, ⟨?_, unreadable_iff.mpr ⟨fault, hw⟩, fun m hm t hholds => ?_⟩, hw⟩
  · exact holds_iff.mpr ⟨k, raw, hraw, Nat.add_comm 1 k, ht, hne⟩
  · obtain ⟨j, raw', hraw', rfl, ht', hne'⟩ := holds_iff.mp hholds
    obtain ⟨line?, hline⟩ := hbefore j (by omega) raw' hraw'
    exact SourceLine.not_unreadable_of_read? hline ht' hne'

/-- A source is read if each of its lines can be. -/
theorem lines_isOk_iff : (∃ ls, u.lines = .ok ls) ↔ ∀ n text, u.Holds n text → ∃ i, Writes text i := by
  constructor
  · rintro ⟨ls, h⟩ n text hholds
    obtain ⟨k, raw, hraw, rfl, ht, hne⟩ := holds_iff.mp hholds
    obtain ⟨line?, hline⟩ := read?_of_readFrom h hraw
    by_contra hno
    exact SourceLine.not_unreadable_of_read? hline ht hne fun i hi => hno ⟨i, hi⟩
  · intro hall
    cases h : u.lines with
    | ok ls => exact ⟨ls, rfl⟩
    | error e =>
      obtain ⟨n, text, fault, -, hfirst, -⟩ := first_of_lines_error h
      obtain ⟨i, hi⟩ := hall n text hfirst.holds
      exact absurd hi (hfirst.here i)

end SourceUnit

/-- A source is read just if every line that holds something holds an instruction of the
    grammar. The result then lists these lines upward, each with its number, its text and
    the instruction that the text writes. Otherwise the error names the first line outside
    the grammar by unit, number and text, and is of the sort that its words call for. -/
theorem reader_accepts_grammar (u : SourceUnit) :
    ((∃ ls, u.lines = .ok ls) ↔ ∀ n text, u.Holds n text → ∃ i, Writes text i) ∧
      (∀ ls, u.lines = .ok ls → (ls.map (·.line)).Pairwise (· < ·) ∧
        ∀ l, l ∈ ls ↔ u.Holds l.line l.text ∧ Writes l.text l.instruction) ∧
      ∀ e, u.lines = .error e → ∃ n text fault, e = .instruction ⟨u.name, n, text⟩ fault ∧
        u.First Unreadable n text ∧ ∀ words, Text.Spells text.toList words → Instruction.Blames words fault := by
  refine ⟨SourceUnit.lines_isOk_iff, fun ls h => ⟨SourceUnit.pairwise_lines h, fun l => SourceUnit.mem_lines_iff h⟩, ?_⟩
  intro e h
  obtain ⟨n, text, fault, he, hfirst, hfault⟩ := SourceUnit.first_of_lines_error h
  refine ⟨n, text, fault, he, hfirst, fun words hwords => ?_⟩
  rw [Text.words_eq_iff.mpr hwords] at hfault
  exact Instruction.blames_of_ofWords hfault

def commented : SourceUnit := ⟨"A", "// start\n  push constant 007 // seven\n\t\r\nfunction F\t0\n"⟩

/-- Two lines that cannot be read, the first of them with two things wrong, behind one that
    can. -/
def spoiled : SourceUnit := ⟨"A", "add\n\npush bogus x // no segment\nmul\n"⟩

theorem reader_accepts_grammar_commented :
    (∃ ls, commented.lines = .ok ls ∧ ⟨.push .constant 7, 2, "push constant 007"⟩ ∈ ls) ∧
      commented.Holds 2 "push constant 007" ∧ Writes "push constant 007" (.push .constant 7) ∧
      (∃ fault, spoiled.lines = .error (.instruction ⟨"A", 3, "push bogus x"⟩ fault) ∧ fault.category = .segment) ∧
      spoiled.First Unreadable 3 "push bogus x" ∧ Instruction.BadSegment ["push", "bogus", "x"] := by
  have hok : commented.lines = .ok [⟨.push .constant 7, 2, "push constant 007"⟩, ⟨.function "F" 0, 4, "function F\t0"⟩] := by
    decide +kernel
  have herror : spoiled.lines = .error (.instruction ⟨"A", 3, "push bogus x"⟩ (.unknownSegment "bogus")) := by
    decide +kernel
  have hspells : Text.Spells "push bogus x".toList ["push", "bogus", "x"] := Text.words_eq_iff.mp (by decide +kernel)
  obtain ⟨hholds, hwrites⟩ := (((reader_accepts_grammar commented).2.1 _ hok).2 _).mp List.mem_cons_self
  obtain ⟨n, text, fault, he, hfirst, hblames⟩ := (reader_accepts_grammar spoiled).2.2 _ herror
  cases he
  exact ⟨⟨_, hok, List.mem_cons_self⟩, hholds, hwrites, ⟨_, herror, rfl⟩, hfirst, (hblames _ hspells).2.mp rfl⟩

end StackToHack
