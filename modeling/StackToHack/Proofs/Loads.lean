/-
  StackToHack.Proofs.Loads — the numbers that code loads.

  The machine loads numbers of 15 bits, and the assembler takes a symbol for a number if
  it can be read as one. The numbers in code come from the instruction: an index that is
  added to a pointer, a constant, the arguments and the frame of a call, and a procedure
  with a name like a number. Of these the translation bounds the constants alone; the
  reader bounds them all.
  - `Symbol.unsigned?_text_eq_none`: no symbol but a procedure is taken for a number.
  - `Instruction.numbers_code`: the numbers in the code of an instruction.
  - `loads_fit_iff`: when the machine can load them all.
-/

import StackToHack.Proofs.History

namespace StackToHack

/-! ## Numbers in lines -/

namespace Text

def loaded? (line : String) : Option Nat :=
  match line.toList with
  | '@' :: word => unsigned? word
  | _ => none

theorem loaded?_at (word : String) : loaded? ("@" ++ word) = unsigned? word.toList := by
  have e : ("@" ++ word).toList = '@' :: word.toList := by simp
  simp only [loaded?, e]

theorem loaded?_eq_none {line : String} (h : line.toList.head? ≠ some '@') : loaded? line = none := by
  unfold loaded?
  split
  · rename_i e
    rw [e] at h
    exact absurd rfl h
  · rfl

end Text

def Symbol.isProcedure : Symbol → Bool
  | procedure _ => true
  | _ => false

/-- A symbol is taken for a number only if it is a procedure: the others hold a letter, a
    dot or a `$`. -/
theorem Symbol.unsigned?_text_eq_none {s : Symbol} (h : s.isProcedure = false) :
    Text.unsigned? s.text.toList = none := by
  cases s with
  | predefined p =>
    cases p with
    | register n => exact unsigned?_eq_none_of_mem (c := 'R') (by simp [text, Predefined.name]) rfl (by decide)
    | _ => rfl
  | procedure f => cases h
  | label f l => exact unsigned?_eq_none_of_mem (c := '$') (by simp [text]) rfl (by decide)
  | returnAddress f n => exact unsigned?_eq_none_of_mem (c := '$') (by simp [text]) rfl (by decide)
  | holds n => exact unsigned?_eq_none_of_mem (c := '_') (by simp [text]) rfl (by decide)
  | done n => exact unsigned?_eq_none_of_mem (c := '_') (by simp [text]) rfl (by decide)
  | halt => rfl
  | static u i => exact unsigned?_eq_none_of_mem (c := '.') (by simp [text]) rfl (by decide)

namespace Statement

def number? : Statement → Option Nat
  | load s => Text.unsigned? s.text.toList
  | loadNumber n => some n
  | _ => none

theorem loaded?_text (s : Statement) : Text.loaded? s.text = s.number? := by
  cases s with
  | comment words => exact Text.loaded?_eq_none (by simp [text])
  | load symbol => exact Text.loaded?_at symbol.text
  | loadNumber n => rw [text, Text.loaded?_at, Symbol.unsigned?_repr, number?]
  | compute t e j => exact Text.loaded?_eq_none (head_text_compute t e j (.inr (.inl rfl)))
  | label symbol => exact Text.loaded?_eq_none (by simp [text])

@[simp] theorem number?_load_procedure (f : String) : (load (.procedure f)).number? = Text.unsigned? f.toList := rfl

@[simp] theorem number?_loadNumber (n : Nat) : (loadNumber n).number? = some n := rfl

@[simp] theorem number?_assign (t : Destination) (e : Expression) : (assign t e).number? = none := rfl

@[simp] theorem number?_jump (e : Expression) (j : Condition) : (jump e j).number? = none := rfl

@[simp] theorem number?_label (s : Symbol) : (label s).number? = none := rfl

theorem number?_load {s : Symbol} (h : s.isProcedure = false) : (load s).number? = none :=
  Symbol.unsigned?_text_eq_none h

@[simp] theorem number?_loadCell (p : Predefined) : (loadCell p).number? = none :=
  number?_load rfl

def numbers (code : List Statement) : List Nat :=
  code.filterMap number?

@[simp] theorem numbers_nil : numbers [] = [] := rfl

@[simp] theorem numbers_cons (s : Statement) (code : List Statement) :
    numbers (s :: code) = s.number?.toList ++ numbers code := by
  cases h : s.number? <;> simp [numbers, h]

@[simp] theorem numbers_append (first second : List Statement) :
    numbers (first ++ second) = numbers first ++ numbers second := by
  simp [numbers]

theorem filterMap_loaded? (code : List Statement) : (code.map text).filterMap Text.loaded? = numbers code := by
  rw [List.filterMap_map, numbers]
  exact List.filterMap_congr fun s _ => loaded?_text s

end Statement

/-! ## Numbers of an instruction -/

namespace Instruction

/-- The numbers that an instruction brings into its code. -/
def numbers : Instruction → List Nat
  | push .constant n => [n]
  | push segment n => if segment.isIndirect then [n] else []
  | pop segment n => if segment.isIndirect then [n] else []
  | call f n => frameSize :: n :: (Text.unsigned? f.toList).toList
  | ret => [frameSize]
  | _ => []

/-- A number of the instruction is beyond 15 bits, and it is no constant. -/
def Oversized (i : Instruction) : Prop :=
  ∃ n, 32767 < n ∧
    ((∃ segment ∈ [Segment.locals, .argument, .this, .that], i = push segment n ∨ i = pop segment n) ∨
      (∃ f, i = call f n) ∨ ∃ f k, i = call f k ∧ Text.unsigned? f.toList = some n)

end Instruction

namespace Fragment

open Statement

@[simp] theorem numbers_pushD : numbers pushD = [] := rfl

@[simp] theorem numbers_popD : numbers popD = [] := rfl

theorem numbers_pushNumber (n : Nat) : numbers (pushNumber n) = [n] := rfl

theorem numbers_pushSymbol {s : Symbol} (h : s.isProcedure = false) : numbers (pushSymbol s) = [] := by
  simp [pushSymbol, number?_load h]

/-- The code of a cell loads its offset and nothing else. -/
theorem numbers_cell {scope : Scope} {index : Nat} {segment : Segment} {c : Cell}
    (h : cell scope index segment = .ok c) :
    numbers (pushCell c) = (if segment.isIndirect then [index] else []) ∧
      numbers (popCell c) = if segment.isIndirect then [index] else [] := by
  have hsymbol {s : Symbol} (hs : s.isProcedure = false) :
      numbers (pushCell (.symbol s)) = [] ∧ numbers (popCell (.symbol s)) = [] :=
    ⟨numbers_pushSymbol hs, by simp [popCell, number?_load hs]⟩
  rcases cell_ok h with ⟨hs, base, rfl⟩ | ⟨rfl, rfl⟩ | ⟨hs, p, rfl⟩
  · simp [hs, pushCell, popCell]
  · exact hsymbol rfl
  · rcases hs with rfl | rfl <;> exact hsymbol rfl

theorem numbers_operation (scope : Scope) (o : Operation) : numbers (operation scope o) = [] := by
  rcases o with u | b | c
  · rfl
  · rfl
  · have hholds : (load (.holds scope.comparisons)).number? = none := number?_load rfl
    have hdone : (load (.done scope.comparisons)).number? = none := number?_load rfl
    simp [operation, compare, hholds, hdone]

theorem numbers_function (f : String) (n : Nat) : numbers (function f n) = [] := by
  have hzeros : numbers (List.replicate n pushZero).flatten = [] := by
    induction n with
    | zero => rfl
    | succ n ih =>
      rw [List.replicate_succ, List.flatten_cons, numbers_append, ih]
      rfl
  simp [function, hzeros]

theorem numbers_call (scope : Scope) (f : String) (n : Nat) :
    numbers (call scope f n) = frameSize :: n :: (Text.unsigned? f.toList).toList := by
  have hreturn : (load scope.returnAddress).number? = none := number?_load rfl
  have hpointer (p : Predefined) : numbers (pushSymbol (.predefined p)) = [] := numbers_pushSymbol rfl
  simp [call, goto, hreturn, hpointer]

end Fragment

/-- The code of an instruction loads the numbers of the instruction. -/
theorem Instruction.numbers_code {scope : Scope} {i : Instruction} {code : List Statement}
    (h : i.code scope = .ok code) : Statement.numbers code = i.numbers := by
  cases i with
  | operation o =>
    cases h
    exact Fragment.numbers_operation scope o
  | push segment index =>
    rcases Fragment.push_ok h with ⟨rfl, -, rfl⟩ | ⟨c, hc, rfl⟩
    · exact Fragment.numbers_pushNumber index
    · have hsegment : segment ≠ .constant := by
        rintro rfl
        cases hc
      rw [(Fragment.numbers_cell hc).1, numbers]
      exact hsegment
  | pop segment index =>
    obtain ⟨c, hc, rfl⟩ := Fragment.pop_ok h
    exact (Fragment.numbers_cell hc).2
  | label l =>
    obtain ⟨-, rfl⟩ := named_ok h
    rfl
  | goto l | ifGoto l =>
    obtain ⟨-, rfl⟩ := named_ok h
    have hlabel : (Statement.load (scope.label l)).number? = none := Statement.number?_load rfl
    simp [Fragment.goto, Fragment.ifGoto, hlabel, numbers]
  | function f n =>
    obtain ⟨-, rfl⟩ := named_ok h
    exact Fragment.numbers_function f n
  | call f n =>
    obtain ⟨-, rfl⟩ := named_ok h
    exact Fragment.numbers_call scope f n
  | ret =>
    cases h
    simp [Fragment.ret, Fragment.restore, numbers]

/-! ## What fits -/

namespace Instruction

/-- A translated instruction with a number beyond 15 bits is oversized: a constant was
    checked. -/
theorem oversized_iff {scope : Scope} {i : Instruction} {code : List Statement} (h : i.code scope = .ok code) :
    i.Oversized ↔ ∃ n ∈ i.numbers, 32767 < n := by
  cases i with
  | push segment index =>
    rcases Fragment.push_ok h with ⟨rfl, hi, -⟩ | ⟨c, hc, -⟩
    · have hi : index ≤ 32767 := hi
      simp [Oversized, numbers, hi]
    · cases segment with
      | constant => cases hc
      | _ => simp [Oversized, numbers, Segment.isIndirect]
  | pop segment index => cases segment <;> simp [Oversized, numbers, Segment.isIndirect]
  | call f n =>
    have hnumbers : (∃ m ∈ (call f n).numbers, 32767 < m) ↔
        32767 < n ∨ ∃ m, Text.unsigned? f.toList = some m ∧ 32767 < m := by
      simp [numbers, frameSize]
    have hsized : (call f n).Oversized ↔ ∃ m, 32767 < m ∧ (n = m ∨ Text.unsigned? f.toList = some m) := by
      simp [Oversized]
    rw [hnumbers, hsized]
    constructor
    · rintro ⟨m, hm, rfl | hf⟩
      · exact .inl hm
      · exact .inr ⟨m, hf, hm⟩
    · rintro (hn | ⟨m, hf, hm⟩)
      · exact ⟨n, hn, .inl rfl⟩
      · exact ⟨m, hm, .inr hf⟩
  | _ => simp [Oversized, numbers, frameSize]

theorem not_oversized_of_readable {i : Instruction} (h : i.Readable) : ¬ i.Oversized := by
  rintro ⟨n, hn, ⟨segment, -, rfl | rfl⟩ | ⟨f, rfl⟩ | ⟨f, k, rfl, hf⟩⟩
  · exact absurd (show n ≤ 32767 from h) (by omega)
  · exact absurd (show n ≤ 32767 from h.2) (by omega)
  · exact absurd (show n ≤ 32767 from h.2) (by omega)
  · have hnone : Text.unsigned? f.toList = none := Symbol.unsigned?_text (s := .procedure f) h.1
    rw [hnone] at hf
    cases hf

end Instruction

/-- The code of a line loads the numbers of its instruction; a comment loads none. -/
theorem Session.numbers_line {s : Session} {l : SourceLine} {code : List Statement} (h : (s.line l).1 = .ok code) :
    Statement.numbers code = l.instruction.numbers := by
  obtain ⟨hcode, rfl, -⟩ := line_ok (Prod.ext h rfl)
  have hremark : ∀ st ∈ ({ options := s.options } : Session).remark l.text, st.number? = none := by
    intro st hst
    rw [eq_comment_of_mem_remark hst]
    rfl
  rw [Placed.emitted, Statement.numbers_append, Instruction.numbers_code hcode, Statement.numbers,
    List.filterMap_eq_nil_iff.mpr hremark, List.nil_append]

def Text.Loadable (lines : List String) : Prop :=
  ∀ line ∈ lines, ∀ n, loaded? line = some n → n ≤ 32767

theorem Statement.loadable_iff {code : List Statement} :
    Text.Loadable (code.map text) ↔ ∀ n ∈ numbers code, n ≤ 32767 := by
  simp only [Text.Loadable, ← filterMap_loaded?, List.mem_filterMap]
  exact ⟨fun h n ⟨line, hline, hn⟩ => h line hline n hn, fun h line hline n hn => h n ⟨line, hline, hn⟩⟩

/-- The numbers that the code of a line loads are those of its instruction. The machine can
    load them all, unless an index other than a constant's or a count of arguments is too
    large, or a procedure that is called is written like a number that is. No instruction
    that was read is of that kind. -/
theorem loads_fit_iff {s : Session} {l : SourceLine} {code : List Statement} (h : (s.line l).1 = .ok code) :
    (code.map Statement.text).filterMap Text.loaded? = l.instruction.numbers ∧
      (Text.Loadable (code.map Statement.text) ↔ ¬ l.instruction.Oversized) ∧
      (l.instruction.Readable → Text.Loadable (code.map Statement.text)) := by
  have hnumbers := Session.numbers_line h
  obtain ⟨hcode, -, -⟩ := Session.line_ok (Prod.ext h rfl)
  have hfit : Text.Loadable (code.map Statement.text) ↔ ¬ l.instruction.Oversized := by
    rw [Statement.loadable_iff, hnumbers, Instruction.oversized_iff hcode]
    simp
  exact ⟨by rw [Statement.filterMap_loaded?, hnumbers], hfit, fun hr => hfit.mpr (Instruction.not_oversized_of_readable hr)⟩

/-- The largest index that can be loaded, and a call of a procedure that is written like a
    number beyond it. -/
theorem loads_fit_iff_boundary :
    (∃ code, (({} : Session).line ⟨.pop .that 32767, 1, "pop that 32767"⟩).1 = .ok code ∧
        (code.map Statement.text).filterMap Text.loaded? = [32767] ∧ Text.Loadable (code.map Statement.text)) ∧
      ∃ code, (({} : Session).line ⟨.call "+40000" 2, 1, "call +40000 2"⟩).1 = .ok code ∧
        (code.map Statement.text).filterMap Text.loaded? = [5, 2, 40000] ∧
        ¬ Text.Loadable (code.map Statement.text) := by
  refine ⟨⟨_, rfl, ?_⟩, ⟨_, rfl, ?_⟩⟩
  · obtain ⟨hnumbers, -, hread⟩ := loads_fit_iff (s := {}) (l := ⟨.pop .that 32767, 1, "pop that 32767"⟩) rfl
    exact ⟨hnumbers, hread ⟨by decide, by decide⟩⟩
  · obtain ⟨hnumbers, hfit, -⟩ := loads_fit_iff (s := {}) (l := ⟨.call "+40000" 2, 1, "call +40000 2"⟩) rfl
    exact ⟨hnumbers, fun h => hfit.mp h ⟨40000, by decide, .inr (.inr ⟨_, _, rfl, by decide⟩)⟩⟩

/-- An index beyond 15 bits is let through outside the constants, and the assembler does not
    take the line that loads it. -/
theorem load_too_large :
    ∃ code, (({} : Session).line ⟨.push .locals 40000, 1, "push local 40000"⟩).1 = .ok code ∧
      "@40000" ∈ code.map Statement.text ∧ Assembler.assemble (Statement.write code) = .error (.tooLarge 40000) ∧
      (Instruction.push .constant 40000).code {} = .error (.constantRange 40000) := by
  exact ⟨_, rfl, by decide, rfl, rfl⟩

end StackToHack
