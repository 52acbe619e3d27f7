/-
  StackToHack.Proofs.Printing — what is written out is read back.

  `Instruction.text` puts the words of an instruction on one line. If a source can write the
  instruction at all, `Instruction.Readable`, its words are clean: they hold nothing that
  ends a word, a line or the text of a line. So the line is cut back into these words, and
  the grammar gives the instruction again.
  - `Row`: a line of clean words, `row_intercalate`.
  - `read?_text`: the text of a readable instruction, as a line, is read as the instruction.
  - `printing_inverts_reading`: this for whole sources, and that nothing else is read back.
-/

import StackToHack.Proofs.Sources
import StackToHack.Proofs.Linking

namespace StackToHack

/-! ## Lines of clean words -/

namespace Text

structure Clean (word : List Char) : Prop where
  nonempty : word ≠ []
  plain : Plain word

theorem isBlank_of_isGap {c : Char} (h : isGap c = true) : isBlank c = true := by
  simp only [isGap, Bool.or_eq_true, beq_iff_eq] at h
  rcases h with rfl | rfl <;> rfl

theorem Clean.isWord {word : List Char} (h : Clean word) : IsWord word := by
  refine ⟨h.nonempty, fun c hc => ?_⟩
  by_contra hgap
  have hblank := isBlank_of_isGap (c := c) (by simpa using hgap)
  rw [(h.plain c hc).1] at hblank
  cases hblank

structure Row (cs : List Char) (words : List String) : Prop where
  chars : ∀ c ∈ cs, c = ' ' ∨ (isBlank c = false ∧ c ≠ '/')
  first : ∃ c rest, cs = c :: rest ∧ isBlank c = false
  last : ∃ front c, cs = front ++ [c] ∧ isBlank c = false
  spells : Spells cs words

theorem row_singleton {word : String} (h : Clean word.toList) : Row word.toList [word] where
  chars c hc := .inr (h.plain c hc)
  first := by
    obtain ⟨c, rest, he⟩ := List.exists_cons_of_ne_nil h.nonempty
    exact ⟨c, rest, he, (h.plain c (by simp [he])).1⟩
  last := by
    have he := List.dropLast_append_getLast h.nonempty
    exact ⟨_, _, he.symm, (h.plain _ (List.getLast_mem h.nonempty)).1⟩
  spells := by
    have hs := Spells.last h.isWord
    rwa [String.ofList_toList] at hs

theorem row_cons {word : String} {cs : List Char} {words : List String} (h : Clean word.toList) (hr : Row cs words) :
    Row (word.toList ++ ' ' :: cs) (word :: words) where
  chars c hc := by
    rcases List.mem_append.mp hc with hc | hc
    · exact .inr (h.plain c hc)
    · rcases List.mem_cons.mp hc with rfl | hc
      · exact .inl rfl
      · exact hr.chars c hc
  first := by
    obtain ⟨c, rest, he, hb⟩ := (row_singleton h).first
    exact ⟨c, rest ++ ' ' :: cs, by rw [he]; rfl, hb⟩
  last := by
    obtain ⟨front, c, he, hb⟩ := hr.last
    exact ⟨word.toList ++ ' ' :: front, c, by rw [he]; simp, hb⟩
  spells := by
    have hs := Spells.word h.isWord (c := ' ') rfl hr.spells
    rwa [String.ofList_toList] at hs

theorem row_intercalate {word : String} {words : List String} (h : ∀ w ∈ word :: words, Clean w.toList) :
    Row (" ".intercalate (word :: words)).toList (word :: words) := by
  induction words generalizing word with
  | nil =>
    rw [String.intercalate_singleton]
    exact row_singleton (h word List.mem_cons_self)
  | cons next words ih =>
    have he : (" ".intercalate (word :: next :: words)).toList =
        word.toList ++ ' ' :: (" ".intercalate (next :: words)).toList := by
      simp [String.toList_intercalate]
    rw [he]
    exact row_cons (h word List.mem_cons_self) (ih fun w hw => h w (List.mem_cons_of_mem _ hw))

section Rows

variable {cs : List Char} {words : List String}

/-- Neither a comment nor the end of a line is in a row. -/
theorem Row.notMem (h : Row cs words) : '/' ∉ cs ∧ '\n' ∉ cs := by
  constructor
  · intro hc
    rcases h.chars _ hc with he | ⟨-, he⟩
    · cases he
    · exact he rfl
  · intro hc
    rcases h.chars _ hc with he | ⟨hb, -⟩
    · cases he
    · cases hb

theorem Row.beforeComment (h : Row cs words) : beforeComment cs = cs := by
  refine beforeComment_eq_iff.mpr ⟨[], (List.append_nil cs).symm, .inl rfl, fun n _ hopen => ?_⟩
  obtain ⟨after, he⟩ := hopen
  refine h.notMem.1 (List.mem_of_mem_drop (i := n) ?_)
  rw [← he]
  exact List.mem_cons_self

theorem Row.trim (h : Row cs words) : trim cs = cs := by
  obtain ⟨c, rest, hf, hc⟩ := h.first
  obtain ⟨front, d, hl, hd⟩ := h.last
  refine trim_eq_self ?_ ?_
  · simp [hf, hc]
  · simp [hl, hd]

end Rows

end Text

/-! ## The words of an instruction -/

namespace Instruction

open Text (Clean Row)

theorem clean_of_isIdentifier {word : String} (h : Name.isIdentifier word = true) : Clean word.toList := by
  obtain ⟨c, rest, he, -⟩ := Symbol.head_of_isIdentifier h
  exact ⟨by simp [he], Text.plain_of_isSymbolChar (Symbol.isWord_of_isIdentifier h)⟩

theorem clean_repr (n : Nat) : Clean n.repr.toList :=
  ⟨(Text.isNumeral_iff.mp (Text.isNumeral_repr n)).nonempty, Text.plain_of_isSymbolChar (Symbol.isWord_repr n)⟩

theorem clean_keyword (k : Keyword) : Clean k.name.toList := by
  rcases k with ⟨u | b | c⟩ | _ | _ | _ | _ | _ | _ | _ | _
  · cases u <;> exact ⟨by decide, by decide⟩
  · cases b <;> exact ⟨by decide, by decide⟩
  · cases c <;> exact ⟨by decide, by decide⟩
  all_goals exact ⟨by decide, by decide⟩

theorem clean_segment (s : Segment) : Clean s.name.toList := by
  cases s <;> exact ⟨by decide, by decide⟩

theorem clean_operands {i : Instruction} (h : i.Readable) : ∀ word ∈ i.operands, Clean word.toList := by
  have hpair : ∀ {first second : String}, Clean first.toList → Clean second.toList →
      ∀ word ∈ [first, second], Clean word.toList := by
    intro first second h₁ h₂
    exact List.forall_mem_cons.mpr ⟨h₁, List.forall_mem_singleton.mpr h₂⟩
  cases i with
  | operation _ | ret => exact fun _ hw => absurd hw List.not_mem_nil
  | push s n | pop s n => exact hpair (clean_segment s) (clean_repr n)
  | label l | goto l | ifGoto l => exact List.forall_mem_singleton.mpr (clean_of_isIdentifier h.2)
  | function f n | call f n => exact hpair (clean_of_isIdentifier h.1.2) (clean_repr n)

theorem isIndex_repr {n : Nat} (h : n ≤ maxIndex) : IsIndex n.repr n :=
  ⟨Text.isNumeral_iff.mp (Text.isNumeral_repr n), Text.value_repr n, h⟩

/-- The grammar has the words of every readable instruction. -/
theorem grammar_words {i : Instruction} (h : i.Readable) : Grammar (i.keyword.name :: i.operands) i := by
  cases i with
  | operation o => exact .operation o
  | push s n => exact .push s (isIndex_repr h)
  | pop s n => exact .pop h.1 (isIndex_repr h.2)
  | label l => exact .label (Name.isLabel_iff.mp h)
  | goto l => exact .goto (Name.isLabel_iff.mp h)
  | ifGoto l => exact .ifGoto (Name.isLabel_iff.mp h)
  | function f n => exact .function (Name.isProcedure_iff.mp h.1) (isIndex_repr h.2)
  | call f n => exact .call (Name.isProcedure_iff.mp h.1) (isIndex_repr h.2)
  | ret => exact .ret

theorem row_text {i : Instruction} (h : i.Readable) : Row i.text.toList (i.keyword.name :: i.operands) := by
  refine Text.row_intercalate fun word hw => ?_
  rcases List.mem_cons.mp hw with rfl | hw
  · exact clean_keyword i.keyword
  · exact clean_operands h word hw

theorem writes_text {i : Instruction} (h : i.Readable) : Writes i.text i :=
  ⟨_, (row_text h).spells, grammar_words h⟩

theorem read?_text {i : Instruction} (h : i.Readable) (unit : String) (number : Nat) :
    SourceLine.read? unit number i.text.toList = .ok (some ⟨i, number, i.text⟩) := by
  have hrow := row_text h
  refine SourceLine.read?_eq_some_iff.mpr ⟨rfl, ?_, ?_, writes_text h⟩
  · rw [hrow.beforeComment, hrow.trim]
  · intro he
    obtain ⟨c, rest, hc, -⟩ := hrow.first
    rw [show i.text = "" from he] at hc
    cases hc

end Instruction

/-! ## Whole sources -/

def printed (is : List Instruction) : String :=
  "\n".intercalate (is.map Instruction.text)

def numbered (first : Nat) (is : List Instruction) : List SourceLine :=
  (is.zipIdx first).map fun p => ⟨p.1, p.2, p.1.text⟩

theorem numbered_cons (first : Nat) (i : Instruction) (is : List Instruction) :
    numbered first (i :: is) = ⟨i, first, i.text⟩ :: numbered (first + 1) is := by
  simp [numbered, List.zipIdx_cons]

theorem instruction_numbered (first : Nat) (is : List Instruction) : (numbered first is).map (·.instruction) = is := by
  simp [numbered, Function.comp_def]

theorem readFrom_printed {is : List Instruction} (h : ∀ i ∈ is, i.Readable) (unit : String) (first : Nat) :
    SourceUnit.readFrom unit first (is.map fun i => i.text.toList) = .ok (numbered first is) := by
  induction is generalizing first with
  | nil => rfl
  | cons i is ih =>
    have hrest := ih (fun j hj => h j (List.mem_cons_of_mem _ hj)) (first + 1)
    rw [List.map_cons, SourceUnit.readFrom, Instruction.read?_text (h i List.mem_cons_self)]
    simp only [hrest, numbered_cons]
    rfl

theorem lines_printed {is : List Instruction} (hne : is ≠ []) (h : ∀ i ∈ is, i.Readable) :
    Text.lines (printed is).toList = is.map fun i => i.text.toList := by
  refine Text.lines_eq_iff.mpr ⟨by simpa using hne, fun piece hp => ?_, ?_⟩
  · obtain ⟨i, hi, rfl⟩ := List.mem_map.mp hp
    exact (Instruction.row_text (h i hi)).notMem.2
  · rw [printed, String.toList_intercalate, List.map_map]
    rfl

/-- Readable instructions are read back, in order. -/
theorem read_printed {is : List Instruction} (h : ∀ i ∈ is, i.Readable) (unit : String) :
    (⟨unit, printed is⟩ : SourceUnit).lines = .ok (numbered 1 is) := by
  by_cases hne : is = []
  · subst hne
    rfl
  · rw [SourceUnit.lines, lines_printed hne h]
    exact readFrom_printed h unit 1

theorem printed_singleton (i : Instruction) : printed [i] = i.text :=
  String.intercalate_singleton

/-- An instruction is read back from its text just if it is readable; readable instructions,
    one a line, are read back in order with their numbers and texts; and only readable ones
    are ever read, so a source that is read can be printed anew without changing what it
    says. -/
theorem printing_inverts_reading (unit : String) :
    (∀ i : Instruction, (∃ l, (⟨unit, i.text⟩ : SourceUnit).lines = .ok [l] ∧ l.instruction = i) ↔ i.Readable) ∧
      (∀ is : List Instruction, (∀ i ∈ is, i.Readable) →
        (⟨unit, printed is⟩ : SourceUnit).lines = .ok (numbered 1 is)) ∧
      ∀ (u : SourceUnit) (ls : List SourceLine), u.lines = .ok ls →
        (∀ l ∈ ls, l.instruction.Readable) ∧ ∃ ls', (⟨unit, printed (ls.map (·.instruction))⟩ : SourceUnit).lines = .ok ls' ∧
          ls'.map (·.instruction) = ls.map (·.instruction) := by
  refine ⟨fun i => ⟨?_, fun h => ?_⟩, fun is h => read_printed h unit, fun u ls h => ?_⟩
  · rintro ⟨l, hl, rfl⟩
    exact SourceUnit.mem_lines_readable hl List.mem_cons_self
  · have hread := read_printed (List.forall_mem_singleton.mpr h) unit
    rw [printed_singleton] at hread
    exact ⟨_, hread, rfl⟩
  · have hreadable : ∀ l ∈ ls, l.instruction.Readable := fun l hl => SourceUnit.mem_lines_readable h hl
    refine ⟨hreadable, _, read_printed (fun i hi => ?_) unit, instruction_numbered 1 _⟩
    obtain ⟨l, hl, rfl⟩ := List.mem_map.mp hi
    exact hreadable l hl

/-- The largest index can be written and the one behind it cannot, nor a name with a comment
    in it, though its text is read as something; three lines are read back; and a source
    with a comment is printed without it. -/
theorem printing_inverts_reading_bounds :
    (∃ l, (⟨"A", "push constant 32767"⟩ : SourceUnit).lines = .ok [l] ∧ l.instruction = .push .constant 32767) ∧
      (¬ ∃ l, (⟨"A", "push constant 32768"⟩ : SourceUnit).lines = .ok [l] ∧ l.instruction = .push .constant 32768) ∧
      (¬ ∃ l, (⟨"A", "label a//b"⟩ : SourceUnit).lines = .ok [l] ∧ l.instruction = .label "a//b") ∧
      (⟨"A", "call F 2\nlabel ret.x\nreturn"⟩ : SourceUnit).lines =
        .ok [⟨.call "F" 2, 1, "call F 2"⟩, ⟨.label "ret.x", 2, "label ret.x"⟩, ⟨.ret, 3, "return"⟩] ∧
      ∃ ls, (⟨"A", "push constant 7\nadd"⟩ : SourceUnit).lines = .ok ls ∧
        ls.map (·.instruction) = [.push .constant 7, .operation (.binary .add)] := by
  obtain ⟨hone, hall, hagain⟩ := printing_inverts_reading "A"
  have hthree : ∀ i ∈ [Instruction.call "F" 2, .label "ret.x", .ret], i.Readable := by
    intro i hi
    simp only [List.mem_cons, List.not_mem_nil, or_false] at hi
    rcases hi with rfl | rfl | rfl
    · exact ⟨⟨by decide, by decide⟩, by decide⟩
    · exact ⟨by decide, by decide⟩
    · trivial
  have hsource : (⟨"B", "push constant 007 // seven\n\nadd"⟩ : SourceUnit).lines =
      .ok [⟨.push .constant 7, 1, "push constant 007"⟩, ⟨.operation (.binary .add), 3, "add"⟩] := by
    decide +kernel
  refine ⟨?_, fun h => ?_, fun h => ?_, hall _ hthree, (hagain _ _ hsource).2⟩
  · exact (hone (.push .constant 32767)).mpr (Nat.le_refl _)
  · exact absurd ((hone (.push .constant 32768)).mp h) (by decide : ¬ 32768 ≤ maxIndex)
  · exact absurd ((hone (.label "a//b")).mp h).2 (by decide)

end StackToHack
