/-
  StackToHack.Proofs.Vocabulary — the lines that the assembler is given.

  Where all names of a program are identifiers, each line that is written belongs to the
  assembler's vocabulary, `AssemblyLine`. The text of a source line, which a comment
  repeats, has lost its own comment, so nothing in it could start another; and no text
  breaks a line, so there are as many lines as statements.
  - `Text.rows_write`: the lines of what is written are those of its statements.
  - `Symbol.isSymbolWord_text`, `Statement.assemblyLine_text`: the line of a statement.
  - `SourceUnit.Holds.notInfix`: no comment starts in the text of a source line.
  - `output_well_formed`: the lines of a program and how they are counted.
-/

import StackToHack.Proofs.Annotation

namespace StackToHack

/-! ## Lines of a text -/

namespace Text

/-- The lines of a text, where a line feed at the end opens no further line. -/
def rows (text : String) : List String :=
  let pieces := lines text.toList
  (if pieces.getLast? = some [] then pieces.dropLast else pieces).map String.ofList

theorem lines_write {code : List Statement} (h : ∀ s ∈ code, '\n' ∉ s.text.toList) :
    lines (Statement.write code).toList = code.map (·.text.toList) ++ [[]] := by
  induction code with
  | nil => rfl
  | cons s code ih =>
    obtain ⟨hs, hcode⟩ := List.forall_mem_cons.mp h
    have htext : (Statement.write (s :: code)).toList = s.text.toList ++ '\n' :: (Statement.write code).toList := by
      simp [Statement.write]
    rw [htext, lines_append, lines_of_notMem hs, ih hcode]
    rfl

/-- Each statement is one line of what is written. -/
theorem rows_write {code : List Statement} (h : ∀ s ∈ code, '\n' ∉ s.text.toList) :
    rows (Statement.write code) = code.map Statement.text := by
  rw [rows, lines_write h]
  simp [Function.comp_def]

end Text

/-! ## The vocabulary -/

def expressionWords : List String :=
  ["0", "1", "-1", "D", "A", "M", "!D", "!A", "!M", "-D", "-A", "-M", "D+1", "A+1", "M+1", "D-1", "A-1", "M-1", "D+A",
    "D+M", "D-A", "D-M", "A-D", "M-D", "D&A", "D&M", "D|A", "D|M"]

def destinationWords : List String :=
  ["M", "D", "MD", "A", "AM", "AD", "AMD"]

def conditionWords : List String :=
  ["JGT", "JEQ", "JGE", "JLT", "JNE", "JLE", "JMP"]

def IsSymbolWord (word : String) : Prop :=
  ∃ c rest, word.toList = c :: rest ∧ c.isDigit = false ∧
    ∀ d ∈ c :: rest, d.isAlpha = true ∨ d.isDigit = true ∨ d ∈ ['_', '.', ':', '$']

inductive AssemblyLine : String → Prop
  /-- No other comment starts in the words of a comment. -/
  | comment {words : String} : ¬ ['/', '/'] <:+: words.toList → AssemblyLine ("// " ++ words)
  | label {name : String} : IsSymbolWord name → AssemblyLine ("(" ++ name ++ ")")
  | symbol {name : String} : IsSymbolWord name → AssemblyLine ("@" ++ name)
  | number {n : Nat} : n ≤ 32767 → AssemblyLine ("@" ++ n.repr)
  | computation {target e condition : String} : (target = "" ∨ ∃ t ∈ destinationWords, target = t ++ "=") →
    e ∈ expressionWords → (condition = "" ∨ ∃ j ∈ conditionWords, condition = ";" ++ j) →
    AssemblyLine (target ++ e ++ condition)

theorem Symbol.isSymbolWord_text {s : Symbol} (h : s.Sound) : IsSymbolWord s.text := by
  obtain ⟨c, rest, he, hd, -⟩ := head_text h
  refine ⟨c, rest, he, hd, fun d hmem => ?_⟩
  rw [← he] at hmem
  have hchar := isWord_text h d hmem
  simp only [Text.isSymbolChar, Name.isIdentifierChar, Char.isAlphanum, Bool.or_eq_true, beq_iff_eq] at hchar
  simp only [List.mem_cons, List.not_mem_nil, or_false]
  tauto

namespace Statement

theorem assemblyLine_compute (t : Destination) (e : Expression) (j : Condition) :
    AssemblyLine (compute t e j).text := by
  refine .computation ?_ ?_ ?_
  · split
    · exact .inl rfl
    · rename_i ht
      refine .inr ⟨t.text, ?_, rfl⟩
      obtain ⟨a, m, d⟩ := t
      revert ht
      revert a m d
      decide
  · cases e <;> decide
  · split
    · exact .inl rfl
    · rename_i hj
      refine .inr ⟨j.text, ?_, rfl⟩
      cases j <;> first | exact absurd rfl hj | decide

/-- The line of a statement whose words are those of a source. -/
theorem assemblyLine_text {s : Statement} (h : s.Sound) (hwords : ∀ words ∈ s.words?, ¬ ['/', '/'] <:+: words.toList) :
    AssemblyLine s.text := by
  cases s with
  | comment words => exact .comment (hwords words rfl)
  | load s => exact .symbol (s.isSymbolWord_text h)
  | loadNumber n => exact .number h
  | compute t e j => exact assemblyLine_compute t e j
  | label s => exact .label (s.isSymbolWord_text h)

/-- No line of sound code is broken. -/
theorem notMem_text {s : Statement} (h : s.Sound) : '\n' ∉ s.text.toList := by
  cases hl : s.line? with
  | none =>
    cases s with
    | comment words =>
      have hwords : '\n' ∉ words.toList := h
      simp [text, hwords]
    | _ => cases hl
  | some line =>
    have htext : line = s.text.toList := by
      cases s <;> cases hl <;> rfl
    intro hn
    obtain ⟨hblank, -⟩ := plain_line h hl '\n' (htext ▸ hn)
    revert hblank
    decide

end Statement

/-! ## Comments -/

/-- The text that remains of a line lies before its comment. -/
theorem Text.Remains.notInfix {raw text : List Char} (h : Remains raw text) : ¬ ['/', '/'] <:+: text := by
  obtain ⟨front, ⟨comment, rfl, -, hopen⟩, left, right, rfl, -⟩ := h
  rintro ⟨before, after, rfl⟩
  refine hopen (left ++ before).length (by simp) ⟨after ++ right ++ comment, ?_⟩
  simp only [List.append_assoc, List.length_append, List.drop_append]
  simp

theorem SourceUnit.Holds.notInfix {u : SourceUnit} {n : Nat} {text : String} (h : u.Holds n text) :
    ¬ ['/', '/'] <:+: text.toList := by
  obtain ⟨-, -, raw, -, -, -, hremains, -⟩ := h
  exact hremains.notInfix

section Programs

variable {options : Options} {units : List SourceUnit} {summary : Summary}

/-- The comments of a program repeat the texts of its units. -/
theorem mem_programRemarks (h : (translate options units).outcome = .ok summary) {words : String}
    (hm : .comment words ∈ (translate options units).written) : words ∈ programRemarks options units := by
  obtain ⟨texts, hannotates, -, houtcome, htexts⟩ := translate_commented options units
  cases hb : options.annotate with
  | true =>
    have hsame : { options with annotate := true } = options := by rw [← hb]
    rw [hsame] at hannotates houtcome
    rw [h] at houtcome
    obtain ⟨plain, hplain, -⟩ := map_eq_ok houtcome.symm
    rw [← htexts plain hplain, ← hannotates.comments]
    exact List.mem_filterMap.mpr ⟨_, hm, rfl⟩
  | false =>
    have hsame : { options with annotate := false } = options := by rw [← hb]
    rw [hsame] at hannotates
    rw [← hannotates.rest] at hm
    cases (List.mem_filter.mp hm).2

theorem notInfix_of_mem_programRemarks (h : Accepted options units) {words : String}
    (hm : words ∈ programRemarks options units) : ¬ ['/', '/'] <:+: words.toList := by
  rcases List.mem_append.mp hm with hm | hm
  · split at hm
    · obtain rfl := List.mem_singleton.mp hm
      decide
    · cases hm
  · obtain ⟨l, hl, rfl⟩ := List.mem_map.mp hm
    obtain ⟨u, hu, hl⟩ := List.mem_flatMap.mp hl
    exact ((SourceUnit.mem_lines_iff (h.read u hu)).mp hl).1.notInfix

/-- All of a program is sound if its names are identifiers, that of the entry included. -/
theorem sound_of_identifiers (h : Accepted options units) (hu : ∀ u ∈ units, Name.Identifier u.name)
    (he : Name.Identifier options.entry) : ∀ s ∈ (translate options units).written, s.Sound := by
  have hunits : ∀ u ∈ units, Name.isIdentifier u.name = true := fun u hm => Name.isIdentifier_iff.mpr (hu u hm)
  intro s hs
  rcases mem_written h hunits hs with hsound | ⟨hb, rfl⟩
  · exact hsound
  · exact ⟨h.entry hb, Name.isIdentifier_iff.mpr he⟩

theorem Accepted.map_lines (h : Accepted options units) :
    units.map SourceUnit.lines = (units.map SourceUnit.readLines).map .ok := by
  rw [List.map_map]
  exact List.map_congr_left h.read

/-- What is counted of a run that ends well. -/
theorem summary_of_ok (h : (translate options units).outcome = .ok summary) :
    summary.units = units.length ∧ summary.instructions = (units.map SourceUnit.readLines).flatten.length ∧
      summary.lines = (translate options units).written.length := by
  have hnames := (accepted_of_ok h).names
  obtain ⟨opening, s, read, hs, hread⟩ := started_of_ok h
  obtain ⟨-, rfl, -⟩ := Session.writeUnits_ok hread
  rw [translate_of_start hnames hs, Progress.closed_of_ok hread] at h ⊢
  obtain rfl := Except.ok.inj h
  exact ⟨List.length_map _, rfl, rfl⟩

/-- The lines of a program are those of its statements. -/
theorem rows_text (h : Accepted options units) (hu : ∀ u ∈ units, Name.Identifier u.name)
    (he : Name.Identifier options.entry) :
    Text.rows (translate options units).text = (translate options units).written.map Statement.text :=
  Text.rows_write fun s hs => Statement.notMem_text (sound_of_identifiers h hu he s hs)

/-- A program in which all names are identifiers consists of lines that the assembler can
    be given, as many as are counted. The instructions that are counted are those of the
    units. -/
theorem output_well_formed (h : (translate options units).outcome = .ok summary)
    (hu : ∀ u ∈ units, Name.Identifier u.name) (he : Name.Identifier options.entry) :
    (∀ line ∈ Text.rows (translate options units).text, AssemblyLine line) ∧
      summary.lines = (Text.rows (translate options units).text).length ∧
      (∃ read : List (List SourceLine), units.map SourceUnit.lines = read.map .ok ∧
        summary.instructions = read.flatten.length) ∧
      summary.units = units.length := by
  have haccepted := accepted_of_ok h
  have hsound := sound_of_identifiers haccepted hu he
  obtain ⟨hunits, hinstructions, hlines⟩ := summary_of_ok h
  rw [rows_text haccepted hu he, List.length_map]
  refine ⟨fun line hline => ?_, hlines, ⟨_, haccepted.map_lines, hinstructions⟩, hunits⟩
  obtain ⟨s, hs, rfl⟩ := List.mem_map.mp hline
  refine Statement.assemblyLine_text (hsound s hs) fun words hwords => ?_
  obtain rfl : s = .comment words := by
    cases s <;> cases hwords
    rfl
  exact notInfix_of_mem_programRemarks haccepted (mem_programRemarks h hs)

end Programs

/-- A unit with a comment of its own, blanks and a number with zeros in front. -/
theorem output_well_formed_commented :
    (translate {} [commented]).outcome = .ok ⟨1, 2, 64⟩ ∧
      "// push constant 007" ∈ Text.rows (translate {} [commented]).text ∧
      (∀ line ∈ Text.rows (translate {} [commented]).text, AssemblyLine line) ∧
      (Text.rows (translate {} [commented]).text).length = 64 := by
  have hok : (translate {} [commented]).outcome = .ok ⟨1, 2, 64⟩ := by decide +kernel
  have hunits : ∀ u ∈ [commented], Name.Identifier u.name := by
    intro u hu
    obtain rfl := List.mem_singleton.mp hu
    exact Name.isIdentifier_iff.mp (by decide)
  have hentry : Name.Identifier ({} : Options).entry := Name.isIdentifier_iff.mp (by decide)
  have hcomment : .comment "push constant 007" ∈ (translate {} [commented]).written := by decide +kernel
  obtain ⟨hlines, hcount, -, -⟩ := output_well_formed hok hunits hentry
  refine ⟨hok, ?_, hlines, hcount.symm⟩
  rw [rows_text (accepted_of_ok hok) hunits hentry]
  exact List.mem_map.mpr ⟨_, hcomment, rfl⟩

end StackToHack
