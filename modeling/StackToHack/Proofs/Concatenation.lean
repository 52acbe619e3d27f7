/-
  StackToHack.Proofs.Concatenation — a source put together from two texts.

  Each line is read for itself, so two texts with a line feed between them are read one
  after the other. Of the first nothing changes; the second is read as it is alone, but its
  lines are numbered from where the first ends. That is one line further down for each line
  feed of the first, and one for the line feed between, whether or not anything stands on
  the lines.
  - `SourceUnit.readFrom_append`, `SourceUnit.readFrom_add`: lines in front of others, and
    lines that are numbered from further down.
  - `SourceUnit.lines_append`: both, for texts.
  - `SourceUnit.lines_eq_readFrom_fileLines`: the reader does not see how lines end in a
    file.
  - `sources_concatenate`: the three ways in which reading two texts can end.
-/

import StackToHack.Proofs.Sources

namespace StackToHack

/-! ## Further down -/

/-- The same line of a unit with some lines more in front of it. -/
def SourceLine.movedDown (d : Nat) (l : SourceLine) : SourceLine :=
  { l with line := l.line + d }

def Error.movedDown (d : Nat) : Error → Error
  | .instruction place fault => .instruction { place with line := place.line + d } fault
  | e => e

namespace SourceUnit

def movedDown (d : Nat) : Except Error (List SourceLine) → Except Error (List SourceLine)
  | .ok ls => .ok (ls.map (SourceLine.movedDown d))
  | .error e => .error (e.movedDown d)

/-! ## Numbered lines -/

theorem read?_add (unit : String) (number d : Nat) (raw : List Char) :
    SourceLine.read? unit (number + d) raw = match SourceLine.read? unit number raw with
      | .ok line? => .ok (line?.map (SourceLine.movedDown d))
      | .error e => .error (e.movedDown d) := by
  simp only [SourceLine.read?]
  split
  · rfl
  · cases Instruction.ofWords (Text.words (Text.trim (Text.beforeComment raw))) <;> rfl

/-- Lines that are numbered from further down are further down and otherwise the same. -/
theorem readFrom_add (unit : String) (number d : Nat) (raws : List (List Char)) :
    readFrom unit (number + d) raws = movedDown d (readFrom unit number raws) := by
  induction raws generalizing number with
  | nil => rfl
  | cons raw raws ih =>
    have hrest : readFrom unit (number + d + 1) raws = movedDown d (readFrom unit (number + 1) raws) := by
      rw [← ih, Nat.add_right_comm]
    rw [readFrom, readFrom, hrest, read?_add]
    cases SourceLine.read? unit number raw with
    | error e => rfl
    | ok line? =>
      cases readFrom unit (number + 1) raws with
      | error e => rfl
      | ok others => cases line? <;> rfl

/-- What the first lines give stands in front of what the others give, unless a first line
    cannot be read. -/
theorem readFrom_append (unit : String) (number : Nat) (first second : List (List Char)) :
    readFrom unit number (first ++ second) = match readFrom unit number first with
      | .error e => .error e
      | .ok ls => (readFrom unit (number + first.length) second).map (ls ++ ·) := by
  induction first generalizing number with
  | nil => cases h : readFrom unit number second <;> simp [readFrom, h, Except.map]
  | cons raw first ih =>
    have hnumber : number + 1 + first.length = number + (raw :: first).length := by
      rw [List.length_cons]
      omega
    rw [List.cons_append, readFrom, readFrom, ih, hnumber]
    cases SourceLine.read? unit number raw with
    | error e => rfl
    | ok line? =>
      cases readFrom unit (number + 1) first with
      | error e => rfl
      | ok ls => cases readFrom unit (number + (raw :: first).length) second <;> simp [Except.map]

end SourceUnit

/-! ## Texts -/

theorem Text.length_lines (cs : List Char) : (lines cs).length = cs.count '\n' + 1 := by
  induction cs with
  | nil => rfl
  | cons c cs ih =>
    rw [lines, List.splitOn_eq_splitOnP] at ih ⊢
    rw [List.splitOnP_cons_eq_if_modifyHead, List.count_cons]
    split
    · rw [List.length_cons, ih]
    · rw [List.length_modifyHead, ih]

theorem SourceUnit.lines_append (name first second : String) :
    (⟨name, first ++ "\n" ++ second⟩ : SourceUnit).lines = match (⟨name, first⟩ : SourceUnit).lines with
      | .error e => .error e
      | .ok ls => (movedDown (1 + first.toList.count '\n') (⟨name, second⟩ : SourceUnit).lines).map (ls ++ ·) := by
  have htext : (first ++ "\n" ++ second).toList = first.toList ++ '\n' :: second.toList := by simp
  rw [lines, htext, Text.lines_append, readFrom_append, Text.length_lines, readFrom_add, Nat.add_comm _ 1]
  rfl

/-! ## Ends of lines -/

namespace Text

def withoutReturn (line : List Char) : List Char :=
  if line.getLast? = some '\r' then line.dropLast else line

/-- The lines of a file. A line ends with a line feed, which a carriage return may stand
    in front of; what follows the last line feed is a line too, unless it is empty. -/
def fileLines (cs : List Char) : List (List Char) :=
  (lines cs).dropLast.map withoutReturn ++ (lines cs).getLast?.toList.filter (!·.isEmpty)

theorem trim_concat_of_isBlank {c : Char} (h : isBlank c = true) (cs : List Char) : trim (cs ++ [c]) = trim cs := by
  rw [trim_eq_iff]
  obtain ⟨left, right, he, hl, hr, hhead, hlast⟩ := isTrimmed_trim cs
  refine ⟨left, right ++ [c], ?_, hl, ?_, hhead, hlast⟩
  · rw [← List.append_assoc, ← he]
  · intro d hd
    rcases List.mem_append.mp hd with hd | hd
    · exact hr d hd
    · rwa [List.mem_singleton.mp hd]

/-- A carriage return at the end of a line is lost in its comment or belongs to what
    remains. -/
theorem beforeComment_concat_return (cs : List Char) :
    beforeComment (cs ++ ['\r']) = beforeComment cs ∨ beforeComment (cs ++ ['\r']) = beforeComment cs ++ ['\r'] := by
  fun_induction beforeComment cs with
  | case1 => exact .inr rfl
  | case2 rest => exact .inl rfl
  | case3 c rest hne ih =>
    have hopen : ∀ after, c = '/' → rest ++ ['\r'] ≠ '/' :: after := by
      rintro after rfl he
      cases rest with
      | nil => cases he
      | cons d rest => exact hne rest rfl (by rw [(List.cons.inj he).1])
    rw [List.cons_append, beforeComment]
    · exact ih.imp (congrArg _) (congrArg _)
    · exact hopen

theorem remains_withoutReturn (raw : List Char) :
    trim (beforeComment (withoutReturn raw)) = trim (beforeComment raw) := by
  unfold withoutReturn
  split
  · rename_i h
    obtain ⟨front, rfl⟩ := List.getLast?_eq_some_iff.mp h
    rw [List.dropLast_concat]
    rcases beforeComment_concat_return front with he | he
    · rw [he]
    · rw [he, trim_concat_of_isBlank rfl]
  · rfl

end Text

namespace SourceUnit

theorem readFrom_withoutReturn (unit : String) (number : Nat) (raws : List (List Char)) :
    readFrom unit number (raws.map Text.withoutReturn) = readFrom unit number raws := by
  induction raws generalizing number with
  | nil => rfl
  | cons raw raws ih => simp only [List.map_cons, readFrom, SourceLine.read?, Text.remains_withoutReturn, ih]

/-- Carriage returns at the ends of lines, and an empty line at the end of the text, change
    nothing. -/
theorem lines_eq_readFrom_fileLines (u : SourceUnit) : u.lines = readFrom u.name 1 (Text.fileLines u.source.toList) := by
  have hne : Text.lines u.source.toList ≠ [] := (Text.lines_eq_iff.mp rfl).nonempty
  obtain ⟨front, last, hlines⟩ : ∃ front last, Text.lines u.source.toList = front ++ [last] :=
    ⟨_, _, (List.dropLast_append_getLast hne).symm⟩
  rw [lines, Text.fileLines, hlines, List.dropLast_concat, List.getLast?_concat, readFrom_append, readFrom_append,
    readFrom_withoutReturn, List.length_map]
  cases last <;> rfl

end SourceUnit

/-- Two texts with a line feed between them. If the first cannot be read, neither can both,
    and the error is the same. If the second alone cannot be read, the error is its own but
    for the line, which is further down by the lines of the first. If both can be read, the
    lines of the first are followed by those of the second, further down by as much and
    otherwise unchanged. -/
theorem sources_concatenate (name first second : String) :
    (∀ e, (⟨name, first⟩ : SourceUnit).lines = .error e →
      (⟨name, first ++ "\n" ++ second⟩ : SourceUnit).lines = .error e) ∧
    (∀ ls e, (⟨name, first⟩ : SourceUnit).lines = .ok ls → (⟨name, second⟩ : SourceUnit).lines = .error e →
      ∃ place fault, e = .instruction place fault ∧ (⟨name, first ++ "\n" ++ second⟩ : SourceUnit).lines =
        .error (.instruction { place with line := place.line + (1 + first.toList.count '\n') } fault)) ∧
    ∀ ls ls', (⟨name, first⟩ : SourceUnit).lines = .ok ls → (⟨name, second⟩ : SourceUnit).lines = .ok ls' →
      (⟨name, first ++ "\n" ++ second⟩ : SourceUnit).lines =
        .ok (ls ++ ls'.map fun l => { l with line := l.line + (1 + first.toList.count '\n') }) := by
  refine ⟨fun e he => ?_, fun ls e hls he => ?_, fun ls ls' hls hls' => ?_⟩
  · rw [SourceUnit.lines_append, he]
  · obtain ⟨n, text, fault, rfl, -, -⟩ := SourceUnit.first_of_lines_error he
    refine ⟨_, fault, rfl, ?_⟩
    rw [SourceUnit.lines_append, hls, he]
    rfl
  · rw [SourceUnit.lines_append, hls, hls']
    rfl

/-- A text that ends in a comment and a carriage return stands in front of one that begins
    with an empty line, and of one whose second line cannot be read; and this one stands in
    front of it. -/
theorem sources_concatenate_commented :
    (⟨"A", "add // sum\r" ++ "\n" ++ "\nneg\n"⟩ : SourceUnit).lines =
        .ok [⟨.operation (.binary .add), 1, "add"⟩, ⟨.operation (.unary .neg), 3, "neg"⟩] ∧
      (⟨"A", "add // sum\r" ++ "\n" ++ "neg\nmul\n"⟩ : SourceUnit).lines =
        .error (.instruction ⟨"A", 3, "mul"⟩ (.unknownKeyword "mul")) ∧
      (⟨"A", "neg\nmul\n" ++ "\n" ++ "add // sum\r"⟩ : SourceUnit).lines =
        .error (.instruction ⟨"A", 2, "mul"⟩ (.unknownKeyword "mul")) := by
  have hsum : (⟨"A", "add // sum\r"⟩ : SourceUnit).lines = .ok [⟨.operation (.binary .add), 1, "add"⟩] := by
    decide +kernel
  have hneg : (⟨"A", "\nneg\n"⟩ : SourceUnit).lines = .ok [⟨.operation (.unary .neg), 2, "neg"⟩] := by decide +kernel
  have hmul : (⟨"A", "neg\nmul\n"⟩ : SourceUnit).lines =
      .error (.instruction ⟨"A", 2, "mul"⟩ (.unknownKeyword "mul")) := by decide +kernel
  obtain ⟨place, fault, he, hlater⟩ := (sources_concatenate "A" "add // sum\r" "neg\nmul\n").2.1 _ _ hsum hmul
  obtain ⟨rfl, rfl⟩ := Error.instruction.inj he
  exact ⟨(sources_concatenate "A" "add // sum\r" "\nneg\n").2.2 _ _ hsum hneg, hlater,
    (sources_concatenate "A" "neg\nmul\n" "add // sum\r").1 _ hmul⟩

end StackToHack
