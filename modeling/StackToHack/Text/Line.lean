/-
  StackToHack.Text.Line — lines, what a comment leaves of one, and its words.

  - `lines` cuts at every line feed, `lines_append`; a carriage return stays with its
    line, as a blank.
  - `beforeComment` keeps what stands before the first `//`.
  - `words` are the longest runs without a space or a tab. Other white space is part of
    a word.
  - `cutLast?` cuts at the last occurrence of a character, `cutLast?_eq_some`.
-/

namespace StackToHack.Text

def lines (cs : List Char) : List (List Char) :=
  cs.splitOn '\n'

theorem lines_append (first second : List Char) : lines (first ++ '\n' :: second) = lines first ++ lines second := by
  simp only [lines, List.splitOn_eq_splitOnP]
  exact List.splitOnP_append_cons first second (beq_self_eq_true _)

def beforeComment : List Char → List Char
  | [] => []
  | '/' :: '/' :: _ => []
  | c :: rest => c :: beforeComment rest

/-- Words stand apart by these characters only. -/
def isGap (c : Char) : Bool :=
  c == ' ' || c == '\t'

def words (cs : List Char) : List String :=
  ((cs.splitOnP isGap).filter (!·.isEmpty)).map String.ofList

def cutLast? (sep : Char) : List Char → Option (List Char × List Char)
  | [] => none
  | c :: rest => match cutLast? sep rest with
    | some (before, after) => some (c :: before, after)
    | none => if c = sep then some ([], rest) else none

theorem cutLast?_eq_none {sep : Char} {cs : List Char} : cutLast? sep cs = none ↔ sep ∉ cs := by
  induction cs with
  | nil => simp [cutLast?]
  | cons c rest ih =>
    cases h : cutLast? sep rest with
    | none =>
      have := ih.mp h
      by_cases hc : c = sep
      · simp [cutLast?, h, hc]
      · simp [cutLast?, h, hc, this, Ne.symm hc]
    | some p =>
      have : sep ∈ rest := Decidable.byContradiction fun hn => by simp [ih.mpr hn] at h
      simp [cutLast?, h, this]

theorem cutLast?_append {sep : Char} (before : List Char) {after : List Char} (h : sep ∉ after) :
    cutLast? sep (before ++ sep :: after) = some (before, after) := by
  induction before with
  | nil => simp [cutLast?, cutLast?_eq_none.mpr h]
  | cons c before ih => simp [cutLast?, ih]

theorem cutLast?_eq_some {sep : Char} {cs before after : List Char} :
    cutLast? sep cs = some (before, after) ↔ cs = before ++ sep :: after ∧ sep ∉ after := by
  constructor
  · intro h
    fun_induction cutLast? sep cs generalizing before after with
    | case1 => simp at h
    | case2 c rest x y hxy ih =>
      obtain ⟨rfl, rfl⟩ : c :: x = before ∧ y = after := by simpa using h
      obtain ⟨rfl, hn⟩ := ih hxy
      exact ⟨rfl, hn⟩
    | case3 rest hn =>
      obtain ⟨rfl, rfl⟩ : [] = before ∧ rest = after := by simpa using h
      exact ⟨rfl, cutLast?_eq_none.mp hn⟩
    | case4 => simp at h
  · rintro ⟨rfl, hn⟩
    exact cutLast?_append before hn

end StackToHack.Text
