/-
  StackToHack.Proofs.Cuts — what a text is cut into, said without the cutting.

  A source is cut into lines, a line loses its comment and the blanks around the rest, and
  what remains is cut into words. Each cut is compared with a description of its pieces
  that puts the text together again.
  - `lines_eq_iff`: the lines, with a line feed between two, make up the text.
  - `remains_iff`: a line is blanks, the text that remains, blanks and a comment.
  - `words_eq_iff`: words in order, a run of spaces and tabs between two, make up the text.
-/

import Mathlib.Data.List.TakeWhile
import StackToHack.Proofs.Reading

namespace StackToHack.Text

/-! ## Lines -/

structure IsLines (cs : List Char) (pieces : List (List Char)) : Prop where
  nonempty : pieces ≠ []
  unbroken : ∀ piece ∈ pieces, '\n' ∉ piece
  joined : ['\n'].intercalate pieces = cs

theorem lines_eq_iff {cs : List Char} {pieces : List (List Char)} : lines cs = pieces ↔ IsLines cs pieces := by
  constructor
  · rintro rfl
    refine ⟨?_, fun _ h => notMem_of_mem_lines h, List.intercalate_splitOn _⟩
    rw [lines, List.splitOn_eq_splitOnP]
    exact List.splitOnP_ne_nil _ _
  · rintro ⟨hne, hunbroken, rfl⟩
    exact List.splitOn_intercalate _ hunbroken hne

/-! ## Comments -/

def OpensComment (cs : List Char) : Prop :=
  ['/', '/'] <+: cs

/-- What stands before the first `//` of a line, or the whole line. -/
def IsFront (raw front : List Char) : Prop :=
  ∃ comment, raw = front ++ comment ∧ (comment = [] ∨ OpensComment comment) ∧
    ∀ n < front.length, ¬ OpensComment (raw.drop n)

theorem isFront_nil_iff {raw : List Char} : IsFront raw [] ↔ raw = [] ∨ OpensComment raw := by
  simp [IsFront]

/-- Where no comment starts, a character belongs to the front. -/
theorem isFront_cons_iff {c : Char} {rest front : List Char} (h : ¬ OpensComment (c :: rest)) :
    IsFront (c :: rest) front ↔ ∃ front', front = c :: front' ∧ IsFront rest front' := by
  constructor
  · intro hf
    cases front with
    | nil =>
      rcases isFront_nil_iff.mp hf with he | ho
      · cases he
      · exact absurd ho h
    | cons d front =>
      obtain ⟨comment, he, hc, hn⟩ := hf
      obtain ⟨rfl, rfl⟩ := List.cons.inj he
      refine ⟨front, rfl, comment, rfl, hc, fun n hlt => ?_⟩
      exact hn (n + 1) (Nat.succ_lt_succ hlt)
  · rintro ⟨front, rfl, comment, rfl, hc, hn⟩
    refine ⟨comment, rfl, hc, fun n hlt => ?_⟩
    cases n with
    | zero => exact h
    | succ n => exact hn n (Nat.lt_of_succ_lt_succ hlt)

theorem beforeComment_eq_iff {raw front : List Char} : beforeComment raw = front ↔ IsFront raw front := by
  fun_induction beforeComment raw generalizing front with
  | case1 =>
    constructor
    · rintro rfl
      exact isFront_nil_iff.mpr (.inl rfl)
    · rintro ⟨comment, he, -⟩
      exact (List.append_eq_nil_iff.mp he.symm).1.symm
  | case2 rest =>
    constructor
    · rintro rfl
      exact isFront_nil_iff.mpr (.inr ⟨rest, rfl⟩)
    · rintro ⟨comment, -, -, hn⟩
      -- a front that is not empty would hold the start of this comment
      cases front with
      | nil => rfl
      | cons d front => exact absurd ⟨rest, rfl⟩ (hn 0 (Nat.zero_lt_succ _))
  | case3 c rest hne ih =>
    have hopen : ¬ OpensComment (c :: rest) := by
      rintro ⟨after, he⟩
      obtain ⟨rfl, rfl⟩ := List.cons.inj he
      exact hne after rfl rfl
    rw [isFront_cons_iff hopen]
    constructor
    · rintro rfl
      exact ⟨_, rfl, ih.mp rfl⟩
    · rintro ⟨front, rfl, hf⟩
      rw [ih.mpr hf]

/-! ## Blanks -/

def IsTrimmed (cs text : List Char) : Prop :=
  ∃ left right, cs = left ++ text ++ right ∧ (∀ c ∈ left, isBlank c = true) ∧ (∀ c ∈ right, isBlank c = true) ∧
    (text.head?.all fun c => !isBlank c) = true ∧ (text.getLast?.all fun c => !isBlank c) = true

theorem dropWhile_eq_self {cs : List Char} (h : (cs.head?.all fun c => !isBlank c) = true) :
    cs.dropWhile isBlank = cs := by
  cases cs with
  | nil => rfl
  | cons c cs => simp_all

theorem head?_dropWhile (cs : List Char) : ((cs.dropWhile isBlank).head?.all fun c => !isBlank c) = true := by
  have h := List.head?_dropWhile_not isBlank cs
  cases hd : (cs.dropWhile isBlank).head? with
  | none => rfl
  | some c =>
    rw [hd] at h
    simp [h]

/-- The blanks at the front, and then the rest. -/
theorem exists_blanks (cs : List Char) : ∃ left, cs = left ++ cs.dropWhile isBlank ∧ ∀ c ∈ left, isBlank c = true :=
  ⟨cs.takeWhile isBlank, List.takeWhile_append_dropWhile.symm, fun _ hc => List.mem_takeWhile_imp hc⟩

theorem isTrimmed_trim (cs : List Char) : IsTrimmed cs (trim cs) := by
  obtain ⟨left, hleft, hl⟩ := exists_blanks cs
  obtain ⟨right, hright, hr⟩ := exists_blanks (cs.dropWhile isBlank).reverse
  have hend : cs.dropWhile isBlank = trim cs ++ right.reverse := by
    rw [trim, trimEnd, ← List.reverse_append, ← hright, List.reverse_reverse]
  refine ⟨left, right.reverse, ?_, hl, fun c hc => hr c (List.mem_reverse.mp hc), ?_, ?_⟩
  · rw [List.append_assoc, ← hend]
    exact hleft
  · have hfront := head?_dropWhile cs
    rw [hend] at hfront
    cases ht : trim cs with
    | nil => rfl
    | cons c text =>
      rw [ht] at hfront
      exact hfront
  · rw [trim, trimEnd, List.getLast?_reverse]
    exact head?_dropWhile _

theorem trim_eq_iff {cs text : List Char} : trim cs = text ↔ IsTrimmed cs text := by
  constructor
  · rintro rfl
    exact isTrimmed_trim cs
  · rintro ⟨left, right, rfl, hl, hr, hhead, hlast⟩
    have hrev : ∀ c ∈ right.reverse, isBlank c = true := fun c hc => hr c (List.mem_reverse.mp hc)
    rw [trim, List.append_assoc, List.dropWhile_append_of_pos hl]
    cases text with
    | nil => simp [trimEnd, List.dropWhile_eq_nil_iff.mpr hr]
    | cons c text =>
      rw [dropWhile_eq_self (by simpa using hhead), trimEnd, List.reverse_append, List.dropWhile_append_of_pos hrev,
        dropWhile_eq_self (by rwa [List.head?_reverse]), List.reverse_reverse]

/-- What the comment of a line and the blanks around the rest leave of it. -/
def Remains (raw text : List Char) : Prop :=
  ∃ front, IsFront raw front ∧ IsTrimmed front text

theorem remains_iff {raw text : List Char} : trim (beforeComment raw) = text ↔ Remains raw text := by
  constructor
  · intro h
    exact ⟨_, beforeComment_eq_iff.mp rfl, trim_eq_iff.mp h⟩
  · rintro ⟨front, hf, ht⟩
    rw [beforeComment_eq_iff.mpr hf]
    exact trim_eq_iff.mpr ht

/-! ## Words -/

structure IsWord (cs : List Char) : Prop where
  nonempty : cs ≠ []
  unbroken : ∀ c ∈ cs, isGap c = false

/-- The text consists of the words, in order, with a space or a tab at least between two
    of them and perhaps more of these anywhere outside the words. -/
inductive Spells : List Char → List String → Prop
  | nil : Spells [] []
  | gap {c : Char} {rest : List Char} {ws : List String} : isGap c = true → Spells rest ws → Spells (c :: rest) ws
  | last {word : List Char} : IsWord word → Spells word [String.ofList word]
  | word {word rest : List Char} {c : Char} {ws : List String} : IsWord word → isGap c = true → Spells rest ws →
      Spells (word ++ c :: rest) (String.ofList word :: ws)

theorem words_append_cons {c : Char} (h : isGap c = true) (first rest : List Char) :
    words (first ++ c :: rest) = words first ++ words rest := by
  simp only [words, List.splitOnP_append_cons first rest h, List.filter_append, List.map_append]

theorem words_of_isWord {word : List Char} (h : IsWord word) : words word = [String.ofList word] := by
  have hne : word.isEmpty = false := by simpa using h.nonempty
  rw [words, List.splitOnP_eq_singleton h.unbroken]
  simp [hne]

theorem words_of_spells {cs : List Char} {ws : List String} (h : Spells cs ws) : words cs = ws := by
  induction h with
  | nil => rfl
  | gap hc _ ih => exact (words_append_cons hc [] _).trans ih
  | last hw => exact words_of_isWord hw
  | word hw hc _ ih =>
    rw [words_append_cons hc, words_of_isWord hw, ih]
    rfl

/-- A word that starts a text goes on to the next gap, or to the end. -/
theorem exists_word {c : Char} (hc : isGap c = false) (cs : List Char) :
    ∃ word, IsWord word ∧ (c :: cs = word ∨ ∃ d rest, isGap d = true ∧ c :: cs = word ++ d :: rest) := by
  induction cs generalizing c with
  | nil =>
    refine ⟨[c], ⟨List.cons_ne_nil _ _, ?_⟩, .inl rfl⟩
    simpa using hc
  | cons d cs ih =>
    by_cases hd : isGap d = true
    · refine ⟨[c], ⟨List.cons_ne_nil _ _, ?_⟩, .inr ⟨d, cs, hd, rfl⟩⟩
      simpa using hc
    · obtain ⟨word, hw, he⟩ := ih (by simpa using hd)
      refine ⟨c :: word, ⟨List.cons_ne_nil _ _, ?_⟩, ?_⟩
      · intro e he
        rcases List.mem_cons.mp he with rfl | he
        · exact hc
        · exact hw.unbroken e he
      · rcases he with he | ⟨e, rest, hgap, he⟩
        · exact .inl (by rw [he])
        · exact .inr ⟨e, rest, hgap, by rw [he]; rfl⟩

/-- Every text has words. -/
theorem exists_spells (cs : List Char) : ∃ ws, Spells cs ws := by
  induction hn : cs.length using Nat.strong_induction_on generalizing cs with
  | _ n ih =>
    subst hn
    cases cs with
    | nil => exact ⟨[], .nil⟩
    | cons c cs =>
      by_cases hc : isGap c = true
      · obtain ⟨ws, h⟩ := ih cs.length (Nat.lt_succ_self _) cs rfl
        exact ⟨ws, .gap hc h⟩
      · obtain ⟨word, hw, he | ⟨d, rest, hd, he⟩⟩ := exists_word (by simpa using hc) cs
        · rw [he]
          exact ⟨_, .last hw⟩
        · have hlt : rest.length < (c :: cs).length := by
            rw [he, List.length_append, List.length_cons]
            omega
          obtain ⟨ws, h⟩ := ih rest.length hlt rest rfl
          rw [he]
          exact ⟨_, .word hw hd h⟩

theorem words_eq_iff {cs : List Char} {ws : List String} : words cs = ws ↔ Spells cs ws := by
  constructor
  · rintro rfl
    obtain ⟨ws, h⟩ := exists_spells cs
    rwa [words_of_spells h]
  · exact words_of_spells

end StackToHack.Text
