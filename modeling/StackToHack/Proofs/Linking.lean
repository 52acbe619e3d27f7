/-
  StackToHack.Proofs.Linking — what the assembler makes of statements.

  A statement is `Sound` if its words are those of a source and its number can be loaded.
  Written out, a sound statement is one line, or none if it is a comment, and the line is
  read back as the statement. So the orders of a piece of code stand together in the
  program, at the place that `size` counts, and each symbol in them has its value.
  - `lines_write`: the lines of code put together.
  - `codeAt_of_assemble`: where the orders of a piece of code stand.
  - `lookup_of_assemble`: where a label lies.
-/

import Mathlib.Data.List.Basic
import StackToHack.Proofs.Labels
import StackToHack.Proofs.Assembling
import StackToHack.Proofs.Execution

namespace StackToHack

/-! ## Text without blanks -/

namespace Text

def isSymbolChar (c : Char) : Bool :=
  Name.isIdentifierChar c || c == '$'

theorem isSymbolChar_of_isAlphanum {c : Char} (h : c.isAlphanum = true) : isSymbolChar c = true := by
  simp [isSymbolChar, Name.isIdentifierChar, h]

/-- Symbols hold no blanks. -/
theorem isBlank_eq_false {c : Char} (h : isSymbolChar c = true) : isBlank c = false := by
  by_contra hb
  have hb : isBlank c = true := by simpa using hb
  have hr : (9 ≤ c.toNat ∧ c.toNat ≤ 13) ∨ c.toNat = 32 ∨ 133 ≤ c.toNat := by
    simp only [isBlank, blankRanges, List.any_cons, List.any_nil, Bool.or_false, Bool.or_eq_true, Bool.and_eq_true,
      decide_eq_true_eq] at hb
    omega
  have hc : c = '_' ∨ c = '.' ∨ c = ':' ∨ c = '$' ∨ c.isAlphanum = true := by
    simp only [isSymbolChar, Name.isIdentifierChar, Bool.or_eq_true, beq_iff_eq] at h
    tauto
  rcases hc with rfl | rfl | rfl | rfl | ha
  · revert hr; decide
  · revert hr; decide
  · revert hr; decide
  · revert hr; decide
  · have hn : (48 ≤ c.toNat ∧ c.toNat ≤ 57) ∨ (65 ≤ c.toNat ∧ c.toNat ≤ 90) ∨ (97 ≤ c.toNat ∧ c.toNat ≤ 122) := by
      have ha : ((decide (65 ≤ c.val ∧ c.val ≤ 90) || (decide (97 ≤ c.val) && decide (c.val ≤ 122))) ||
          (decide (48 ≤ c.val) && decide (c.val ≤ 57))) = true := ha
      simp only [Bool.or_eq_true, Bool.and_eq_true, decide_eq_true_eq, UInt32.le_iff_toNat_le] at ha
      simp at ha
      simp only [Char.toNat]
      omega
    omega

theorem ne_of_isSymbolChar {c d : Char} (h : isSymbolChar c = true) (hd : isSymbolChar d = false) : c ≠ d := by
  rintro rfl
  rw [h] at hd
  cases hd

/-- Neither blanks nor slashes, so no comment and nothing to trim. -/
def Plain (cs : List Char) : Prop :=
  ∀ c ∈ cs, isBlank c = false ∧ c ≠ '/'

instance (cs : List Char) : Decidable (Plain cs) :=
  List.decidableBAll (fun c => isBlank c = false ∧ c ≠ '/') cs

theorem plain_of_isSymbolChar {cs : List Char} (h : ∀ c ∈ cs, isSymbolChar c = true) : Plain cs :=
  fun c hc => ⟨isBlank_eq_false (h c hc), ne_of_isSymbolChar (h c hc) rfl⟩

theorem Plain.append {first second : List Char} (h₁ : Plain first) (h₂ : Plain second) : Plain (first ++ second) := by
  intro c hc
  rcases List.mem_append.mp hc with hc | hc
  · exact h₁ c hc
  · exact h₂ c hc

theorem Plain.beforeComment {cs : List Char} (h : Plain cs) : beforeComment cs = cs := by
  fun_induction Text.beforeComment cs with
  | case1 => rfl
  | case2 => exact absurd rfl (h '/' List.mem_cons_self).2
  | case3 c rest _ ih => rw [ih fun c hc => h c (List.mem_cons_of_mem _ hc)]

theorem Plain.trim {cs : List Char} (h : Plain cs) : trim cs = cs := by
  apply trim_eq_self
  · cases cs with
    | nil => rfl
    | cons c rest => simp [(h c List.mem_cons_self).1]
  · cases hl : cs.getLast? with
    | none => rfl
    | some c => simp [(h c (List.mem_of_getLast? hl)).1]

theorem lines_of_notMem {cs : List Char} (h : '\n' ∉ cs) : lines cs = [cs] := by
  rw [lines, List.splitOn_eq_splitOnP]
  apply List.splitOnP_eq_singleton
  intro c hc
  simp only [beq_eq_false_iff_ne]
  rintro rfl
  exact h hc

theorem Plain.lines {cs : List Char} (h : Plain cs) : lines cs = [cs] := by
  apply lines_of_notMem
  intro hn
  have := (h _ hn).1
  revert this
  decide

end Text

/-! ## Lines of code -/

namespace Assembler

theorem lines_append (first second : String) : lines (first ++ "\n" ++ second) = lines first ++ lines second := by
  have e : (first ++ "\n" ++ second).toList = first.toList ++ '\n' :: second.toList := by simp
  simp only [lines, e, Text.lines_append, List.map_append, List.filter_append]

theorem lines_write (code : List Statement) : lines (Statement.write code) = code.flatMap fun s => lines s.text := by
  induction code with
  | nil => rfl
  | cons s code ih =>
    have e : Statement.write (s :: code) = s.text ++ "\n" ++ Statement.write code := by simp [Statement.write]
    rw [e, lines_append, ih, List.flatMap_cons]

theorem lines_plain {s : String} (hne : s.toList ≠ []) (h : Text.Plain s.toList) : lines s = [s.toList] := by
  simp [lines, h.lines, h.beforeComment, h.trim, hne]

theorem lines_comment {words : String} (h : '\n' ∉ words.toList) : lines ("// " ++ words) = [] := by
  have e : ("// " ++ words).toList = '/' :: '/' :: ' ' :: words.toList := by simp
  have hn : '\n' ∉ ('/' :: '/' :: ' ' :: words.toList) := by simp [h]
  rw [lines, e, Text.lines_of_notMem hn]
  rfl

/-- How many orders the lines of code become. -/
def size (code : List Statement) : Nat :=
  (lines (Statement.write code)).countP (!opens ·)

/-- How many lines of code the passes disagree on. -/
def drift (code : List Statement) : Nat :=
  (lines (Statement.write code)).countP unclosed

theorem size_append (first second : List Statement) : size (first ++ second) = size first + size second := by
  simp [size, lines_write]

theorem drift_append (first second : List Statement) : drift (first ++ second) = drift first + drift second := by
  simp [drift, lines_write]

end Assembler

/-! ## Sound symbols and statements -/

namespace Symbol

def Sound : Symbol → Prop
  | procedure f => Name.IsProcedure f
  | label p l => Name.IsProcedure p ∧ Name.IsLabel l
  | returnAddress p _ => Name.IsProcedure p
  | static u _ => Name.isIdentifier u = true
  | _ => True

def IsWord (word : String) : Prop :=
  ∀ c ∈ word.toList, Text.isSymbolChar c = true

instance (word : String) : Decidable (IsWord word) :=
  List.decidableBAll (fun c => Text.isSymbolChar c = true) word.toList

theorem IsWord.append {first second : String} (h₁ : IsWord first) (h₂ : IsWord second) : IsWord (first ++ second) := by
  intro c hc
  rw [String.toList_append] at hc
  rcases List.mem_append.mp hc with hc | hc
  · exact h₁ c hc
  · exact h₂ c hc

theorem isIdentifierChar_of_mem {word : String} (h : Name.isIdentifier word = true) {c : Char} (hc : c ∈ word.toList) :
    Name.isIdentifierChar c = true := by
  unfold Name.isIdentifier at h
  split at h
  · cases h
  · rename_i d rest e
    rw [e] at hc
    exact List.all_eq_true.mp (Bool.and_eq_true_iff.mp h).2 c hc

theorem isWord_of_isIdentifier {word : String} (h : Name.isIdentifier word = true) : IsWord word := by
  intro c hc
  simp [Text.isSymbolChar, isIdentifierChar_of_mem h hc]

theorem isWord_repr (n : Nat) : IsWord n.repr := by
  intro c hc
  apply Text.isSymbolChar_of_isAlphanum
  simp [Char.isAlphanum, isDigit_of_mem_repr hc]

theorem isWord_text {s : Symbol} (h : s.Sound) : IsWord s.text := by
  have separators : IsWord "$" ∧ IsWord "$ret." ∧ IsWord "TRUE_" ∧ IsWord "DONE_" ∧ IsWord "." := by
    decide
  obtain ⟨h₁, h₂, h₃, h₄, h₅⟩ := separators
  cases s with
  | predefined p => exact fun c hc => Text.isSymbolChar_of_isAlphanum (isAlphanum_of_mem_name p c hc)
  | procedure f => exact isWord_of_isIdentifier h.2
  | label p l => exact ((isWord_of_isIdentifier h.1.2).append h₁).append (isWord_of_isIdentifier h.2.2)
  | returnAddress p n => exact ((isWord_of_isIdentifier h.2).append h₂).append (isWord_repr n)
  | holds n => exact h₃.append (isWord_repr n)
  | done n => exact h₄.append (isWord_repr n)
  | halt =>
    decide
  | static u i => exact ((isWord_of_isIdentifier h).append h₅).append (isWord_repr i)

theorem head_of_isIdentifier {word : String} (h : Name.isIdentifier word = true) :
    ∃ c rest, word.toList = c :: rest ∧ c.isDigit = false ∧ c ≠ '+' := by
  have hall := isWord_of_isIdentifier h
  unfold Name.isIdentifier at h
  split at h
  · cases h
  · rename_i c rest e
    refine ⟨c, rest, e, ?_, ?_⟩
    · simpa using (Bool.and_eq_true_iff.mp h).1
    · exact Text.ne_of_isSymbolChar (hall c (by rw [e]; exact List.mem_cons_self)) rfl

/-- No symbol begins like a number. -/
theorem head_text {s : Symbol} (h : s.Sound) : ∃ c rest, s.text.toList = c :: rest ∧ c.isDigit = false ∧ c ≠ '+' := by
  have hcons : ∀ {word : String}, Name.isIdentifier word = true → ∀ more : List Char,
      ∃ c rest, word.toList ++ more = c :: rest ∧ c.isDigit = false ∧ c ≠ '+' := by
    intro word hw more
    obtain ⟨c, rest, e, hd, hp⟩ := head_of_isIdentifier hw
    exact ⟨c, rest ++ more, by rw [e]; rfl, hd, hp⟩
  cases s with
  | predefined p =>
    cases p with
    | register n => exact ⟨'R', n.val.repr.toList, by rw [text, Predefined.name, String.toList_append]; rfl, rfl, by decide⟩
    | _ => exact ⟨_, _, rfl, rfl, by decide⟩
  | procedure f => exact head_of_isIdentifier h.2
  | label p l =>
    rw [text, String.toList_append, String.toList_append, List.append_assoc]
    exact hcons h.1.2 _
  | returnAddress p n =>
    rw [text, String.toList_append, String.toList_append, List.append_assoc]
    exact hcons h.2 _
  | holds n => exact ⟨'T', _, by rw [text, String.toList_append]; rfl, rfl, by decide⟩
  | done n => exact ⟨'D', _, by rw [text, String.toList_append]; rfl, rfl, by decide⟩
  | halt => exact ⟨_, _, rfl, rfl, by decide⟩
  | static u i =>
    rw [text, String.toList_append, String.toList_append, List.append_assoc]
    exact hcons h _

/-! ## What a symbol stands for -/

theorem unsigned?_text {s : Symbol} (h : s.Sound) : Text.unsigned? s.text.toList = none := by
  obtain ⟨c, rest, e, hd, hp⟩ := head_text h
  exact unsigned?_eq_none_of_mem (c := c) (by rw [e]; exact List.mem_cons_self) hd hp

theorem ofName?_text {s : Symbol} (h : s.Sound) (hs : ∀ p, s ≠ .predefined p) : Predefined.ofName? s.text = none := by
  have hdollar : ∀ {name : String}, '$' ∈ name.toList → Predefined.ofName? name = none := fun hm =>
    ofName?_eq_none_of_mem hm rfl (by decide)
  cases s with
  | predefined p => exact absurd rfl (hs p)
  | procedure f => exact (Name.procedureFault?_eq_none.mp h.1).2.1
  | label p l => exact hdollar (by simp [text])
  | returnAddress p n => exact hdollar (by simp [text])
  | holds n => exact (comparison_plain "TRUE_" n (by decide) (by decide)).2
  | done n => exact (comparison_plain "DONE_" n (by decide) (by decide)).2
  | halt => rfl
  | static u i => exact ofName?_eq_none_of_mem (c := '.') (by simp [text]) rfl (by decide)

end Symbol

namespace Assembler

/-- A number that can be loaded is read as one. -/
theorem filter_unsigned?_repr {n : Nat} (h : n ≤ maxLoad) :
    (Text.unsigned? n.repr.toList).filter (· < 65536) = some n := by
  have hlt : n < 65536 := by
    unfold maxLoad at h
    omega
  rw [Symbol.unsigned?_repr]
  simp [Option.filter, hlt]

theorem resolve_number {n : Nat} (h : n ≤ maxLoad) (places : List (String × Nat)) (met : List String) :
    resolve places met n.repr = .ok (n, met) := by
  simp only [resolve, filter_unsigned?_repr h, if_pos h]

theorem resolve_predefined (p : Predefined) (places : List (String × Nat)) (met : List String) :
    resolve places met p.name = .ok (p.address, met) := by
  have hu := Symbol.unsigned?_text (s := .predefined p) trivial
  simp only [Symbol.text] at hu
  simp only [resolve, hu, Option.filter_none, Predefined.ofName?_name]

theorem resolve_text {s : Symbol} (h : s.Sound) (hs : ∀ p, s ≠ .predefined p) (places : List (String × Nat))
    (met : List String) :
    resolve places met s.text = match places.lookup s.text with
      | some place => .ok (place, met)
      | none => match met.idxOf? s.text with
        | some i => .ok (firstVariable + i, met)
        | none => .ok (firstVariable + met.length, met ++ [s.text]) := by
  have hnumber : (Text.unsigned? s.text.toList).filter (· < 65536) = none := by
    rw [Symbol.unsigned?_text h, Option.filter_none]
  have hname : Predefined.ofName? s.text = none := Symbol.ofName?_text h hs
  unfold resolve
  split
  case h_1 n hn =>
    rw [hnumber] at hn
    cases hn
  case h_2 =>
    split
    case h_1 p hp =>
      rw [hname] at hp
      cases hp
    case h_2 => rfl

end Assembler

namespace Assembled

def value (asm : Assembled) : Symbol → Nat
  | .predefined p => p.address
  | s => match asm.labels.lookup s.text with
    | some place => place
    | none => firstVariable + asm.cells.idxOf s.text

/-- With all variables known, a symbol is read as what it stands for. -/
theorem resolve_value (asm : Assembled) {s : Symbol} (h : s.Sound) :
    ∃ met, Assembler.resolve asm.labels asm.cells s.text = .ok (asm.value s, met) := by
  by_cases hs : ∃ p, s = .predefined p
  · obtain ⟨p, rfl⟩ := hs
    exact ⟨_, Assembler.resolve_predefined p _ _⟩
  · have hs : ∀ p, s ≠ .predefined p := fun p hp => hs ⟨p, hp⟩
    rw [Assembler.resolve_text h hs, value.eq_def]
    cases s with
    | predefined p => exact absurd rfl (hs p)
    | _ =>
      simp only
      split
      · exact ⟨_, rfl⟩
      · rw [List.idxOf_eq_getD_idxOf?]
        cases asm.cells.idxOf? _ with
        | some i => exact ⟨_, rfl⟩
        | none => exact ⟨_, rfl⟩

end Assembled

/-! ## Statements are read back -/

namespace Assembler

theorem notMem_expression (e : Expression) : '=' ∉ e.text.toList ∧ ';' ∉ e.text.toList := by
  cases e <;> decide

theorem notMem_destination (t : Destination) : '=' ∉ t.text.toList := by
  obtain ⟨a, m, d⟩ := t
  cases a <;> cases m <;> cases d <;> decide

theorem notMem_condition (j : Condition) : '=' ∉ j.text.toList := by
  cases j <;> decide

def tailOf (e : Expression) (j : Condition) : String :=
  e.text ++ (if j = .never then "" else ";" ++ j.text)

theorem notMem_tailOf (e : Expression) (j : Condition) : '=' ∉ (tailOf e j).toList := by
  rw [tailOf, String.toList_append, List.mem_append, not_or]
  refine ⟨(notMem_expression e).1, ?_⟩
  split
  · simp
  · rw [String.toList_append, List.mem_append, not_or]
    exact ⟨by decide, notMem_condition j⟩

theorem cutFirst_tailOf (e : Expression) (j : Condition) :
    cutFirst ';' (tailOf e j).toList =
      (e.text.toList, if j = .never then none else some j.text.toList) := by
  rw [tailOf, String.toList_append]
  split
  · simp only [String.toList_empty, List.append_nil]
    exact Symbol.cutFirst_of_notMem (notMem_expression e).2
  · have e' : (";" ++ j.text).toList = ';' :: j.text.toList := by simp
    rw [e']
    exact Symbol.cutFirst_append (notMem_expression e).2 _

def tail (t : Destination) (cs : List Char) : Except Problem Order := do
  match cutFirst ';' cs with
  | (text, none) => return .compute t (← expression text) .never
  | (text, some jump) =>
    let j ← condition jump
    return .compute t (← expression text) j

theorem tail_tailOf (t : Destination) (e : Expression) (j : Condition) :
    tail t (tailOf e j).toList = .ok (.compute t e j) := by
  have he : expression e.text.toList = .ok e := by simp [expression, Expression.ofText?_text]
  rw [tail, cutFirst_tailOf]
  by_cases hj : j = .never
  · subst hj
    simp only [if_true]
    rw [he]
    rfl
  · have hc : condition j.text.toList = .ok j := by simp [condition, Condition.ofText?_text hj]
    simp only [if_neg hj]
    rw [hc, he]
    rfl

/-- A computation is read back. -/
theorem computation_text (t : Destination) (e : Expression) (j : Condition) :
    computation (Statement.compute t e j).text.toList = .ok (.compute t e j) := by
  by_cases ht : t = .nowhere
  · have hline : (Statement.compute t e j).text = tailOf e j := by
      rw [Statement.text, if_pos ht, String.append_assoc, String.empty_append]
      rfl
    subst ht
    rw [hline, computation, Symbol.cutFirst_of_notMem (notMem_tailOf e j)]
    exact tail_tailOf _ e j
  · have hline : (Statement.compute t e j).text.toList = t.text.toList ++ '=' :: (tailOf e j).toList := by
      rw [Statement.text, if_neg ht, tailOf]
      simp
    have hd : destination t.text.toList = .ok t := by simp [destination, Destination.ofText?_text ht]
    rw [hline, computation, Symbol.cutFirst_append (notMem_destination t)]
    simp only [hd]
    exact tail_tailOf t e j

end Assembler

namespace Statement

/-- The words are those of a source, and the number can be loaded. -/
def Sound : Statement → Prop
  | comment words => '\n' ∉ words.toList
  | load s => s.Sound
  | loadNumber n => n ≤ maxLoad
  | compute _ _ _ => True
  | label s => s.Sound

def line? (s : Statement) : Option (List Char) :=
  match s with
  | comment _ => none
  | _ => some s.text.toList

def order? (value : Symbol → Nat) : Statement → Option Order
  | comment _ => none
  | load s => some (.load (BitVec.ofNat 16 (value s)))
  | loadNumber n => some (.load (BitVec.ofNat 16 n))
  | compute t e j => some (.compute t e j)
  | label _ => none

def isOrder : Statement → Bool
  | comment _ => false
  | label _ => false
  | _ => true

theorem length_orders (value : Symbol → Nat) (code : List Statement) :
    (code.filterMap (order? value)).length = code.countP isOrder := by
  rw [List.length_filterMap_eq_countP]
  apply List.countP_congr
  intro s _
  cases s <;> simp [order?, isOrder]

theorem plain_text_compute (t : Destination) (e : Expression) (j : Condition) :
    Text.Plain (compute t e j).text.toList := by
  have he : Text.Plain e.text.toList := by
    cases e <;> decide
  have ht : Text.Plain t.text.toList := by
    obtain ⟨a, m, d⟩ := t
    cases a <;> cases m <;> cases d <;> decide
  have hj : Text.Plain j.text.toList := by
    cases j <;> decide
  have marks : Text.Plain [] ∧ Text.Plain ['='] ∧ Text.Plain [';'] := by
    decide
  rw [text, String.toList_append, String.toList_append]
  refine (Text.Plain.append ?_ he).append ?_
  · split
    · exact marks.1
    · rw [String.toList_append]
      exact ht.append marks.2.1
  · split
    · exact marks.1
    · rw [String.toList_append]
      exact marks.2.2.append hj

theorem plain_symbol {s : Symbol} (h : s.Sound) : Text.Plain s.text.toList :=
  Text.plain_of_isSymbolChar (Symbol.isWord_text h)

theorem plain_line {s : Statement} {line : List Char} (h : s.Sound) (hl : s.line? = some line) : Text.Plain line := by
  have marks : Text.Plain ['@'] ∧ Text.Plain ['('] ∧ Text.Plain [')'] := by
    decide
  cases s with
  | comment words => cases hl
  | load s =>
    obtain rfl := Option.some.inj hl
    rw [text, String.toList_append]
    exact marks.1.append (plain_symbol h)
  | loadNumber n =>
    obtain rfl := Option.some.inj hl
    rw [text, String.toList_append]
    exact marks.1.append (Text.plain_of_isSymbolChar (Symbol.isWord_repr n))
  | compute t e j =>
    obtain rfl := Option.some.inj hl
    exact plain_text_compute t e j
  | label s =>
    obtain rfl := Option.some.inj hl
    rw [text, String.toList_append, String.toList_append]
    exact (marks.2.1.append (plain_symbol h)).append marks.2.2

theorem lines_text {s : Statement} (h : s.Sound) : Assembler.lines s.text = s.line?.toList := by
  cases s with
  | comment words => exact Assembler.lines_comment h
  | load s | label s => exact Assembler.lines_plain (by simp [text]) (plain_line h rfl)
  | loadNumber n =>
    refine Assembler.lines_plain ?_ (plain_line h rfl)
    rw [text, String.toList_append]
    exact List.cons_ne_nil _ _
  | compute t e j =>
    refine Assembler.lines_plain ?_ (plain_line h rfl)
    cases e <;> simp [text, Expression.text]

theorem labelOf?_text_label (s : Symbol) : Assembler.labelOf? (label s).text.toList = some s.text := by
  rw [toList_text_label, Assembler.labelOf?]
  simp

theorem opens_line {s : Statement} {line : List Char} (h : s.line? = some line) :
    Assembler.opens line = s.symbol?.isSome := by
  cases s with
  | comment words => cases h
  | load s | loadNumber n =>
    cases h
    simp [Assembler.opens, text, symbol?]
  | compute t e j =>
    cases h
    simp only [Assembler.opens, symbol?, Option.isSome_none, beq_eq_false_iff_ne]
    exact head_text_compute t e j (.inl rfl)
  | label s =>
    cases h
    simp [Assembler.opens, text, symbol?]

theorem labelOf?_line {s : Statement} {line : List Char} (h : s.line? = some line) :
    Assembler.labelOf? line = s.symbol?.map Symbol.text := by
  cases hs : s.symbol? with
  | none =>
    cases hl : Assembler.labelOf? line with
    | none => rfl
    | some name =>
      have := Assembler.opens_of_labelOf? hl
      rw [opens_line h, hs] at this
      cases this
  | some symbol =>
    cases s with
    | label s =>
      cases h
      cases hs
      exact labelOf?_text_label _
    | _ => cases hs

theorem unclosed_line {s : Statement} {line : List Char} (h : s.line? = some line) :
    Assembler.unclosed line = false := by
  rw [Assembler.unclosed, opens_line h, labelOf?_line h]
  cases s.symbol? <;> rfl

/-- Of the lines that the assembler sees, it reads those of the orders as orders. -/
theorem filter_line? (s : Statement) :
    s.line?.filter (!Assembler.opens ·) = if s.isOrder then some s.text.toList else none := by
  cases hl : s.line? with
  | none =>
    cases s with
    | comment words => rfl
    | _ => cases hl
  | some line =>
    rw [Option.filter_some, opens_line hl]
    cases s with
    | comment words => cases hl
    | label s => rfl
    | _ => exact hl.symm

/-- A sound order is read back. -/
theorem order_text {asm : Assembled} {s : Statement} (hs : s.Sound) (ho : s.isOrder = true) :
    (s.order? asm.value).map .ok = some (Assembler.order asm.labels asm.cells s.text.toList) := by
  cases s with
  | comment words | label symbol => cases ho
  | load symbol =>
    obtain ⟨met, hv⟩ := asm.resolve_value hs
    rw [toList_text_load]
    simp only [Assembler.order, String.ofList_toList, hv]
    rfl
  | loadNumber n =>
    rw [toList_text_loadNumber]
    simp only [Assembler.order, String.ofList_toList, Assembler.resolve_number hs]
    rfl
  | compute t e j =>
    have ha : (compute t e j).text.toList.head? ≠ some '@' := head_text_compute t e j (.inr (.inl rfl))
    have hopen : Assembler.opens (compute t e j).text.toList = false := @opens_line (compute t e j) _ rfl
    rw [(Assembler.orders_computation hopen ha asm.labels asm.cells []).1, Assembler.computation_text]
    rfl

/-- The line of a sound statement can be read, whatever the symbols stand for. -/
theorem legible_line {s : Statement} (hs : s.Sound) {line : List Char} (h : s.line? = some line) :
    Assembler.Legible line := by
  cases s with
  | comment words => cases h
  | load symbol =>
    cases h
    rw [toList_text_load]
    refine ⟨fun name he places met => ?_, fun _ hne => absurd rfl hne⟩
    obtain rfl := (List.cons.inj he).2
    rw [String.ofList_toList]
    by_cases hp : ∃ p, symbol = .predefined p
    · obtain ⟨p, rfl⟩ := hp
      exact ⟨_, Assembler.resolve_predefined p places met⟩
    · rw [Assembler.resolve_text hs fun p hsp => hp ⟨p, hsp⟩]
      split
      · exact ⟨_, rfl⟩
      · split <;> exact ⟨_, rfl⟩
  | loadNumber n =>
    cases h
    rw [toList_text_loadNumber]
    refine ⟨fun name he places met => ?_, fun _ hne => absurd rfl hne⟩
    obtain rfl := (List.cons.inj he).2
    rw [String.ofList_toList]
    exact ⟨_, Assembler.resolve_number hs places met⟩
  | compute t e j =>
    cases h
    have ha : (compute t e j).text.toList.head? ≠ some '@' := head_text_compute t e j (.inr (.inl rfl))
    refine ⟨fun name he => absurd (congrArg List.head? he) ha, fun _ _ => ⟨_, Assembler.computation_text t e j⟩⟩
  | label symbol =>
    cases h
    rw [toList_text_label]
    refine ⟨fun name he => ?_, fun ho => ?_⟩
    · cases he
    · cases ho

end Statement

/-! ## Sound code -/

namespace Assembler

theorem lines_of_sound {code : List Statement} (h : ∀ s ∈ code, s.Sound) :
    lines (Statement.write code) = code.filterMap Statement.line? := by
  rw [lines_write]
  induction code with
  | nil => rfl
  | cons s code ih =>
    rw [List.flatMap_cons, Statement.lines_text (h s List.mem_cons_self), ih fun s hs => h s (List.mem_cons_of_mem _ hs),
      List.filterMap_cons]
    cases s.line? <;> rfl

theorem drift_of_sound {code : List Statement} (h : ∀ s ∈ code, s.Sound) : drift code = 0 := by
  rw [drift, lines_of_sound h, List.countP_eq_zero]
  intro line hl
  obtain ⟨s, -, hs⟩ := List.mem_filterMap.mp hl
  simp [Statement.unclosed_line hs]

theorem labels_of_sound {code : List Statement} (h : ∀ s ∈ code, s.Sound) :
    (lines (Statement.write code)).filterMap labelOf? = (code.filterMap Statement.symbol?).map Symbol.text := by
  rw [lines_of_sound h, List.filterMap_filterMap, List.map_filterMap]
  refine List.filterMap_congr fun s _ => ?_
  cases hl : s.line? with
  | none =>
    cases s with
    | comment words => rfl
    | _ => cases hl
  | some line => exact Statement.labelOf?_line hl

theorem legible_of_sound {code : List Statement} (h : ∀ s ∈ code, s.Sound) {line : List Char}
    (hl : line ∈ lines (Statement.write code)) : Legible line := by
  rw [lines_of_sound h] at hl
  obtain ⟨s, hs, hline⟩ := List.mem_filterMap.mp hl
  exact Statement.legible_line (h s hs) hline

/-- The lines of sound code that are no labels are those of its orders. -/
theorem filter_lines_of_sound {code : List Statement} (h : ∀ s ∈ code, s.Sound) :
    (lines (Statement.write code)).filter (!opens ·) =
      (code.filter Statement.isOrder).map (·.text.toList) := by
  rw [lines_of_sound h, List.filter_filterMap, ← List.filterMap_eq_map, List.filterMap_filter]
  exact List.filterMap_congr fun s _ => s.filter_line?

/-- They are read as its orders. -/
theorem map_order_of_sound {asm : Assembled} {code : List Statement} (h : ∀ s ∈ code, s.Sound) :
    ((lines (Statement.write code)).filter (!opens ·)).map (order asm.labels asm.cells) =
      (code.filterMap (Statement.order? asm.value)).map .ok := by
  rw [filter_lines_of_sound h, List.map_map, ← List.filterMap_eq_map, List.filterMap_filter, List.map_filterMap]
  refine List.filterMap_congr fun s hs => ?_
  cases ho : s.isOrder with
  | true => exact (Statement.order_text (h s hs) ho).symm
  | false =>
    cases s with
    | comment _ | label _ => rfl
    | _ => cases ho

theorem size_of_sound {code : List Statement} (h : ∀ s ∈ code, s.Sound) :
    size code = code.countP Statement.isOrder := by
  rw [size, List.countP_eq_length_filter, filter_lines_of_sound h, List.length_map, List.countP_eq_length_filter]

end Assembler

/-! ## Places in a program -/

namespace Assembled

def link (asm : Assembled) (code : List Statement) : List Order :=
  code.filterMap (Statement.order? asm.value)

theorem link_append (asm : Assembled) (first second : List Statement) :
    asm.link (first ++ second) = asm.link first ++ asm.link second :=
  List.filterMap_append

@[simp] theorem link_nil (asm : Assembled) : asm.link [] = [] := rfl

@[simp] theorem link_load (asm : Assembled) (s : Symbol) (code : List Statement) :
    asm.link (.load s :: code) = .load (BitVec.ofNat 16 (asm.value s)) :: asm.link code := rfl

@[simp] theorem link_loadCell (asm : Assembled) (p : Predefined) (code : List Statement) :
    asm.link (.loadCell p :: code) = .load (BitVec.ofNat 16 p.address) :: asm.link code := rfl

@[simp] theorem link_loadNumber (asm : Assembled) (n : Nat) (code : List Statement) :
    asm.link (.loadNumber n :: code) = .load (BitVec.ofNat 16 n) :: asm.link code := rfl

@[simp] theorem link_assign (asm : Assembled) (t : Destination) (e : Expression) (code : List Statement) :
    asm.link (.assign t e :: code) = .compute t e .never :: asm.link code := rfl

@[simp] theorem link_jump (asm : Assembled) (e : Expression) (j : Condition) (code : List Statement) :
    asm.link (.jump e j :: code) = .compute .nowhere e j :: asm.link code := rfl

@[simp] theorem link_label (asm : Assembled) (s : Symbol) (code : List Statement) :
    asm.link (.label s :: code) = asm.link code := rfl

theorem length_link (asm : Assembled) (code : List Statement) : (asm.link code).length = code.countP Statement.isOrder :=
  Statement.length_orders asm.value code

end Assembled

/-- The orders of sound code stand together, behind those of the code before. -/
theorem codeAt_of_assemble {asm : Assembled} {before code after : List Statement}
    (h : Assembler.assemble (Statement.write (before ++ code ++ after)) = .ok asm) (hs : ∀ s ∈ code, s.Sound) :
    CodeAt asm.orders (Assembler.size before) (asm.link code) := by
  obtain ⟨-, ho⟩ := Assembler.assemble_ok h
  obtain ⟨-, -, hmap⟩ := Assembler.orders_map ho
  have hlines : Assembler.lines (Statement.write (before ++ code ++ after)) =
      Assembler.lines (Statement.write before) ++ Assembler.lines (Statement.write code) ++
        Assembler.lines (Statement.write after) := by
    simp only [Assembler.lines_write, List.flatMap_append]
  rw [hlines, List.filter_append, List.filter_append, List.map_append, List.map_append,
    Assembler.map_order_of_sound hs] at hmap
  obtain ⟨front, back, hsplit, hfront, -⟩ := List.map_eq_append_iff.mp hmap.symm
  obtain ⟨first, middle, rfl, hfirst, hmiddle⟩ := List.map_eq_append_iff.mp hfront
  obtain rfl := List.map_injective_iff.mpr (fun a b h => Except.ok.inj h) hmiddle
  have hsize : Assembler.size before = first.length := by
    have := congrArg List.length hfirst
    rw [List.length_map, List.length_map, ← List.countP_eq_length_filter] at this
    exact this.symm
  rw [hsplit, hsize]
  exact codeAt_of_append first _ back

theorem length_orders_of_assemble {asm : Assembled} {code : List Statement}
    (h : Assembler.assemble (Statement.write code) = .ok asm) : asm.orders.length = Assembler.size code := by
  obtain ⟨-, ho⟩ := Assembler.assemble_ok h
  obtain ⟨-, -, hmap⟩ := Assembler.orders_map ho
  have := congrArg List.length hmap
  rw [List.length_map, List.length_map, ← List.countP_eq_length_filter] at this
  exact this.symm

/-- No label lies further behind the program than the passes disagree. -/
theorem le_of_lookup {asm : Assembled} {code : List Statement} (h : Assembler.assemble (Statement.write code) = .ok asm)
    {name : String} {place : Nat} (hl : asm.labels.lookup name = some place) :
    place ≤ asm.orders.length + Assembler.drift code := by
  have hle := (Assembler.mem_of_lookup (Assembler.assemble_ok h).1 hl).2
  rw [Assembler.countP_unlabelled] at hle
  rw [length_orders_of_assemble h]
  exact hle

/-- A label lies behind the orders before it and the lines that the passes disagree on. -/
theorem lookup_of_assemble {asm : Assembled} {before after : List Statement} {s : Symbol}
    (h : Assembler.assemble (Statement.write (before ++ .label s :: after)) = .ok asm) (hs : s.Sound) :
    asm.labels.lookup s.text = some (Assembler.size before + Assembler.drift before) := by
  obtain ⟨hl, -⟩ := Assembler.assemble_ok h
  have hlines : Assembler.lines (Statement.write (before ++ .label s :: after)) =
      Assembler.lines (Statement.write before) ++ (Statement.label s).text.toList ::
        Assembler.lines (Statement.write after) := by
    simp only [Assembler.lines_write, List.flatMap_append, List.flatMap_cons,
      @Statement.lines_text (.label s) hs]
    rfl
  rw [hlines] at hl
  rw [Assembler.lookup_of_mem hl (Statement.labelOf?_text_label s), Assembler.countP_unlabelled]
  rfl

theorem value_of_lookup {asm : Assembled} {s : Symbol} {place : Nat} (h : asm.labels.lookup s.text = some place)
    (hs : ∀ p, s ≠ .predefined p) : asm.value s = place := by
  cases s with
  | predefined p => exact absurd rfl (hs p)
  | _ => simp only [Assembled.value, h]

end StackToHack
