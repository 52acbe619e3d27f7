/-
  StackToHack.Proofs.Grammar — the grammar of sources, and what the reader makes of it.

  `Grammar` has a rule for each form of instruction: the words that write it, names and
  numbers told by their characters. It does not follow the reader, which takes keyword,
  number of operands and operands apart in turn.
  - `ofWords_eq_ok_iff`: words are read as an instruction just if the grammar says so.
  - `blames_of_ofWords`: what sort of fault is found in words outside the grammar.
-/

import StackToHack.Proofs.Cuts
import StackToHack.Proofs.Namespace

namespace StackToHack

/-! ## Names -/

namespace Text

structure Digits (cs : List Char) : Prop where
  nonempty : cs ≠ []
  all : ∀ c ∈ cs, c.isDigit = true

theorem isNumeral_iff {cs : List Char} : isNumeral cs = true ↔ Digits cs := by
  rw [isNumeral, Bool.and_eq_true, List.all_eq_true]
  constructor
  · rintro ⟨hne, hall⟩
    exact ⟨by simpa using hne, hall⟩
  · rintro ⟨hne, hall⟩
    exact ⟨by simpa using hne, hall⟩

/-- A number is written with digits, and one plus sign may stand before them. -/
theorem unsigned?_eq_some_iff {cs : List Char} {n : Nat} :
    unsigned? cs = some n ↔ ∃ digits, Digits digits ∧ (cs = digits ∨ cs = '+' :: digits) ∧ value digits = n := by
  have hread {digits : List Char} : (if isNumeral digits then some (value digits) else none) = some n ↔
      Digits digits ∧ value digits = n := by
    rw [← isNumeral_iff]
    split <;> simp_all
  unfold unsigned?
  split
  · rename_i rest
    rw [hread]
    constructor
    · rintro ⟨hd, hn⟩
      exact ⟨rest, hd, .inr rfl, hn⟩
    · rintro ⟨digits, hd, rfl | he, hn⟩
      · exact absurd (hd.all '+' List.mem_cons_self) (by decide)
      · obtain rfl := (List.cons.inj he).2
        exact ⟨hd, hn⟩
  · rename_i hplus
    rw [hread]
    constructor
    · rintro ⟨hd, hn⟩
      exact ⟨cs, hd, .inl rfl, hn⟩
    · rintro ⟨digits, hd, rfl | he, hn⟩
      · exact ⟨hd, hn⟩
      · exact absurd he (hplus digits)

end Text

namespace Name

def Numbered (stem word : String) : Prop :=
  ∃ digits, Text.Digits digits ∧ word.toList = stem.toList ++ digits

theorem isNumbered_iff {stem word : String} : isNumbered stem word = true ↔ Numbered stem word := by
  unfold isNumbered Numbered
  cases h : stem.toList.isPrefixOf? word.toList with
  | none =>
    constructor
    · intro hf
      cases hf
    · rintro ⟨digits, -, he⟩
      rw [List.isPrefixOf?_eq_some_iff_append_eq.mpr he.symm] at h
      cases h
  | some after =>
    have he := List.isPrefixOf?_eq_some_iff_append_eq.mp h
    constructor
    · intro hn
      exact ⟨after, Text.isNumeral_iff.mp hn, he.symm⟩
    · rintro ⟨digits, hd, he'⟩
      rw [he', List.append_cancel_left_eq] at he
      exact Text.isNumeral_iff.mpr (he ▸ hd)

/-- Digits behind the last dot are digits behind some dot. -/
theorem endsInIndex_iff {word : String} : endsInIndex word = true ↔ ∃ stem, Numbered (stem ++ ".") word := by
  unfold endsInIndex
  constructor
  · intro h
    cases hc : Text.cutLast? '.' word.toList with
    | none =>
      rw [hc] at h
      cases h
    | some parts =>
      rw [hc] at h
      obtain ⟨he, -⟩ := Text.cutLast?_eq_some.mp hc
      refine ⟨String.ofList parts.1, parts.2, Text.isNumeral_iff.mp h, ?_⟩
      rw [he, String.toList_append, String.toList_ofList, List.append_assoc]
      rfl
  · rintro ⟨stem, digits, hd, he⟩
    have hdot : '.' ∉ digits := fun hm => by simpa using hd.all _ hm
    have he : word.toList = stem.toList ++ '.' :: digits := by
      rw [he, String.toList_append, List.append_assoc]
      rfl
    rw [Text.cutLast?_eq_some.mpr ⟨he, hdot⟩]
    exact Text.isNumeral_iff.mpr hd

def Identifier (word : String) : Prop :=
  ∃ c rest, word.toList = c :: rest ∧ c.isDigit = false ∧
    ∀ d ∈ c :: rest, d.isAlpha = true ∨ d.isDigit = true ∨ d = '_' ∨ d = '.' ∨ d = ':'

theorem isIdentifierChar_iff {c : Char} : isIdentifierChar c = true ↔
    c.isAlpha = true ∨ c.isDigit = true ∨ c = '_' ∨ c = '.' ∨ c = ':' := by
  simp only [isIdentifierChar, Char.isAlphanum, Bool.or_eq_true, beq_iff_eq]
  tauto

theorem isIdentifier_iff {word : String} : isIdentifier word = true ↔ Identifier word := by
  unfold isIdentifier Identifier
  cases word.toList with
  | nil => simp
  | cons c rest =>
    simp only [Bool.and_eq_true, Bool.not_eq_true', List.all_eq_true, isIdentifierChar_iff]
    constructor
    · rintro ⟨hd, hall⟩
      exact ⟨c, rest, rfl, hd, hall⟩
    · rintro ⟨c', rest', he, hd, hall⟩
      obtain ⟨rfl, rfl⟩ := List.cons.inj he
      exact ⟨hd, hall⟩

theorem Identifier.notMem {word : String} (h : Identifier word) {c : Char} (ha : c.isAlpha = false)
    (hd : c.isDigit = false) (hc : c ≠ '_' ∧ c ≠ '.' ∧ c ≠ ':') : c ∉ word.toList := by
  obtain ⟨first, rest, he, -, hall⟩ := h
  rw [he]
  intro hm
  have := hall c hm
  simp_all

structure LabelWord (word : String) : Prop where
  identifier : Identifier word
  notReturnAddress : ¬ Numbered "ret." word

structure ProcedureWord (word : String) : Prop where
  identifier : Identifier word
  notPredefined : ∀ p ∈ Predefined.named, p.name ≠ word
  notRegister : ∀ digits, Text.Digits digits → word.toList = 'R' :: digits → 16 ≤ Text.value digits
  notComparison : ¬ Numbered "TRUE_" word ∧ ¬ Numbered "DONE_" word
  notStatic : ∀ stem, ¬ Numbered (stem ++ ".") word

theorem Identifier.hasSeparator {word : String} (h : Identifier word) : hasSeparator word = false := by
  refine hasSeparator_eq_false.mpr ⟨?_, h.notMem rfl rfl (by decide)⟩
  obtain ⟨c, rest, he, -⟩ := h
  rw [he]
  exact List.cons_ne_nil c rest

theorem isLabel_iff {word : String} : IsLabel word ↔ LabelWord word := by
  unfold IsLabel
  rw [labelFault?_eq_none, isIdentifier_iff, ← Bool.not_eq_true, ← Bool.not_eq_true, isNumbered_iff]
  constructor
  · rintro ⟨⟨-, hr⟩, hi⟩
    exact ⟨hi, hr⟩
  · rintro ⟨hi, hr⟩
    exact ⟨⟨by simp [hi.hasSeparator], hr⟩, hi⟩

/-- The predefined symbols are those of the list and the registers, the letter R and a
    number below 16. -/
theorem ofName?_eq_none_iff {word : String} : Predefined.ofName? word = none ↔
    (∀ p ∈ Predefined.named, p.name ≠ word) ∧
      ∀ digits, Text.Digits digits → word.toList = 'R' :: digits ∨ word.toList = 'R' :: '+' :: digits →
        16 ≤ Text.value digits := by
  have hnamed : Predefined.named.find? (·.name == word) = none ↔ ∀ p ∈ Predefined.named, p.name ≠ word := by
    simp [List.find?_eq_none]
  have hregister : Predefined.registerOfName? word = none ↔
      ∀ number n, word.toList = 'R' :: number → Text.unsigned? number = some n → 16 ≤ n := by
    unfold Predefined.registerOfName?
    split
    · rename_i number he
      constructor
      · intro hr number' n he' hn
        obtain rfl := (List.cons.inj (he.symm.trans he')).2
        rw [hn, Option.bind_some] at hr
        by_contra hlt
        rw [dif_pos (Nat.lt_of_not_le hlt)] at hr
        cases hr
      · intro hall
        cases hn : Text.unsigned? number with
        | none => rfl
        | some n => rw [Option.bind_some, dif_neg (Nat.not_lt.mpr (hall number n he hn))]
    · rename_i hne
      exact ⟨fun _ number _ he => absurd he (hne number), fun _ => rfl⟩
  have hspelled : (∀ number n, word.toList = 'R' :: number → Text.unsigned? number = some n → 16 ≤ n) ↔
      ∀ digits, Text.Digits digits → word.toList = 'R' :: digits ∨ word.toList = 'R' :: '+' :: digits →
        16 ≤ Text.value digits := by
    constructor
    · rintro h digits hd (he | he)
      · exact h _ _ he (Text.unsigned?_eq_some_iff.mpr ⟨digits, hd, .inl rfl, rfl⟩)
      · exact h _ _ he (Text.unsigned?_eq_some_iff.mpr ⟨digits, hd, .inr rfl, rfl⟩)
    · intro h number n he hn
      obtain ⟨digits, hd, rfl | rfl, rfl⟩ := Text.unsigned?_eq_some_iff.mp hn
      · exact h _ hd (.inl he)
      · exact h _ hd (.inr he)
  rw [Predefined.ofName?, ← hnamed, ← hspelled, ← hregister]
  cases Predefined.named.find? (·.name == word) <;> simp

/-- No plus sign can stand in an identifier, so a register is the letter R and digits. -/
theorem Identifier.ofName?_eq_none_iff {word : String} (h : Identifier word) : Predefined.ofName? word = none ↔
    (∀ p ∈ Predefined.named, p.name ≠ word) ∧
      ∀ digits, Text.Digits digits → word.toList = 'R' :: digits → 16 ≤ Text.value digits := by
  have hplus : '+' ∉ word.toList := h.notMem rfl rfl (by decide)
  rw [Name.ofName?_eq_none_iff]
  refine and_congr_right fun _ => ⟨fun hr digits hd he => hr digits hd (.inl he), fun hr digits hd he => ?_⟩
  rcases he with he | he
  · exact hr digits hd he
  · exact absurd (by simp [he]) hplus

theorem isProcedure_iff {word : String} : IsProcedure word ↔ ProcedureWord word := by
  unfold IsProcedure
  rw [procedureFault?_eq_none, isIdentifier_iff]
  simp only [← Bool.not_eq_true, isNumbered_iff, endsInIndex_iff, not_exists]
  constructor
  · rintro ⟨⟨-, hp, ht, hd, hs⟩, hi⟩
    obtain ⟨hn, hr⟩ := hi.ofName?_eq_none_iff.mp hp
    exact ⟨hi, hn, hr, ⟨ht, hd⟩, hs⟩
  · rintro ⟨hi, hn, hr, ⟨ht, hd⟩, hs⟩
    exact ⟨⟨by simp [hi.hasSeparator], hi.ofName?_eq_none_iff.mpr ⟨hn, hr⟩, ht, hd, hs⟩, hi⟩

end Name

/-! ## Instructions -/

structure IsIndex (word : String) (n : Nat) : Prop where
  digits : Text.Digits word.toList
  value : Text.value word.toList = n
  le : n ≤ maxIndex

inductive Grammar : List String → Instruction → Prop
  | operation (o : Operation) : Grammar [o.name] (.operation o)
  | push (s : Segment) {index : String} {n : Nat} : IsIndex index n → Grammar ["push", s.name, index] (.push s n)
  | pop {s : Segment} {index : String} {n : Nat} : s ≠ .constant → IsIndex index n →
      Grammar ["pop", s.name, index] (.pop s n)
  | label {l : String} : Name.LabelWord l → Grammar ["label", l] (.label l)
  | goto {l : String} : Name.LabelWord l → Grammar ["goto", l] (.goto l)
  | ifGoto {l : String} : Name.LabelWord l → Grammar ["if-goto", l] (.ifGoto l)
  | function {f count : String} {n : Nat} : Name.ProcedureWord f → IsIndex count n →
      Grammar ["function", f, count] (.function f n)
  | call {f count : String} {n : Nat} : Name.ProcedureWord f → IsIndex count n →
      Grammar ["call", f, count] (.call f n)
  | ret : Grammar ["return"] .ret

namespace Instruction

theorem readIndex_eq_ok_iff {word : String} {n : Nat} : readIndex word = .ok n ↔ IsIndex word n := by
  unfold readIndex
  by_cases hd : Text.isNumeral word.toList = true
  · rw [if_pos hd]
    have hdigits := Text.isNumeral_iff.mp hd
    by_cases hle : Text.value word.toList ≤ maxIndex
    · rw [if_pos hle]
      constructor
      · intro h
        obtain rfl := Except.ok.inj h
        exact ⟨hdigits, rfl, hle⟩
      · intro h
        rw [h.value]
    · rw [if_neg hle]
      constructor
      · intro h
        cases h
      · intro h
        exact absurd (h.value ▸ h.le) hle
  · rw [if_neg hd]
    constructor
    · intro h
      split at h <;> cases h
    · intro h
      exact absurd (Text.isNumeral_iff.mpr h.digits) hd

theorem readSegment_eq_ok_iff {word : String} {s : Segment} : readSegment word = .ok s ↔ s.name = word := by
  unfold readSegment
  rw [← Segment.ofName?_eq_some]
  cases Segment.ofName? word <;> simp

theorem readName_eq_ok_iff {fault? : String → Option NameFault} {word name : String} :
    readName fault? word = .ok name ↔ (fault? word = none ∧ Name.isIdentifier word = true) ∧ word = name := by
  unfold readName
  cases fault? word with
  | some why => simp
  | none => by_cases hi : Name.isIdentifier word = true <;> simp [hi]

theorem readLabel_eq_ok_iff {word name : String} : readLabel word = .ok name ↔ Name.LabelWord word ∧ word = name := by
  rw [← Name.isLabel_iff]
  exact readName_eq_ok_iff

theorem readProcedure_eq_ok_iff {word name : String} :
    readProcedure word = .ok name ↔ Name.ProcedureWord word ∧ word = name := by
  rw [← Name.isProcedure_iff]
  exact readName_eq_ok_iff

theorem ofWords_cons (k : Keyword) (operands : List String) : ofWords (k.name :: operands) = ofOperands k operands := by
  rw [ofWords, Keyword.ofWord?_eq_some.mpr rfl]

theorem ofWords_of_grammar {words : List String} {i : Instruction} (h : Grammar words i) : ofWords words = .ok i := by
  cases h with
  | operation o => exact ofWords_cons (.operation o) []
  | push s hn =>
    refine (ofWords_cons .push _).trans ?_
    rw [ofOperands, readSegment_eq_ok_iff.mpr rfl, readIndex_eq_ok_iff.mpr hn]
    rfl
  | @pop s index n hs hn =>
    refine (ofWords_cons .pop _).trans ?_
    rw [ofOperands, readSegment_eq_ok_iff.mpr rfl, readIndex_eq_ok_iff.mpr hn]
    cases s with
    | constant => exact absurd rfl hs
    | _ => rfl
  | label hl =>
    refine (ofWords_cons .label _).trans ?_
    rw [ofOperands, readLabel_eq_ok_iff.mpr ⟨hl, rfl⟩]
    rfl
  | goto hl =>
    refine (ofWords_cons .goto _).trans ?_
    rw [ofOperands, readLabel_eq_ok_iff.mpr ⟨hl, rfl⟩]
    rfl
  | ifGoto hl =>
    refine (ofWords_cons .ifGoto _).trans ?_
    rw [ofOperands, readLabel_eq_ok_iff.mpr ⟨hl, rfl⟩]
    rfl
  | function hf hn =>
    refine (ofWords_cons .function _).trans ?_
    rw [ofOperands, readProcedure_eq_ok_iff.mpr ⟨hf, rfl⟩, readIndex_eq_ok_iff.mpr hn]
    rfl
  | call hf hn =>
    refine (ofWords_cons .call _).trans ?_
    rw [ofOperands, readProcedure_eq_ok_iff.mpr ⟨hf, rfl⟩, readIndex_eq_ok_iff.mpr hn]
    rfl
  | ret => exact ofWords_cons .ret []

theorem grammar_of_ofOperands {k : Keyword} {operands : List String} {i : Instruction}
    (h : ofOperands k operands = .ok i) : Grammar (k.name :: operands) i := by
  unfold ofOperands at h
  split at h
  · cases h
    exact .operation _
  · cases h
  · obtain ⟨s, hs, h⟩ := bind_eq_ok h
    obtain ⟨n, hn, h⟩ := bind_eq_ok h
    cases h
    rw [← readSegment_eq_ok_iff.mp hs]
    exact .push s (readIndex_eq_ok_iff.mp hn)
  · cases h
  · obtain ⟨s, hs, h⟩ := bind_eq_ok h
    split at h
    · cases h
    · rename_i hne
      obtain ⟨n, hn, h⟩ := bind_eq_ok h
      cases h
      rw [← readSegment_eq_ok_iff.mp hs]
      exact .pop hne (readIndex_eq_ok_iff.mp hn)
  · cases h
  · obtain ⟨l, hl, h⟩ := bind_eq_ok h
    cases h
    obtain ⟨hword, rfl⟩ := readLabel_eq_ok_iff.mp hl
    exact .label hword
  · cases h
  · obtain ⟨l, hl, h⟩ := bind_eq_ok h
    cases h
    obtain ⟨hword, rfl⟩ := readLabel_eq_ok_iff.mp hl
    exact .goto hword
  · cases h
  · obtain ⟨l, hl, h⟩ := bind_eq_ok h
    cases h
    obtain ⟨hword, rfl⟩ := readLabel_eq_ok_iff.mp hl
    exact .ifGoto hword
  · cases h
  · obtain ⟨f, hf, h⟩ := bind_eq_ok h
    obtain ⟨n, hn, h⟩ := bind_eq_ok h
    cases h
    obtain ⟨hword, rfl⟩ := readProcedure_eq_ok_iff.mp hf
    exact .function hword (readIndex_eq_ok_iff.mp hn)
  · cases h
  · obtain ⟨f, hf, h⟩ := bind_eq_ok h
    obtain ⟨n, hn, h⟩ := bind_eq_ok h
    cases h
    obtain ⟨hword, rfl⟩ := readProcedure_eq_ok_iff.mp hf
    exact .call hword (readIndex_eq_ok_iff.mp hn)
  · cases h
  · cases h
    exact .ret
  · cases h

theorem ofWords_eq_ok_iff {words : List String} {i : Instruction} : ofWords words = .ok i ↔ Grammar words i := by
  refine ⟨fun h => ?_, ofWords_of_grammar⟩
  unfold ofWords at h
  split at h
  · cases h
  · split at h
    · rename_i k hk
      rw [← Keyword.ofWord?_eq_some.mp hk]
      exact grammar_of_ofOperands h
    · cases h

/-! ## Words outside the grammar -/

theorem bind_eq_error {ε α β : Type} {x : Except ε α} {f : α → Except ε β} {e : ε} (h : (x >>= f) = .error e) :
    x = .error e ∨ ∃ a, x = .ok a ∧ f a = .error e := by
  cases x with
  | error e' => exact .inl (congrArg _ (Except.error.inj h))
  | ok a => exact .inr ⟨a, rfl, h⟩

theorem name_injective {k k' : Keyword} (h : k.name = k'.name) : k = k' := by
  have hk := Keyword.ofWord?_eq_some.mpr h
  rw [Keyword.ofWord?_eq_some.mpr rfl] at hk
  exact (Option.some.inj hk).symm

theorem segment_injective {s s' : Segment} (h : s.name = s'.name) : s = s' := by
  have hs := Segment.ofName?_eq_some.mpr h
  rw [Segment.ofName?_eq_some.mpr rfl] at hs
  exact (Option.some.inj hs).symm

def Surplus (words : List String) : Prop :=
  ∃ k operands, words = Keyword.name k :: operands ∧ operands ≠ [] ∧ (k = .ret ∨ ∃ o, k = .operation o)

/-- There is no such segment to push from, or none to pop into. -/
def BadSegment (words : List String) : Prop :=
  ∃ word index, (words = ["push", word, index] ∧ ∀ s : Segment, s.name ≠ word) ∨
    (words = ["pop", word, index] ∧ ∀ s : Segment, s.name = word → s = .constant)

theorem surplus_cons {k : Keyword} {operands : List String} :
    Surplus (k.name :: operands) ↔ operands ≠ [] ∧ (k = .ret ∨ ∃ o, k = .operation o) := by
  constructor
  · rintro ⟨k', operands', he, h⟩
    obtain ⟨hk, rfl⟩ := List.cons.inj he
    obtain rfl := name_injective hk
    exact h
  · intro h
    exact ⟨k, operands, rfl, h⟩

theorem badSegment_cons {k : Keyword} {operands : List String} :
    BadSegment (k.name :: operands) ↔ ∃ word index, operands = [word, index] ∧
      ((k = .push ∧ ∀ s : Segment, s.name ≠ word) ∨ (k = .pop ∧ ∀ s : Segment, s.name = word → s = .constant)) := by
  constructor
  · rintro ⟨word, index, ⟨he, hs⟩ | ⟨he, hs⟩⟩
    · obtain ⟨hk, rfl⟩ := List.cons.inj he
      exact ⟨word, index, rfl, .inl ⟨name_injective (show k.name = Keyword.push.name from hk), hs⟩⟩
    · obtain ⟨hk, rfl⟩ := List.cons.inj he
      exact ⟨word, index, rfl, .inr ⟨name_injective (show k.name = Keyword.pop.name from hk), hs⟩⟩
  · rintro ⟨word, index, rfl, ⟨rfl, hs⟩ | ⟨rfl, hs⟩⟩
    · exact ⟨word, index, .inl ⟨rfl, hs⟩⟩
    · exact ⟨word, index, .inr ⟨rfl, hs⟩⟩

theorem category_readIndex {word : String} {fault : Fault} (h : readIndex word = .error fault) :
    fault.category = .grammar := by
  unfold readIndex at h
  repeat' split at h
  all_goals cases h
  all_goals rfl

theorem category_readName {fault? : String → Option NameFault} {word : String} {fault : Fault}
    (h : readName fault? word = .error fault) : fault.category = .grammar := by
  unfold readName at h
  repeat' split at h
  all_goals cases h
  all_goals rfl

theorem category_readSegment {word : String} {fault : Fault} (h : readSegment word = .error fault) :
    fault.category = .segment ∧ ∀ s : Segment, s.name ≠ word := by
  unfold readSegment at h
  split at h
  · cases h
  · rename_i hnone
    cases h
    refine ⟨rfl, fun s hs => ?_⟩
    rw [Segment.ofName?_eq_some.mpr hs] at hnone
    cases hnone

def Blames (words : List String) (fault : Fault) : Prop :=
  (fault.category = .arity ↔ Surplus words) ∧ (fault.category = .segment ↔ BadSegment words)

/-- Labels and procedures go with no segment, and their keywords take operands. -/
theorem category_of_named {k : Keyword} {operands : List String} {fault : Fault}
    (hk : k = .label ∨ k = .goto ∨ k = .ifGoto ∨ k = .function ∨ k = .call) (h : ofOperands k operands = .error fault) :
    fault.category = .grammar := by
  have hlabel : ∀ {l : String} {make : String → Instruction},
      (readLabel l >>= fun name => .ok (make name)) = .error fault → fault.category = .grammar := by
    intro l make h
    rcases bind_eq_error h with hl | ⟨_, _, h⟩
    · exact category_readName hl
    · cases h
  have hprocedure : ∀ {f n : String} {make : String → Nat → Instruction},
      (readProcedure f >>= fun name => readIndex n >>= fun count => .ok (make name count)) = .error fault →
        fault.category = .grammar := by
    intro f n make h
    rcases bind_eq_error h with hf | ⟨_, _, h⟩
    · exact category_readName hf
    · rcases bind_eq_error h with hn | ⟨_, _, h⟩
      · exact category_readIndex hn
      · cases h
  rcases hk with rfl | rfl | rfl | rfl | rfl
  all_goals
    rcases operands with _ | ⟨word, _ | ⟨index, _ | ⟨other, rest⟩⟩⟩
  all_goals first
    | exact hlabel h
    | exact hprocedure h
    | cases h; rfl

theorem blames_of_ofOperands {k : Keyword} {operands : List String} {fault : Fault}
    (h : ofOperands k operands = .error fault) : Blames (k.name :: operands) fault := by
  unfold Blames
  rw [surplus_cons, badSegment_cons]
  cases k with
  | operation o | ret =>
    cases operands with
    | nil => cases h
    | cons word words =>
      cases h
      simp [Fault.category]
  | push =>
    rcases operands with _ | ⟨word, _ | ⟨index, _ | ⟨other, rest⟩⟩⟩
    · cases h
      simp [Fault.category]
    · cases h
      simp [Fault.category]
    · rcases bind_eq_error h with hs | ⟨s, hs, h⟩
      · obtain ⟨hc, hne⟩ := category_readSegment hs
        simpa [hc] using hne
      · rcases bind_eq_error h with hn | ⟨n, hn, h⟩
        · simpa [category_readIndex hn] using ⟨s, readSegment_eq_ok_iff.mp hs⟩
        · cases h
    · cases h
      simp [Fault.category]
  | pop =>
    rcases operands with _ | ⟨word, _ | ⟨index, _ | ⟨other, rest⟩⟩⟩
    · cases h
      simp [Fault.category]
    · cases h
      simp [Fault.category]
    · rcases bind_eq_error h with hs | ⟨s, hs, h⟩
      · obtain ⟨hc, hne⟩ := category_readSegment hs
        simpa [hc] using fun s hs => absurd hs (hne s)
      · have hname := readSegment_eq_ok_iff.mp hs
        split at h
        · cases h
          -- no other segment has the name
          have honly : ∀ s : Segment, s.name = word → s = .constant := fun s hs' => segment_injective (hs'.trans hname.symm)
          simpa [Fault.category] using honly
        · rename_i hne
          rcases bind_eq_error h with hn | ⟨n, hn, h⟩
          · simpa [category_readIndex hn] using ⟨s, hname, hne⟩
          · cases h
    · cases h
      simp [Fault.category]
  | label | goto | ifGoto | function | call =>
    have hc := category_of_named (by simp) h
    simp [hc]

theorem blames_of_unknown {word : String} (hno : ∀ k : Keyword, k.name ≠ word) (operands : List String) :
    Blames (word :: operands) (.unknownKeyword word) := by
  have hsurplus : ¬ Surplus (word :: operands) := by
    rintro ⟨k, _, he, -⟩
    exact hno k (List.cons.inj he).1.symm
  have hsegment : ¬ BadSegment (word :: operands) := by
    rintro ⟨_, _, ⟨he, -⟩ | ⟨he, -⟩⟩
    · exact hno .push (List.cons.inj he).1.symm
    · exact hno .pop (List.cons.inj he).1.symm
  simp [Blames, Fault.category, hsurplus, hsegment]

theorem blames_of_ofWords {words : List String} {fault : Fault} (h : ofWords words = .error fault) :
    Blames words fault := by
  cases words with
  | nil =>
    cases h
    simp [Blames, Fault.category, Surplus, BadSegment]
  | cons word operands =>
    rw [ofWords] at h
    cases hk : Keyword.ofWord? word with
    | some k =>
      rw [hk] at h
      rw [← Keyword.ofWord?_eq_some.mp hk]
      exact blames_of_ofOperands h
    | none =>
      rw [hk] at h
      cases h
      refine blames_of_unknown ?_ operands
      rintro k rfl
      rw [Keyword.ofWord?_eq_some.mpr rfl] at hk
      cases hk

end Instruction

end StackToHack
