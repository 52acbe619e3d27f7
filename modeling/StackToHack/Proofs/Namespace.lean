/-
  StackToHack.Proofs.Namespace — the families of symbols share one set of names and are
  still told apart.

  All symbols of the assembly are written into one namespace by `Symbol.text`. The rules
  of `StackToHack.Name` hold of the words of a source, and `Symbol.Allowed` says that they
  hold of the words in a symbol. `Symbol.ofText` reads a name back by its shape: a `$`
  makes it a scoped symbol, the rest is a predefined symbol, a comparison label or a
  procedure.
  - `ofText_text`: an allowed symbol that is no static variable is read back as itself.
  - `text_injective`: so two such symbols with one name are one symbol.
  - `static_text_ne`: a static variable, of whatever unit, has the name of no other
    symbol, except that of a scoped one.
-/

import Mathlib.Data.List.Basic
import Mathlib.Data.List.TakeWhile
import StackToHack.Machine.Assembler
import StackToHack.Scope
import StackToHack.Name

namespace StackToHack

/-! ## What the rules say -/

namespace Name

theorem labelFault?_eq_none {word : String} :
    labelFault? word = none ↔ hasSeparator word = false ∧ isNumbered "ret." word = false := by
  unfold labelFault?
  split
  · simp_all
  · split <;> simp_all

theorem procedureFault?_eq_none {word : String} :
    procedureFault? word = none ↔ hasSeparator word = false ∧ Predefined.ofName? word = none ∧
      isNumbered "TRUE_" word = false ∧ isNumbered "DONE_" word = false ∧ endsInIndex word = false := by
  unfold procedureFault?
  split
  · simp_all
  split
  · rename_i h
    have := Option.isSome_iff_ne_none.mp h
    simp_all
  split
  · rename_i h
    rcases Bool.or_eq_true_iff.mp h with h | h <;> simp [h]
  split <;> simp_all

theorem hasSeparator_eq_false {word : String} : hasSeparator word = false ↔ word.toList ≠ [] ∧ '$' ∉ word.toList := by
  simp [hasSeparator]

/-- The sentinel that owns the code before the first procedure keeps the rules itself. -/
theorem procedureFault?_null : procedureFault? "null" = none := by decide

end Name

namespace Symbol

/-- The rules hold of the words that the source gave to the symbol. A unit's name may be
    any word. -/
def Allowed : Symbol → Prop
  | procedure f => Name.procedureFault? f = none
  | label f l => Name.procedureFault? f = none ∧ Name.labelFault? l = none
  | returnAddress f _ => Name.procedureFault? f = none
  | _ => True

def isStatic : Symbol → Bool
  | static _ _ => true
  | _ => false

/-- The symbol belongs to a procedure and is written behind its name and a `$`. -/
def isScoped : Symbol → Bool
  | label _ _ => true
  | returnAddress _ _ => true
  | _ => false

/-! ## Reading a name -/

def ofPlain (name : String) : Symbol :=
  match Predefined.ofName? name with
  | some p => .predefined p
  | none =>
    if Name.isNumbered "TRUE_" name then .holds (Text.value (name.toList.drop 5))
    else if Name.isNumbered "DONE_" name then .done (Text.value (name.toList.drop 5))
    else .procedure name

def ofScoped (before after : List Char) : Symbol :=
  if before = [] then .halt
  else if Name.isNumbered "ret." (String.ofList after) then
    .returnAddress (String.ofList before) (Text.value (after.drop 4))
  else .label (String.ofList before) (String.ofList after)

/-- The symbol that a name stands for, static variables apart. -/
def ofText (name : String) : Symbol :=
  match Assembler.cutFirst '$' name.toList with
  | (before, some after) => ofScoped before after
  | (_, none) => ofPlain name

theorem cutFirst_append {sep : Char} {before : List Char} (h : sep ∉ before) (after : List Char) :
    Assembler.cutFirst sep (before ++ sep :: after) = (before, some after) := by
  have hp : ∀ c ∈ before, decide (c ≠ sep) = true := by
    intro c hc
    simp only [decide_eq_true_eq]
    rintro rfl
    exact h hc
  unfold Assembler.cutFirst
  rw [List.takeWhile_append_of_pos hp, List.dropWhile_append_of_pos hp]
  simp

theorem cutFirst_of_notMem {sep : Char} {cs : List Char} (h : sep ∉ cs) :
    Assembler.cutFirst sep cs = (cs, none) := by
  have hp : ∀ c ∈ cs, decide (c ≠ sep) = true := by
    intro c hc
    simp only [decide_eq_true_eq]
    rintro rfl
    exact h hc
  unfold Assembler.cutFirst
  rw [List.takeWhile_eq_self_iff.mpr hp, List.dropWhile_eq_nil_iff.mpr hp]
  rfl

theorem ofText_scoped {f : String} (hf : '$' ∉ f.toList) (word : String) :
    ofText (f ++ "$" ++ word) = ofScoped f.toList word.toList := by
  have e : (f ++ "$" ++ word).toList = f.toList ++ '$' :: word.toList := by simp
  unfold ofText
  rw [e, cutFirst_append hf]

theorem ofText_plain {name : String} (h : '$' ∉ name.toList) : ofText name = ofPlain name := by
  unfold ofText
  rw [cutFirst_of_notMem h]

/-! ## Numbered names -/

theorem isDigit_of_mem_repr {n : Nat} {c : Char} (h : c ∈ n.repr.toList) : c.isDigit = true := by
  have := Text.isNumeral_repr n
  simp only [Text.isNumeral, Bool.and_eq_true, List.all_eq_true] at this
  exact this.2 c h

theorem notMem_repr {c : Char} (h : c.isDigit = false) (n : Nat) : c ∉ n.repr.toList := by
  intro hc
  rw [isDigit_of_mem_repr hc] at h
  cases h

theorem unsigned?_repr (n : Nat) : Text.unsigned? n.repr.toList = some n := by
  have hplus : '+' ∉ n.repr.toList := notMem_repr rfl n
  unfold Text.unsigned?
  split
  · rename_i rest e
    exact absurd (e ▸ List.mem_cons_self) hplus
  · rw [if_pos (Text.isNumeral_repr n), Text.value_repr]

theorem isNumbered_append_repr (stem : String) (n : Nat) : Name.isNumbered stem (stem ++ n.repr) = true := by
  have e : stem.toList.isPrefixOf? (stem ++ n.repr).toList = some n.repr.toList := by
    rw [String.toList_append, List.isPrefixOf?_eq_some_iff_append_eq]
  unfold Name.isNumbered
  rw [e, Option.map_some, Option.getD_some]
  exact Text.isNumeral_repr n

theorem value_drop_append_repr (stem : String) (n : Nat) :
    Text.value ((stem ++ n.repr).toList.drop stem.toList.length) = n := by
  rw [String.toList_append, List.drop_left]
  exact Text.value_repr n

theorem isNumeral_eq_false_of_mem {cs : List Char} {c : Char} (hc : c ∈ cs) (hd : c.isDigit = false) :
    Text.isNumeral cs = false := by
  have : cs.all Char.isDigit = false := List.all_eq_false.mpr ⟨c, hc, by simp [hd]⟩
  rw [Text.isNumeral, this, Bool.and_false]

theorem unsigned?_eq_none_of_mem {cs : List Char} {c : Char} (hc : c ∈ cs) (hd : c.isDigit = false) (hp : c ≠ '+') :
    Text.unsigned? cs = none := by
  unfold Text.unsigned?
  split
  · rename_i rest
    have hr : c ∈ rest := by
      rcases List.mem_cons.mp hc with h | h
      · exact absurd h hp
      · exact h
    simp [isNumeral_eq_false_of_mem hr hd]
  · simp [isNumeral_eq_false_of_mem hc hd]

theorem isDigit_eq_false_of_isAlphanum {c : Char} (h : c.isAlphanum = false) : c.isDigit = false := by
  cases hd : c.isDigit
  · rfl
  · simp [Char.isAlphanum, hd] at h

theorem isAlphanum_of_mem_name (p : Predefined) : ∀ c ∈ p.name.toList, c.isAlphanum = true := by
  have hall : p.name.toList.all Char.isAlphanum = true := by
    cases p with
    | register n => revert n; decide
    | _ => decide
  exact List.all_eq_true.mp hall

theorem notMem_predefined {c : Char} (ha : c.isAlphanum = false) (p : Predefined) : c ∉ p.name.toList := by
  intro h
  rw [isAlphanum_of_mem_name p c h] at ha
  cases ha

/-- The names of predefined symbols hold letters, digits and perhaps a plus sign. -/
theorem ofName?_eq_none_of_mem {name : String} {c : Char} (hc : c ∈ name.toList) (ha : c.isAlphanum = false)
    (hp : c ≠ '+') : Predefined.ofName? name = none := by
  have hfind : Predefined.named.find? (·.name == name) = none := by
    rw [List.find?_eq_none]
    intro p _ he
    have := isAlphanum_of_mem_name p c (by rwa [beq_iff_eq.mp he])
    rw [this] at ha
    cases ha
  have hreg : Predefined.registerOfName? name = none := by
    unfold Predefined.registerOfName?
    split
    · rename_i number e
      rw [e] at hc
      have hcn : c ∈ number := by
        rcases List.mem_cons.mp hc with rfl | h
        · cases ha
        · exact h
      rw [unsigned?_eq_none_of_mem hcn (isDigit_eq_false_of_isAlphanum ha) hp]
      rfl
    · rfl
  rw [Predefined.ofName?, hfind, hreg]
  rfl

/-! ## Each family is read back -/

theorem ofText_predefined (p : Predefined) : ofText p.name = .predefined p := by
  rw [ofText_plain (notMem_predefined rfl p), ofPlain, Predefined.ofName?_name]

theorem ofText_procedure {f : String} (h : Name.procedureFault? f = none) : ofText f = .procedure f := by
  obtain ⟨hs, hp, ht, hd, -⟩ := Name.procedureFault?_eq_none.mp h
  rw [ofText_plain (Name.hasSeparator_eq_false.mp hs).2, ofPlain, hp]
  simp [ht, hd]

theorem ofText_label {f l : String} (hf : Name.procedureFault? f = none) (hl : Name.labelFault? l = none) :
    ofText (f ++ "$" ++ l) = .label f l := by
  obtain ⟨hne, hm⟩ := Name.hasSeparator_eq_false.mp (Name.procedureFault?_eq_none.mp hf).1
  have hr := (Name.labelFault?_eq_none.mp hl).2
  rw [ofText_scoped hm, ofScoped, if_neg hne, String.ofList_toList, hr]
  simp

theorem ofText_returnAddress {f : String} (hf : Name.procedureFault? f = none) (n : Nat) :
    ofText (f ++ "$ret." ++ n.repr) = .returnAddress f n := by
  obtain ⟨hne, hm⟩ := Name.hasSeparator_eq_false.mp (Name.procedureFault?_eq_none.mp hf).1
  have e : f ++ "$ret." ++ n.repr = f ++ "$" ++ ("ret." ++ n.repr) := by
    rw [show ("$ret." : String) = "$" ++ "ret." from rfl]
    simp only [String.append_assoc]
  rw [e, ofText_scoped hm, ofScoped, if_neg hne, String.ofList_toList, String.ofList_toList, isNumbered_append_repr,
    if_pos rfl]
  exact congrArg _ (value_drop_append_repr "ret." n)

/-- The name of a comparison label is none of the other names without `$`. -/
theorem comparison_plain (stem : String) (n : Nat) (hs : '$' ∉ stem.toList) (hu : '_' ∈ stem.toList) :
    '$' ∉ (stem ++ n.repr).toList ∧ Predefined.ofName? (stem ++ n.repr) = none := by
  rw [String.toList_append]
  refine ⟨?_, ofName?_eq_none_of_mem (c := '_') ?_ rfl (by decide)⟩
  · rw [List.mem_append, not_or]
    exact ⟨hs, notMem_repr rfl n⟩
  · rw [String.toList_append]
    exact List.mem_append_left _ hu

theorem ofText_holds (n : Nat) : ofText ("TRUE_" ++ n.repr) = .holds n := by
  obtain ⟨h, hp⟩ := comparison_plain "TRUE_" n (by decide) (by decide)
  rw [ofText_plain h, ofPlain, hp]
  simp only [isNumbered_append_repr, if_true]
  exact congrArg _ (value_drop_append_repr "TRUE_" n)

theorem ofText_done (n : Nat) : ofText ("DONE_" ++ n.repr) = .done n := by
  obtain ⟨h, hp⟩ := comparison_plain "DONE_" n (by decide) (by decide)
  have ht : Name.isNumbered "TRUE_" ("DONE_" ++ n.repr) = false := by
    unfold Name.isNumbered
    rw [String.toList_append]
    rfl
  rw [ofText_plain h, ofPlain, hp]
  simp only [ht, isNumbered_append_repr, if_true, Bool.false_eq_true, if_false]
  exact congrArg _ (value_drop_append_repr "DONE_" n)

/-- An allowed symbol, no static variable, can be read off its name. -/
theorem ofText_text {s : Symbol} (h : s.Allowed) (hs : s.isStatic = false) : ofText s.text = s := by
  cases s with
  | predefined p => exact ofText_predefined p
  | procedure f => exact ofText_procedure h
  | label f l => exact ofText_label h.1 h.2
  | returnAddress f n => exact ofText_returnAddress h n
  | holds n => exact ofText_holds n
  | done n => exact ofText_done n
  | halt => rfl
  | static u i => cases hs

theorem text_injective {a b : Symbol} (ha : a.Allowed) (hb : b.Allowed) (sa : a.isStatic = false)
    (sb : b.isStatic = false) (h : a.text = b.text) : a = b := by
  rw [← ofText_text ha sa, h, ofText_text hb sb]

/-! ## Static variables -/

theorem cutLast?_static (u : String) (i : Nat) :
    Text.cutLast? '.' (static u i).text.toList = some (u.toList, i.repr.toList) := by
  have e : (static u i).text.toList = u.toList ++ '.' :: i.repr.toList := by
    rw [text, String.toList_append, String.toList_append, List.append_assoc]
    rfl
  rw [e, Text.cutLast?_append _ (notMem_repr rfl i)]

theorem static_text_injective {u v : String} {i j : Nat} (h : (static u i).text = (static v j).text) : u = v ∧ i = j := by
  have hcut := cutLast?_static u i
  rw [h, cutLast?_static] at hcut
  obtain ⟨hu, hi⟩ := Prod.mk.inj (Option.some.inj hcut)
  refine ⟨String.toList_injective hu.symm, ?_⟩
  rw [← Text.value_repr i, ← hi, Text.value_repr]

theorem endsInIndex_static (u : String) (i : Nat) : Name.endsInIndex (static u i).text = true := by
  unfold Name.endsInIndex
  rw [cutLast?_static, Option.map_some, Option.getD_some]
  exact Text.isNumeral_repr i

theorem endsInIndex_eq_false_of_notMem {name : String} (h : '.' ∉ name.toList) : Name.endsInIndex name = false := by
  unfold Name.endsInIndex
  rw [Text.cutLast?_eq_none.mpr h]
  rfl

/-- Outside the scoped symbols only static variables end in a dot and a number. -/
theorem endsInIndex_text {s : Symbol} (h : s.Allowed) (hs : s.isStatic = false) (hc : s.isScoped = false) :
    Name.endsInIndex s.text = false := by
  cases s with
  | predefined p => exact endsInIndex_eq_false_of_notMem (notMem_predefined rfl p)
  | procedure f => exact (Name.procedureFault?_eq_none.mp h).2.2.2.2
  | label f l => cases hc
  | returnAddress f n => cases hc
  | holds n | done n =>
    refine endsInIndex_eq_false_of_notMem ?_
    rw [text, String.toList_append, List.mem_append, not_or]
    exact ⟨by decide, notMem_repr rfl n⟩
  | halt => decide
  | static u i => cases hs

theorem static_text_ne (u : String) (i : Nat) {s : Symbol} (h : s.Allowed) (hs : s.isStatic = false)
    (hc : s.isScoped = false) : (static u i).text ≠ s.text := by
  intro e
  have := endsInIndex_text h hs hc
  rw [← e, endsInIndex_static] at this
  cases this

/-! ## The families -/

/-- Names the rules allow are told apart: two symbols, no static variables, have one name
    only if they are of one family and agree in all parts; and a static variable of any
    unit never has the name of a procedure, a comparison label, the parking loop or a
    predefined symbol. -/
theorem families_apart :
    (∀ a b : Symbol, a.Allowed → b.Allowed → a.isStatic = false → b.isStatic = false → (a.text = b.text ↔ a = b)) ∧
      ∀ (u : String) (i : Nat) (b : Symbol), b.Allowed → b.isStatic = false → b.isScoped = false →
        (static u i).text ≠ b.text := by
  refine ⟨fun a b ha hb sa sb => ⟨text_injective ha hb sa sb, ?_⟩, fun u i b hb sb cb => static_text_ne u i hb sb cb⟩
  rintro rfl
  rfl

/-- The label `ret.x` beside the first return address of the sentinel, the procedure `R16`
    beside the last register, and a static variable beside a procedure in its unit. -/
theorem families_apart_near_misses :
    (label "null" "ret.x").text ≠ (returnAddress "null" 0).text ∧
      (procedure "R16").text ≠ (predefined (.register 15)).text ∧
      (static "Main.f" 0).text ≠ (procedure "Main.f0").text := by
  refine ⟨fun e => ?_, fun e => ?_, ?_⟩
  · have := (families_apart.1 (label "null" "ret.x") (returnAddress "null" 0) (by constructor <;> decide)
      Name.procedureFault?_null rfl rfl).mp e
    cases this
  · have := (families_apart.1 (procedure "R16") (predefined (.register 15)) (by decide : Name.procedureFault? "R16" = none)
      trivial rfl rfl).mp e
    cases this
  · exact families_apart.2 "Main.f" 0 (procedure "Main.f0") (by decide : Name.procedureFault? "Main.f0" = none) rfl rfl

end Symbol

end StackToHack
