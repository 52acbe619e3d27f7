/-
  StackToHack.Proofs.Statics — static variables whose names are names of labels.

  A static variable is written as its unit's name, a dot and its index, and a unit may have
  any name. So a unit whose name holds a `$` writes like a procedure that owns labels, and
  its variables are told apart from nothing that has a `$`: they can be labels of that
  procedure, or return addresses. All else that a program defines is told apart from them
  by the dot and the number at the end.
  - `Symbol.static_text_eq_scoped_iff`: the names that variables and scoped symbols share.
  - `Scope.mem_symbols_iff`: where a symbol of a program is defined.
  - `static_meets_label_iff`: when the line of a label defines the name of a variable.
  - `static_meets_label`: a program in which one does.
-/

import StackToHack.Proofs.Collisions
import StackToHack.Proofs.Variables

namespace StackToHack

/-! ## Names -/

namespace Symbol

/-- A static variable has a name with a `$` just if its unit has. -/
theorem static_text_eq_scoped_iff {unit p word : String} {i : Nat} :
    (static unit i).text = p ++ "$" ++ word ↔ ∃ m, unit = p ++ "$" ++ m ∧ word = m ++ "." ++ i.repr := by
  have hstatic : (static unit i).text.toList = unit.toList ++ '.' :: i.repr.toList := by simp [text]
  have hscoped : ∀ word : String, (p ++ "$" ++ word).toList = p.toList ++ '$' :: word.toList := by simp
  have hdigits : '$' ∉ '.' :: i.repr.toList := by simpa using notMem_repr rfl i
  constructor
  · intro h
    have he := congrArg String.toList h
    rw [hstatic, hscoped] at he
    rcases List.append_eq_append_iff.mp he with ⟨rest, -, hrest⟩ | ⟨rest, hunit, hrest⟩
    · -- no `$` stands behind the name of the unit
      rw [hrest] at hdigits
      exact absurd (List.mem_append_right _ List.mem_cons_self) hdigits
    · cases rest with
      | nil => cases hrest
      | cons c m =>
        obtain ⟨rfl, hword⟩ := List.cons.inj hrest
        refine ⟨String.ofList m, String.toList_injective ?_, String.toList_injective ?_⟩
        · rw [hscoped, String.toList_ofList, hunit]
        · rw [hword]
          simp
  · rintro ⟨m, rfl, rfl⟩
    simp only [text, String.append_assoc]

theorem returnAddress_text (p : String) (n : Nat) : (returnAddress p n).text = p ++ "$" ++ (static "ret" n).text := by
  have hret : ("$ret." : String) = "$" ++ ("ret" ++ ".") := rfl
  simp only [text, hret, String.append_assoc]

end Symbol

/-! ## Places of symbols -/

theorem Scope.mem_symbols_iff {scope : Scope} {is : List Instruction} {s : Symbol} :
    s ∈ scope.symbols is ↔ ∃ before i after, is = before ++ i :: after ∧ s ∈ i.symbols (scope.behind before) := by
  induction is generalizing scope with
  | nil => simp [symbols]
  | cons i is ih =>
    rw [symbols, List.mem_append, ih]
    constructor
    · rintro (h | ⟨before, j, after, rfl, h⟩)
      · exact ⟨[], i, is, rfl, h⟩
      · exact ⟨i :: before, j, after, rfl, h⟩
    · rintro ⟨before, j, after, he, h⟩
      cases before with
      | nil =>
        obtain ⟨rfl, rfl⟩ := List.cons.inj he
        exact .inl h
      | cons k before =>
        obtain ⟨rfl, rfl⟩ := List.cons.inj he
        exact .inr ⟨before, j, after, rfl, h⟩

/-- Call number `n` of a procedure is made, that of the bootstrap included. -/
def Calls (options : Options) (is : List Instruction) (p : String) (n : Nat) : Prop :=
  (options.bootstrap = true ∧ p = "null" ∧ n = 0) ∨
    ∃ before f k after, is = before ++ .call f k :: after ∧
      (options.startScope.behind before).procedure = p ∧ (options.startScope.behind before).calls = n

theorem returnAddress_mem_iff {options : Options} {is : List Instruction} {p : String} {n : Nat} :
    .returnAddress p n ∈ options.bootAddress ++ options.startScope.symbols is ↔ Calls options is p n := by
  rw [List.mem_append, Scope.mem_symbols_iff]
  refine or_congr ?_ ⟨?_, ?_⟩
  · rw [Options.bootAddress]
    split <;> simp_all
  · rintro ⟨before, i, after, rfl, h⟩
    cases i with
    | call f k =>
      obtain ⟨rfl, rfl⟩ := Symbol.returnAddress.inj (List.mem_singleton.mp h)
      exact ⟨before, f, k, after, rfl, rfl, rfl⟩
    | operation o => rcases o with u | b | c <;> simp [Instruction.symbols] at h
    | _ => simp [Instruction.symbols, Scope.label] at h
  · rintro ⟨before, f, k, after, rfl, rfl, rfl⟩
    exact ⟨before, _, after, rfl, List.mem_singleton_self _⟩

/-! ## Variables and labels -/

theorem Statement.mem_statics_iff {code : List Statement} {unit : String} {i : Nat} :
    (unit, i) ∈ statics code ↔ .load (.static unit i) ∈ code := by
  rw [statics, List.mem_filterMap]
  constructor
  · rintro ⟨s, hs, he⟩
    obtain ⟨st, hst, hload⟩ := List.mem_filterMap.mp hs
    cases s with
    | static unit' i' =>
      cases he
      cases st <;> cases hload
      exact hst
    | _ => cases he
  · exact fun h => ⟨_, List.mem_filterMap.mpr ⟨_, h, rfl⟩, rfl⟩

inductive MeetsLabel (options : Options) (is : List Instruction) (unit : String) (i : Nat) : Prop
  | label {p m : String} : unit = p ++ "$" ++ m → (p, .label (m ++ "." ++ i.repr)) ∈ owned "null" is →
    MeetsLabel options is unit i
  | returnAddress {p : String} : unit = p ++ "$ret" → Calls options is p i → MeetsLabel options is unit i

section Programs

variable {options : Options} {units : List SourceUnit} {summary : Summary}

theorem label_line_mem_iff (h : Accepted options units) {name : String} :
    "(" ++ name ++ ")" ∈ (translate options units).lines ↔
      ∃ s ∈ .halt :: (options.bootAddress ++ options.startScope.symbols (instructions units)), s.text = name := by
  rw [Run.lines, List.mem_map]
  simp only [Statement.text_eq_parenthesised, ← (symbols_written h).mem_iff, List.mem_filterMap]
  grind

/-- The code that a unit has for one of its variables loads the variable's name. -/
theorem static_line_mem (h : Accepted options units) {u : SourceUnit} (hu : u ∈ units) {i : Nat}
    (hi : .push .static i ∈ u.instructions ∨ .pop .static i ∈ u.instructions) :
    "@" ++ (Symbol.static u.name i).text ∈ (translate options units).lines := by
  obtain ⟨k, hk, hstatic⟩ : ∃ k ∈ u.instructions, StackMachine.staticOf? (u.name, k) = some (u.name, i) := by
    rcases hi with hi | hi
    · exact ⟨_, hi, rfl⟩
    · exact ⟨_, hi, rfl⟩
  have hentry : (u.name, k) ∈ (listing options units).map Placed.entry := by
    rw [listing_entries]
    obtain ⟨l, hl, rfl⟩ := List.mem_map.mp hk
    exact List.mem_flatMap.mpr ⟨u, hu, List.mem_map_of_mem hl⟩
  obtain ⟨p, hp, he⟩ := List.mem_map.mp hentry
  have hload : (u.name, i) ∈ Statement.statics p.code := by
    have hsame : (p.scope.unit, p.instruction) = (u.name, k) := he
    rw [Instruction.statics_code (h.coded p hp), hsame, hstatic]
    exact List.mem_singleton_self _
  have hmem : .load (.static u.name i) ∈ (translate options units).written := by
    rw [h.written]
    refine List.mem_append_left _ (List.mem_append_right _ (List.mem_flatMap.mpr ⟨p, hp, ?_⟩))
    exact List.mem_append_right _ (Statement.mem_statics_iff.mp hload)
  exact List.mem_map_of_mem hmem

/-- A label defines the name of a variable if it is one that the variable meets. -/
theorem label_line_static_iff (h : Accepted options units) (unit : String) (i : Nat) :
    "(" ++ (Symbol.static unit i).text ++ ")" ∈ (translate options units).lines ↔
      MeetsLabel options (instructions units) unit i := by
  have hlabel : ∀ p l, .label p l ∈ .halt :: (options.bootAddress ++ options.startScope.symbols (instructions units)) ↔
      (p, .label l) ∈ owned "null" (instructions units) := by
    intro p l
    have hboot : .label p l ∉ options.bootAddress := fun hm => by cases (Options.mem_bootAddress hm).1
    rw [← options.startScope_procedure, ← Scope.label_mem_symbols_iff]
    simp [hboot]
  have hreturn : ∀ p n, .returnAddress p n ∈ .halt :: (options.bootAddress ++
      options.startScope.symbols (instructions units)) ↔ Calls options (instructions units) p n := by
    intro p n
    rw [← returnAddress_mem_iff]
    simp
  have hret : ∀ p : String, p ++ "$" ++ "ret" = p ++ "$ret" := fun p => String.append_assoc
  rw [label_line_mem_iff h]
  constructor
  · rintro ⟨s, hs, he⟩
    have hallowed := allowed_of_written h (Statement.mem_symbols_iff.mp ((symbols_written h).mem_iff.mpr hs))
    cases s with
    | label p l =>
      obtain ⟨m, hunit, rfl⟩ := Symbol.static_text_eq_scoped_iff.mp he.symm
      exact .label hunit ((hlabel p _).mp hs)
    | returnAddress p n =>
      rw [Symbol.returnAddress_text] at he
      obtain ⟨m, hunit, hname⟩ := Symbol.static_text_eq_scoped_iff.mp he.symm
      obtain ⟨rfl, rfl⟩ := Symbol.static_text_injective hname
      exact .returnAddress (hunit.trans (hret p)) ((hreturn p n).mp hs)
    | _ => exact absurd he.symm (Symbol.static_text_ne unit i hallowed.1 hallowed.2 rfl)
  · rintro (⟨hunit, hm⟩ | ⟨hunit, hc⟩)
    · exact ⟨_, (hlabel _ _).mpr hm, (Symbol.static_text_eq_scoped_iff.mpr ⟨_, hunit, rfl⟩).symm⟩
    · refine ⟨_, (hreturn _ _).mpr hc, ?_⟩
      rw [Symbol.returnAddress_text]
      exact (Symbol.static_text_eq_scoped_iff.mpr ⟨"ret", hunit.trans (hret _).symm, rfl⟩).symm

theorem MeetsLabel.mem {is : List Instruction} {unit : String} {i : Nat} (h : MeetsLabel options is unit i) :
    '$' ∈ unit.toList := by
  cases h with
  | label hunit _ => simp [hunit]
  | returnAddress hunit _ => simp [hunit]

/-- A unit that uses a static variable loads its name. The line `(name)` of this name stands
    in the program just if the unit is named like a procedure, a `$` and more, and the
    procedure owns the label that this and the rest of the name make up; or more is `ret`
    and the procedure makes the call with the number of the variable. No variable of a unit
    without a `$` in its name meets a label. -/
theorem static_meets_label_iff (h : (translate options units).outcome = .ok summary) {u : SourceUnit} (hu : u ∈ units)
    {i : Nat} (hi : .push .static i ∈ u.instructions ∨ .pop .static i ∈ u.instructions) :
    "@" ++ (Symbol.static u.name i).text ∈ (translate options units).lines ∧
      ("(" ++ (Symbol.static u.name i).text ++ ")" ∈ (translate options units).lines ↔
        MeetsLabel options (instructions units) u.name i) ∧
      ('$' ∉ u.name.toList → "(" ++ (Symbol.static u.name i).text ++ ")" ∉ (translate options units).lines) := by
  have haccepted := accepted_of_ok h
  have hiff := label_line_static_iff haccepted u.name i
  refine ⟨static_line_mem haccepted hu hi, hiff, fun hno hline => ?_⟩
  exact hno (hiff.mp hline).mem

end Programs

def lookalike : SourceUnit :=
  ⟨"F$x", "function F 0\nlabel x.0\npush static 0\npop static 1\n"⟩

/-- A label with the name of a variable of its unit, and a unit that is named like the return
    addresses of the code before the first procedure. -/
def lookalikes : List SourceUnit :=
  [lookalike, ⟨"null$ret", "push static 0\n"⟩]

/-- Two variables meet the label and the return address of the bootstrap, one meets nothing. -/
theorem static_meets_label_lookalikes :
    "(F$x.0)" ∈ (translate {} lookalikes).lines ∧ "(null$ret.0)" ∈ (translate {} lookalikes).lines ∧
      "@F$x.1" ∈ (translate {} lookalikes).lines ∧
      ("(F$x.1)" ∈ (translate {} lookalikes).lines ↔ MeetsLabel {} (instructions lookalikes) "F$x" 1) := by
  have hok : (translate {} lookalikes).outcome = .ok ⟨2, 5, 79⟩ := by decide +kernel
  obtain ⟨hfirst, hsecond⟩ : lookalikes[0] ∈ lookalikes ∧ lookalikes[1] ∈ lookalikes := by decide
  obtain ⟨-, hlabel, -⟩ := @static_meets_label_iff {} lookalikes _ hok _ hfirst 0 (.inl (by decide +kernel))
  obtain ⟨hload, hnone, -⟩ := @static_meets_label_iff {} lookalikes _ hok _ hfirst 1 (.inr (by decide +kernel))
  obtain ⟨-, hreturn, -⟩ := @static_meets_label_iff {} lookalikes _ hok _ hsecond 0 (.inl (by decide +kernel))
  exact ⟨hlabel.mpr (@MeetsLabel.label _ _ _ _ "F" "x" rfl (by decide +kernel)),
    hreturn.mpr (@MeetsLabel.returnAddress _ _ _ _ "null" rfl (.inl ⟨rfl, rfl, rfl⟩)), hload, hnone⟩

/-- The unit loads the name of its own label. -/
theorem static_meets_label :
    (translate {} [lookalike]).outcome = .ok ⟨1, 4, 72⟩ ∧ "@F$x.0" ∈ (translate {} [lookalike]).lines ∧
      "(F$x.0)" ∈ (translate {} [lookalike]).lines := by
  refine ⟨?_, ?_, ?_⟩
  · decide +kernel
  · decide +kernel
  · decide +kernel

end StackToHack
