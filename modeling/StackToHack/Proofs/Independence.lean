/-
  StackToHack.Proofs.Independence — what the place of a unit among the others does to its code.

  A `function` sets the scope of what comes behind it, and a unit sets its own name. So of
  a unit that begins with a `function` the others change one thing: the numbers of its
  comparisons go on from theirs, `Statement.renumber`. Whether units are accepted and how
  long their code is does not depend on their order at all.
  - `Instruction.code_shift`: the code behind more comparisons.
  - `unitCode_eq_map`: the code of a unit is the one it has alone, renumbered.
  - `outcome_of_faultless`: which units are accepted, and with what summary.
  - `units_independent`: units in another order.
-/

import Mathlib.Algebra.GroupWithZero.Nat
import StackToHack.Proofs.History
import StackToHack.Proofs.Units

namespace StackToHack

/-! ## Renumbering -/

/-- The symbol of the comparison that comes `c` later. -/
def Symbol.renumber (c : Nat) : Symbol → Symbol
  | holds n => holds (n + c)
  | done n => done (n + c)
  | s => s

def Statement.renumber (c : Nat) : Statement → Statement
  | load s => load (s.renumber c)
  | label s => label (s.renumber c)
  | s => s

def Scope.shift (c : Nat) (scope : Scope) : Scope :=
  { scope with comparisons := scope.comparisons + c }

theorem Statement.renumber_of_comparison?_none {s : Statement} (h : s.comparison? = none) (c : Nat) :
    s.renumber c = s := by
  cases s with
  | load s | label s =>
    cases s with
    | holds n | done n => cases h
    | _ => rfl
  | _ => rfl

namespace Instruction

theorem code_shift_of_ne {i : Instruction} (h : i.isComparison = false) (c : Nat) (scope : Scope) :
    i.code (scope.shift c) = i.code scope := by
  cases i with
  | operation o =>
    rcases o with u | b | k
    · rfl
    · rfl
    · cases h
  | push segment index | pop segment index => cases segment <;> rfl
  | _ => rfl

/-- Behind more comparisons an instruction has the same code, renumbered. -/
theorem code_shift (i : Instruction) (c : Nat) (scope : Scope) :
    i.code (scope.shift c) = (i.code scope).map (List.map (Statement.renumber c)) := by
  cases hi : i.isComparison with
  | true =>
    cases i with
    | operation o =>
      rcases o with u | b | k
      · cases hi
      · cases hi
      · rfl
    | _ => cases hi
  | false =>
    rw [code_shift_of_ne hi]
    cases hcode : i.code scope with
    | error fault => rfl
    | ok code =>
      have hsame : code.map (Statement.renumber c) = code := by
        refine (List.map_congr_left fun s hs => ?_).trans (List.map_id code)
        apply Statement.renumber_of_comparison?_none
        cases hn : s.comparison? with
        | none => rfl
        | some n => cases hi.symm.trans (comparison?_code hcode hs hn).1
      rw [Except.map, hsame]

theorem after_shift (i : Instruction) (c : Nat) (scope : Scope) :
    i.after (scope.shift c) = (i.after scope).shift c := by
  cases i with
  | operation o =>
    rcases o with u | b | k
    · rfl
    · rfl
    · simp only [after, Scope.shift, Nat.add_right_comm]
  | _ => rfl

end Instruction

/-! ## A unit behind others -/

theorem Placed.emitted_shift (options : Options) (c : Nat) (scope : Scope) (l : SourceLine) :
    (Placed.mk (scope.shift c) l).emitted options =
      ((Placed.mk scope l).emitted options).map (Statement.renumber c) := by
  have hremark : ∀ words, (({ options } : Session).remark words).map (Statement.renumber c) =
      ({ options } : Session).remark words := by
    intro words
    rw [Session.remark]
    split <;> rfl
  rw [emitted, emitted, List.map_append, hremark]
  congr 1
  show ((l.instruction.code (scope.shift c)).toOption.getD []) = _
  rw [Instruction.code_shift, code, instruction]
  cases l.instruction.code scope <;> rfl

namespace Scope

theorem place_shift (options : Options) (c : Nat) (scope : Scope) (ls : List SourceLine) :
    ((scope.shift c).place ls).flatMap (Placed.emitted options) =
      ((scope.place ls).flatMap (Placed.emitted options)).map (Statement.renumber c) := by
  induction ls generalizing scope with
  | nil => rfl
  | cons l ls ih =>
    rw [place, place, List.flatMap_cons, List.flatMap_cons, List.map_append, Placed.emitted_shift,
      Instruction.after_shift, ih]

/-- Lines that begin with a `function` have the code that they have in a new scope, but for
    the numbers of their comparisons. -/
theorem place_of_function (options : Options) (scope : Scope) {ls : List SourceLine}
    (h : ∀ l ∈ ls.head?, l.instruction.isFunction = true) :
    (scope.place ls).flatMap (Placed.emitted options) =
      (((({} : Scope).inUnit scope.unit).place ls).flatMap (Placed.emitted options)).map
        (Statement.renumber scope.comparisons) := by
  cases ls with
  | nil => rfl
  | cons l ls =>
    obtain ⟨i, number, text⟩ := l
    cases i with
    | function f n =>
      -- behind the `function` the two scopes differ in their comparisons alone
      have hafter : (Instruction.function f n).after scope =
          ((Instruction.function f n).after (({} : Scope).inUnit scope.unit)).shift scope.comparisons := by
        simp only [Instruction.after, inUnit, shift, Nat.zero_add]
      rw [place, place, List.flatMap_cons, List.flatMap_cons, List.map_append, ← Placed.emitted_shift, hafter,
        place_shift]
      rfl
    | _ => cases h _ rfl

theorem comparisons_behind_eq (scope : Scope) (is : List Instruction) :
    (scope.behind is).comparisons = scope.comparisons + is.countP Instruction.isComparison := by
  induction is generalizing scope with
  | nil => rfl
  | cons i is ih =>
    have hstep : (i.after scope).comparisons = scope.comparisons + if i.isComparison then 1 else 0 := by
      cases i with
      | operation o => rcases o with u | b | k <;> rfl
      | _ => rfl
    show ((i.after scope).behind is).comparisons = _
    rw [ih, hstep, List.countP_cons]
    omega

end Scope

/-- The unit has no instruction before its first `function`. -/
def SourceUnit.StartsAnew (u : SourceUnit) : Prop :=
  ∀ i ∈ u.instructions.head?, i.isFunction = true

instance (u : SourceUnit) : Decidable u.StartsAnew :=
  inferInstanceAs (Decidable (∀ i ∈ u.instructions.head?, i.isFunction = true))

def SourceUnit.alone (options : Options) (u : SourceUnit) : List Statement :=
  ((({} : Scope).inUnit u.name).place u.readLines).flatMap (Placed.emitted options)

def comparisonsIn (before : List SourceUnit) : Nat :=
  (instructions before).countP Instruction.isComparison

theorem unitCode_eq_map (options : Options) (before : List SourceUnit) {u : SourceUnit} (h : u.StartsAnew) :
    unitCode options before u = (u.alone options).map (Statement.renumber (comparisonsIn before)) := by
  have hstart : options.startScope.comparisons = 0 := by
    rw [Options.startScope]
    split <;> rfl
  have hcount : (options.scopeBehind before).comparisons = comparisonsIn before := by
    rw [Options.scopeBehind, Scope.comparisons_behind_eq, hstart, Nat.zero_add, comparisonsIn]
  have hfirst : ∀ l ∈ u.readLines.head?, l.instruction.isFunction = true := by
    intro l hl
    refine h l.instruction ?_
    rw [SourceUnit.instructions, List.head?_map, hl]
    rfl
  rw [unitCode, Scope.place_of_function options _ hfirst, ← hcount]
  rfl

namespace Session

theorem lines_of_writeLines {s s' : Session} {ls : List SourceLine} {code : List Statement}
    (h : s.writeLines ls = (code, .ok s')) : s.lines ls = (.ok code, s') := by
  induction ls generalizing s code with
  | nil =>
    cases h
    rfl
  | cons l ls ih =>
    unfold writeLines at h
    unfold lines
    rcases hline : s.line l with ⟨e | first, s₁⟩
    · rw [hline] at h
      cases h
    · rw [hline] at h
      rcases hrest : s₁.writeLines ls with ⟨rest, outcome⟩
      simp only [hrest] at h
      cases h
      simp only [ih hrest]

end Session

theorem lines_alone {options : Options} {units : List SourceUnit} (h : Accepted options units) {u : SourceUnit}
    (hu : u ∈ units) : ((({ options } : Session).inUnit u.name).lines u.readLines).1 = .ok (u.alone options) := by
  have hcoded : ∀ p ∈ (({} : Scope).inUnit u.name).place u.readLines, p.instruction.code p.scope = .ok p.code := by
    intro p hp
    have hmem : p.instruction ∈ instructions units :=
      List.mem_flatMap.mpr ⟨u, hu, List.mem_map_of_mem (Scope.line_mem_of_mem_place hp)⟩
    obtain ⟨code, hcode⟩ := h.faultless hmem p.scope
    exact Placed.code_of_ok hcode
  rw [Session.lines_of_writeLines (@Session.writeLines_eq (({ options } : Session).inUnit u.name) u.readLines hcoded)]
  rfl

/-! ## Units in another order -/

def lineLength (options : Options) (l : SourceLine) : Nat :=
  ((Placed.mk {} l).emitted options).length

theorem Placed.length_emitted (options : Options) (p : Placed) :
    (p.emitted options).length = lineLength options p.line := by
  have hcode : p.code.length = (Placed.mk {} p.line).code.length := by
    have hlength := p.line.instruction.code_map_length p.scope {}
    rw [code, code, instruction, instruction]
    revert hlength
    cases p.line.instruction.code p.scope <;> cases p.line.instruction.code {} <;> intro hlength
    · rfl
    · cases hlength
    · cases hlength
    · exact Except.ok.inj hlength
  rw [lineLength, emitted, emitted, List.length_append, List.length_append, hcode]

theorem length_placed (options : Options) (ps : List Placed) :
    (ps.flatMap (Placed.emitted options)).length = ((ps.map Placed.line).map (lineLength options)).sum := by
  induction ps with
  | nil => rfl
  | cons p ps ih =>
    rw [List.flatMap_cons, List.length_append, ih, Placed.length_emitted]
    rfl

namespace Session

/-- Units that can be read and hold no faulty instruction are all written. -/
theorem writeUnits_eq {s : Session} {units : List SourceUnit} (hu : ∀ u ∈ units, u.lines = .ok u.readLines)
    (h : ∀ p ∈ s.scope.placeUnits (units.map fun u => (u.name, u.readLines)), p.instruction.code p.scope = .ok p.code) :
    (s.writeUnits units).outcome = .ok (units.map SourceUnit.readLines) ∧ (s.writeUnits units).written =
      (s.scope.placeUnits (units.map fun u => (u.name, u.readLines))).flatMap (Placed.emitted s.options) := by
  induction units generalizing s with
  | nil => exact ⟨rfl, rfl⟩
  | cons u us ih =>
    rw [List.map_cons, Scope.placeUnits, List.forall_mem_append] at h
    have hwrite := @writeLines_eq (s.inUnit u.name) u.readLines h.1
    obtain ⟨hrest, hwritten⟩ := @ih { s with scope := (s.scope.inUnit u.name).behind u.instructions }
      (fun v hv => hu v (List.mem_cons_of_mem _ hv)) h.2
    unfold writeUnits
    rw [hu u List.mem_cons_self]
    simp only [hwrite]
    refine ⟨?_, ?_⟩
    · show Except.map _ (writeUnits { s with scope := (s.scope.inUnit u.name).behind u.instructions } us).outcome = _
      rw [hrest]
      rfl
    · rw [List.map_cons, Scope.placeUnits, List.flatMap_append]
      exact congrArg _ hwritten

end Session

section Orders

variable {options : Options} {units : List SourceUnit}

def summaryOf (options : Options) (units : List SourceUnit) : Summary :=
  ⟨units.length, (instructions units).length, options.opening.length +
    ((units.flatMap SourceUnit.readLines).map (lineLength options)).sum + options.closing.length⟩

/-- Units are accepted if their names differ, the entry is the name of a procedure, all can
    be read and no instruction is faulty, and what comes out is as long as they say. -/
theorem outcome_of_faultless (hn : (units.map (·.name)).Nodup)
    (he : options.bootstrap = true → Name.procedureFault? options.entry = none)
    (hr : ∀ u ∈ units, u.lines = .ok u.readLines)
    (hc : ∀ i ∈ instructions units, ∃ scope code, i.code scope = .ok code) :
    (translate options units).outcome = .ok (summaryOf options units) := by
  have hcoded : ∀ p ∈ listing options units, p.instruction.code p.scope = .ok p.code := by
    intro p hp
    have hmem : p.instruction ∈ instructions units := by
      rw [← listing_instructions options units]
      exact List.mem_map_of_mem hp
    obtain ⟨scope, code, hcode⟩ := hc _ hmem
    -- whether an instruction is faulty does not depend on the scope
    obtain ⟨code', hcode', -⟩ := Instruction.exists_code hcode p.scope
    exact Placed.code_of_ok hcode'
  obtain ⟨hout, hwritten⟩ := @Session.writeUnits_eq { options, scope := options.startScope } units hr hcoded
  have hlength := length_placed options (listing options units)
  rw [listing, Scope.placeUnits_lines, List.flatMap_map] at hlength
  have hread : (units.map SourceUnit.readLines).flatten.length = (instructions units).length := by
    rw [instructions, ← List.flatMap_def, ← List.map_flatMap, List.length_map]
  unfold translate
  rw [repeatedName?_nil_eq_none_iff.mpr hn, Session.start_eq he]
  simp only [hout, hwritten, List.length_append, List.length_map, hread]
  rw [hlength]
  rfl

theorem Accepted.outcome (h : Accepted options units) :
    (translate options units).outcome = .ok (summaryOf options units) :=
  outcome_of_faultless h.names h.entry h.read fun _ hi => ⟨{}, h.faultless hi {}⟩

theorem summaryOf_perm {units' : List SourceUnit} (h : units'.Perm units) :
    summaryOf options units' = summaryOf options units := by
  have hlength : (instructions units').length = (instructions units).length := (h.flatMap_right _).length_eq
  have hsum := ((h.flatMap_right SourceUnit.readLines).map (lineLength options)).sum_nat
  rw [summaryOf, summaryOf, h.length_eq, hlength, hsum]

/-- Accepted units are accepted in any order, and the program is as long. -/
theorem outcome_perm {units' : List SourceUnit} (h : Accepted options units) (hp : units'.Perm units) :
    (translate options units').outcome = .ok (summaryOf options units) := by
  rw [← summaryOf_perm hp]
  refine outcome_of_faultless ((hp.map _).nodup_iff.mpr h.names) h.entry (fun u hu => h.read u (hp.mem_iff.mp hu)) ?_
  intro i hi
  exact ⟨{}, h.faultless ((hp.flatMap_right _).mem_iff.mp hi) {}⟩

/-- The code of a unit that begins with a `function` is the code that it has alone, with the
    numbers of its comparisons behind those of the units before it. In another order the
    units are accepted with the same summary; and if all begin with a `function`, their
    pieces of code are the same but for those numbers. -/
theorem units_independent {summary : Summary} (h : (translate options units).outcome = .ok summary) :
    (∀ (i : Nat) (u : SourceUnit), units[i]? = some u → u.StartsAnew →
      ∃ alone, ((({ options } : Session).inUnit u.name).lines u.readLines).1 = .ok alone ∧
        (unitCodes options units)[i]? = some (alone.map (Statement.renumber (comparisonsIn (units.take i))))) ∧
    ∀ units' : List SourceUnit, units'.Perm units → (translate options units').outcome = .ok summary ∧
      (translate options units').written = options.opening ++ (unitCodes options units').flatten ++ options.closing ∧
      ((∀ u ∈ units, u.StartsAnew) → ∀ (i j : Nat) (u : SourceUnit), units[i]? = some u → units'[j]? = some u →
        ∃ alone, ((({ options } : Session).inUnit u.name).lines u.readLines).1 = .ok alone ∧
          (unitCodes options units)[i]? = some (alone.map (Statement.renumber (comparisonsIn (units.take i)))) ∧
          (unitCodes options units')[j]? = some (alone.map (Statement.renumber (comparisonsIn (units'.take j))))) := by
  have hplace : ∀ {us : List SourceUnit}, Accepted options us → ∀ {i : Nat} {u : SourceUnit}, us[i]? = some u →
      u.StartsAnew → ((({ options } : Session).inUnit u.name).lines u.readLines).1 = .ok (u.alone options) ∧
        (unitCodes options us)[i]? =
          some ((u.alone options).map (Statement.renumber (comparisonsIn (us.take i)))) := by
    intro us hacc i u hi hstarts
    refine ⟨lines_alone hacc (List.mem_of_getElem? hi), ?_⟩
    rw [getElem?_unitCodes hacc, hi, Option.map_some, unitCode_eq_map options _ hstarts]
  have hacc := accepted_of_ok h
  refine ⟨fun i u hi hstarts => ⟨_, hplace hacc hi hstarts⟩, fun units' hperm => ?_⟩
  have hsame : (translate options units').outcome = .ok summary := by
    rw [outcome_perm hacc hperm, ← hacc.outcome, h]
  refine ⟨hsame, written_eq_unitCodes hsame, fun hall i j u hi hj => ?_⟩
  have hstarts := hall u (List.mem_of_getElem? hi)
  obtain ⟨halone, hcode⟩ := hplace hacc hi hstarts
  exact ⟨_, halone, hcode, (hplace (accepted_of_ok hsame) hj hstarts).2⟩

end Orders

def compares : SourceUnit := ⟨"A", "function F 0\npush constant 1\npush constant 2\nlt\nreturn\n"⟩

def comparesTwice : SourceUnit :=
  ⟨"B", "function G 0\npush constant 1\npush constant 2\neq\npush constant 3\ngt\nreturn\n"⟩

/-- Behind the other unit the one comparison gets number 2 and its lines move along. -/
theorem units_independent_swapped :
    ∃ summary alone, (translate {} [compares, comparesTwice]).outcome = .ok summary ∧
      (translate {} [comparesTwice, compares]).outcome = .ok summary ∧
      (unitCodes {} [compares, comparesTwice])[0]? = some (alone.map (Statement.renumber 0)) ∧
      (unitCodes {} [comparesTwice, compares])[1]? = some (alone.map (Statement.renumber 2)) ∧
      ((({} : Session).inUnit "A").lines compares.readLines).1 = .ok alone := by
  have hok : (translate {} [compares, comparesTwice]).outcome = .ok ⟨2, 12, 231⟩ := by decide +kernel
  obtain ⟨hfirst, hother⟩ := units_independent hok
  obtain ⟨hsame, -, hcodes⟩ := hother [comparesTwice, compares] (List.Perm.swap _ _ _)
  obtain ⟨alone, halone, hcode, hcode'⟩ := hcodes (by decide +kernel) 0 1 compares rfl rfl
  have hcount : comparisonsIn [comparesTwice] = 2 := by decide +kernel
  refine ⟨_, alone, hok, hsame, hcode, ?_, halone⟩
  rw [← hcount]
  exact hcode'

end StackToHack
