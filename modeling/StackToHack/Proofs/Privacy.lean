/-
  StackToHack.Proofs.Privacy — every unit has static variables of its own.

  The code of a line is made in the scope that all before it leaves, and the unit of that
  scope is the one that the line stands in: it is set when the unit begins, and no
  instruction moves it. A static variable is written as the name of its unit, a dot and
  its index, so the last dot of the name parts the two, whatever dots and digits a unit
  has in its own name. No two units share a name.
  - `WritesAt`: what a run writes for one line of one unit.
  - `addressed_of_static`: the name that an access to a static variable loads.
  - `statics_private`: when two accesses load the same name.
-/

import StackToHack.Proofs.Units
import StackToHack.Proofs.Variables

namespace StackToHack

/-! ## Lines in their units -/

def placedUnit (options : Options) (before : List SourceUnit) (u : SourceUnit) : List Placed :=
  ((options.scopeBehind before).inUnit u.name).place u.readLines

/-- For line `m` of unit `a` the run writes this code, under the comment that the options
    ask for, behind the opening, the code of the units before and that of the lines before. -/
def WritesAt (options : Options) (units : List SourceUnit) (a m : Nat) (code : List Statement) : Prop :=
  ∃ u p rest, units[a]? = some u ∧ (placedUnit options (units.take a) u)[m]? = some p ∧ p.code = code ∧
    (translate options units).written = options.opening ++ ((unitCodes options units).take a).flatten ++
      ((placedUnit options (units.take a) u).take m).flatMap (Placed.emitted options) ++ p.emitted options ++ rest

namespace Scope

theorem unit_of_mem_place {scope : Scope} {ls : List SourceLine} {p : Placed} (hp : p ∈ scope.place ls) :
    p.scope.unit = scope.unit := by
  induction ls generalizing scope with
  | nil => cases hp
  | cons l ls ih =>
    rcases List.mem_cons.mp hp with rfl | hp
    · rfl
    · exact (ih hp).trans (unit_after scope l.instruction)

end Scope

theorem eq_take_append_cons_drop {α : Type} {l : List α} {i : Nat} {x : α} (h : l[i]? = some x) :
    l = l.take i ++ x :: l.drop (i + 1) := by
  obtain ⟨hlt, rfl⟩ := List.getElem?_eq_some_iff.mp h
  rw [← List.drop_eq_getElem_cons hlt, List.take_append_drop]

/-! ## Names -/

/-- The names that code loads, that of the stack pointer apart. -/
def Statement.addressed (code : List Statement) : List String :=
  ((code.filterMap load?).filter (· ≠ .predefined .sp)).map Symbol.text

/-- An access to a static variable loads its name, in whichever direction it goes. -/
theorem addressed_of_static {scope : Scope} {i : Nat} {k : Instruction} {code : List Statement}
    (hk : k = .push .static i ∨ k = .pop .static i) (h : k.code scope = .ok code) :
    Statement.addressed code = [(Symbol.static scope.unit i).text] := by
  rcases hk with rfl | rfl
  · cases h
    rfl
  · cases h
    rfl

section Programs

variable {options : Options} {units : List SourceUnit} {summary : Summary}

/-- The code that a run writes for an access to a static variable. -/
theorem writesAt_static (h : (translate options units).outcome = .ok summary) {a m i : Nat} {u : SourceUnit}
    {k : Instruction} (hu : units[a]? = some u) (hk : u.instructions[m]? = some k)
    (hi : k = .push .static i ∨ k = .pop .static i) :
    ∃ code, WritesAt options units a m code ∧ Statement.addressed code = [(Symbol.static u.name i).text] := by
  have haccepted := accepted_of_ok h
  obtain ⟨p, hp, hinstruction⟩ : ∃ p, (placedUnit options (units.take a) u)[m]? = some p ∧ p.instruction = k := by
    rw [SourceUnit.instructions, ← Scope.place_lines ((options.scopeBehind (units.take a)).inUnit u.name) u.readLines,
      List.map_map, List.getElem?_map] at hk
    exact Option.map_eq_some_iff.mp hk
  have hmem : p ∈ placedUnit options (units.take a) u := List.mem_of_getElem? hp
  have hunit : p.scope.unit = u.name := Scope.unit_of_mem_place hmem
  have hcode : p.instruction.code p.scope = .ok p.code := by
    have hk' : k ∈ instructions units :=
      List.mem_flatMap.mpr ⟨u, List.mem_of_getElem? hu, List.mem_of_getElem? hk⟩
    obtain ⟨code, hcode⟩ := haccepted.faultless (hinstruction ▸ hk') p.scope
    exact Placed.code_of_ok hcode
  refine ⟨p.code, ⟨u, p, ?_, hu, hp, rfl, ?_⟩, ?_⟩
  · exact ((placedUnit options (units.take a) u).drop (m + 1)).flatMap (Placed.emitted options) ++
      ((unitCodes options units).drop (a + 1)).flatten ++ options.closing
  · have hown : (unitCodes options units)[a]? = some (unitCode options (units.take a) u) := by
      rw [getElem?_unitCodes haccepted, hu, Option.map_some]
    have hlines : unitCode options (units.take a) u =
        (placedUnit options (units.take a) u).flatMap (Placed.emitted options) := rfl
    conv_lhs => rw [written_eq_unitCodes h, eq_take_append_cons_drop hown, hlines, eq_take_append_cons_drop hp]
    simp only [List.flatten_append, List.flatten_cons, List.flatMap_append, List.flatMap_cons, List.append_assoc]
  · rw [addressed_of_static hi (hinstruction ▸ hcode), hunit]

/-- Two accesses to static variables load the same name just if they stand in the same unit
    and have the same index. -/
theorem statics_private (h : (translate options units).outcome = .ok summary) {a b m n i j : Nat} {u v : SourceUnit}
    {k l : Instruction} (hu : units[a]? = some u) (hk : u.instructions[m]? = some k)
    (hi : k = .push .static i ∨ k = .pop .static i) (hv : units[b]? = some v) (hl : v.instructions[n]? = some l)
    (hj : l = .push .static j ∨ l = .pop .static j) :
    ∃ code code' name name', WritesAt options units a m code ∧ WritesAt options units b n code' ∧
      Statement.addressed code = [name] ∧ Statement.addressed code' = [name'] ∧ (name = name' ↔ a = b ∧ i = j) := by
  obtain ⟨code, hcode, hname⟩ := writesAt_static h hu hk hi
  obtain ⟨code', hcode', hname'⟩ := writesAt_static h hv hl hj
  refine ⟨code, code', _, _, hcode, hcode', hname, hname', ?_⟩
  constructor
  · intro hsame
    obtain ⟨hunits, rfl⟩ := Symbol.static_text_injective hsame
    have hlt : a < (units.map (·.name)).length := by
      rw [List.length_map]
      exact (List.getElem?_eq_some_iff.mp hu).1
    refine ⟨(List.getElem?_inj hlt (accepted_of_ok h).names).mp ?_, rfl⟩
    rw [List.getElem?_map, List.getElem?_map, hu, hv, Option.map_some, Option.map_some, hunits]
  · rintro ⟨rfl, rfl⟩
    obtain rfl := Option.some.inj (hu.symm.trans hv)
    rfl

end Programs

/-- Two units whose variables differ only by where the digits stand. -/
def neighbours : List SourceUnit :=
  [⟨"A.1", "push static 2\n"⟩, ⟨"A", "pop static 12 // far\npush static 12\n"⟩]

/-- Variable 2 of `A.1` is not variable 12 of `A`, which both lines of `A` access. -/
theorem statics_private_neighbours :
    (∃ code code' name name', WritesAt {} neighbours 0 0 code ∧ WritesAt {} neighbours 1 0 code' ∧
        Statement.addressed code = [name] ∧ Statement.addressed code' = [name'] ∧ name ≠ name') ∧
      ∃ code code' name, WritesAt {} neighbours 1 0 code ∧ WritesAt {} neighbours 1 1 code' ∧
        Statement.addressed code = [name] ∧ Statement.addressed code' = [name] := by
  have hok : (translate {} neighbours).outcome = .ok ⟨2, 3, 75⟩ := by decide +kernel
  have hpush : neighbours[0].instructions[0]? = some (.push .static 2) := by decide +kernel
  have hfar : neighbours[1].instructions[0]? = some (.pop .static 12) := by decide +kernel
  have hagain : neighbours[1].instructions[1]? = some (.push .static 12) := by decide +kernel
  constructor
  · obtain ⟨code, code', name, name', hcode, hcode', hname, hname', hiff⟩ :=
      @statics_private {} neighbours _ hok 0 1 0 0 2 12 _ _ _ _ rfl hpush (.inl rfl) rfl hfar (.inr rfl)
    exact ⟨code, code', name, name', hcode, hcode', hname, hname', fun hsame => absurd (hiff.mp hsame).1 (by decide)⟩
  · obtain ⟨code, code', name, name', hcode, hcode', hname, hname', hiff⟩ :=
      @statics_private {} neighbours _ hok 1 1 0 1 12 12 _ _ _ _ rfl hfar (.inr rfl) rfl hagain (.inl rfl)
    obtain rfl := hiff.mpr ⟨rfl, rfl⟩
    exact ⟨code, code', name, hcode, hcode', hname, hname'⟩

end StackToHack
