/-
  StackToHack.Proofs.Units — the code of each unit in a program.

  `unitCodes` takes a run apart: the code that each unit gave, in order. A unit is
  translated in the scope that the units before it leave, and nothing else of them
  matters, so its code is `unitCode` of these units.
  - `written_eq_unitCodes`: a run that ends well writes the opening, the code of each
    unit and the closing.
  - `getElem?_unitCodes`: the code of a unit, by its place.
  - `symbol?_unitCode`: the symbols that the code of a unit defines.
-/

import StackToHack.Proofs.Labels

namespace StackToHack

/-! ## Faults -/

namespace Instruction

/-- Whether an instruction has code, and how much, depends on no scope. -/
theorem code_map_length (i : Instruction) (scope scope' : Scope) :
    (i.code scope).map List.length = (i.code scope').map List.length := by
  cases i with
  | operation o => rcases o with u | b | c <;> rfl
  | push segment index => cases segment <;> rfl
  | pop segment index => cases segment <;> rfl
  | label l | goto l | ifGoto l | call f n =>
    simp only [code, named]
    split <;> rfl
  | function f n | ret => rfl

theorem exists_code {i : Instruction} {scope : Scope} {code : List Statement} (h : i.code scope = .ok code)
    (scope' : Scope) : ∃ code', i.code scope' = .ok code' ∧ code'.length = code.length := by
  have hlength := i.code_map_length scope' scope
  rw [h] at hlength
  obtain ⟨code', hcode', he⟩ := map_eq_ok hlength
  exact ⟨code', hcode', he.symm⟩

end Instruction

theorem Placed.code_of_ok {p : Placed} {code : List Statement} (h : p.instruction.code p.scope = .ok code) :
    p.instruction.code p.scope = .ok p.code := by
  rw [Placed.code, h]
  rfl

/-! ## The code of each unit -/

namespace Session

/-- What each unit gives, up to the first that fails. -/
def unitCodes (s : Session) : List SourceUnit → List (List Statement)
  | [] => []
  | u :: us => match u.lines with
    | .error _ => []
    | .ok lines => match (s.inUnit u.name).writeLines lines with
      | (code, .error _) => [code]
      | (code, .ok s) => code :: s.unitCodes us

theorem writeUnits_written (s : Session) (units : List SourceUnit) :
    (s.writeUnits units).written = (s.unitCodes units).flatten := by
  induction units generalizing s with
  | nil => rfl
  | cons u units ih =>
    unfold writeUnits unitCodes
    cases u.lines with
    | error e => rfl
    | ok lines =>
      simp only
      rcases (s.inUnit u.name).writeLines lines with ⟨code, e | s'⟩
      · simp
      · simp [ih]

end Session

def unitCodes (options : Options) (units : List SourceUnit) : List (List Statement) :=
  match ({ options } : Session).start with
  | (.error _, _) => []
  | (.ok _, session) => session.unitCodes units

def SourceUnit.instructions (u : SourceUnit) : List Instruction :=
  u.readLines.map (·.instruction)

theorem instructions_append (first second : List SourceUnit) :
    instructions (first ++ second) = instructions first ++ instructions second :=
  List.flatMap_append

theorem instructions_cons (u : SourceUnit) (us : List SourceUnit) :
    instructions (u :: us) = u.instructions ++ instructions us :=
  List.flatMap_cons

def Options.scopeBehind (options : Options) (before : List SourceUnit) : Scope :=
  options.startScope.behind (instructions before)

def unitCode (options : Options) (before : List SourceUnit) (u : SourceUnit) : List Statement :=
  (((options.scopeBehind before).inUnit u.name).place u.readLines).flatMap (Placed.emitted options)

/-! ## Scopes between units -/

namespace Scope

theorem behind_append (scope : Scope) (first second : List Instruction) :
    scope.behind (first ++ second) = (scope.behind first).behind second :=
  List.foldl_append

theorem behind_inUnit (scope : Scope) (unit : String) (is : List Instruction) :
    (scope.inUnit unit).behind is = (scope.behind is).inUnit unit := by
  induction is generalizing scope with
  | nil => rfl
  | cons i is ih =>
    show (i.after (scope.inUnit unit)).behind is = _
    rw [after_inUnit, ih]
    rfl

/-- The unit of a scope is gone when the next one starts. -/
theorem inUnit_inUnit (scope : Scope) (first second : String) :
    (scope.inUnit first).inUnit second = scope.inUnit second := rfl

end Scope

namespace Session

/-- Lines whose code is faultless are all written. -/
theorem writeLines_eq {s : Session} {ls : List SourceLine}
    (h : ∀ p ∈ s.scope.place ls, p.instruction.code p.scope = .ok p.code) :
    s.writeLines ls = ((s.scope.place ls).flatMap (Placed.emitted s.options),
      .ok { s with scope := s.scope.behind (ls.map (·.instruction)) }) := by
  induction ls generalizing s with
  | nil => rfl
  | cons l ls ih =>
    have hcode : l.instruction.code s.scope = .ok (Placed.mk s.scope l).code := h _ List.mem_cons_self
    have hrest := @ih { s with scope := l.instruction.after s.scope } fun p hp => h p (List.mem_cons_of_mem _ hp)
    have hline : s.line l = (.ok ((Placed.mk s.scope l).emitted s.options),
        { s with scope := l.instruction.after s.scope }) := by
      rw [line, hcode]
      rfl
    unfold writeLines
    rw [hline]
    simp only
    rw [hrest]
    rfl

/-- A unit whose lines are faultless gives their code, whatever comes behind it. -/
theorem unitCodes_cons {s : Session} {u : SourceUnit} {us : List SourceUnit} (hu : u.lines = .ok u.readLines)
    (h : ∀ p ∈ (s.scope.inUnit u.name).place u.readLines, p.instruction.code p.scope = .ok p.code) :
    s.unitCodes (u :: us) = ((s.scope.inUnit u.name).place u.readLines).flatMap (Placed.emitted s.options) ::
      ({ s with scope := (s.scope.behind u.instructions).inUnit u.name } : Session).unitCodes us := by
  have hwrite := @writeLines_eq (s.inUnit u.name) u.readLines h
  conv_lhs => unfold unitCodes
  rw [hu]
  simp only
  rw [hwrite]
  simp only [inUnit, Scope.behind_inUnit]
  rfl

theorem getElem?_unitCodes {s : Session} {units : List SourceUnit} (hu : ∀ u ∈ units, u.lines = .ok u.readLines)
    (h : ∀ p ∈ s.scope.placeUnits (units.map fun u => (u.name, u.readLines)), p.instruction.code p.scope = .ok p.code)
    (i : Nat) :
    (s.unitCodes units)[i]? = units[i]?.map fun u =>
      (((s.scope.behind (instructions (units.take i))).inUnit u.name).place u.readLines).flatMap
        (Placed.emitted s.options) := by
  induction units generalizing s i with
  | nil => rfl
  | cons u us ih =>
    rw [List.map_cons, Scope.placeUnits, List.forall_mem_append] at h
    rw [unitCodes_cons (hu u List.mem_cons_self) h.1]
    cases i with
    | zero => rfl
    | succ i =>
      have hrest := @ih { s with scope := (s.scope.behind u.instructions).inUnit u.name }
        (fun v hv => hu v (List.mem_cons_of_mem _ hv)) (by rw [← Scope.behind_inUnit]; exact h.2) i
      rw [List.getElem?_cons_succ, List.getElem?_cons_succ, List.take_succ_cons, instructions_cons, Scope.behind_append,
        hrest]
      simp only [Scope.behind_inUnit, Scope.inUnit_inUnit]

end Session

section Programs

variable {options : Options} {units : List SourceUnit}

theorem Session.start_eq (he : options.bootstrap = true → Name.procedureFault? options.entry = none) :
    ({ options } : Session).start = (.ok options.opening, { options, scope := options.startScope }) := by
  unfold Session.start Options.opening Options.startScope
  by_cases hb : options.bootstrap = true
  · simp only [hb, if_true, Session.bootstrap, he hb]
  · simp only [hb]
    rfl

theorem unitCodes_of_accepted (h : Accepted options units) :
    unitCodes options units = ({ options, scope := options.startScope } : Session).unitCodes units := by
  rw [unitCodes, Session.start_eq h.entry]

/-- The code of a unit is made in the scope that the units before it leave. -/
theorem getElem?_unitCodes (h : Accepted options units) (i : Nat) :
    (unitCodes options units)[i]? = units[i]?.map (unitCode options (units.take i)) := by
  rw [unitCodes_of_accepted h]
  exact @Session.getElem?_unitCodes { options, scope := options.startScope } units h.read h.coded i

/-- A program is the opening, the code of each unit and the closing. -/
theorem written_eq_unitCodes {summary : Summary} (h : (translate options units).outcome = .ok summary) :
    (translate options units).written = options.opening ++ (unitCodes options units).flatten ++ options.closing := by
  have hcodes := unitCodes_of_accepted (accepted_of_ok h)
  unfold translate at h ⊢
  split at h
  · cases h
  · rename_i hnames
    split at h
    · cases h
    · rename_i opening s hstart
      obtain ⟨-, rfl, rfl⟩ := Session.start_ok hstart
      simp only at h
      split at h
      · cases h
      · rename_i read hread
        simp only [hread, Session.writeUnits_written, hcodes]
        rfl

/-- No instruction of an accepted program is faulty, in whatever scope. -/
theorem Accepted.faultless (h : Accepted options units) {i : Instruction} (hi : i ∈ instructions units)
    (scope : Scope) : ∃ code, i.code scope = .ok code := by
  rw [← listing_instructions options units] at hi
  obtain ⟨p, hp, rfl⟩ := List.mem_map.mp hi
  obtain ⟨code, hcode, -⟩ := Instruction.exists_code (h.coded p hp) scope
  exact ⟨code, hcode⟩

theorem Scope.line_mem_of_mem_place {scope : Scope} {ls : List SourceLine} {p : Placed} (hp : p ∈ scope.place ls) :
    p.line ∈ ls := by
  rw [← place_lines scope ls]
  exact List.mem_map_of_mem hp

theorem symbol?_unitCode (h : Accepted options units) {u : SourceUnit} (hu : u ∈ units) (before : List SourceUnit) :
    (unitCode options before u).filterMap Statement.symbol? =
      (options.scopeBehind before).symbols u.instructions := by
  rw [unitCode, Scope.symbol?_place]
  · exact Scope.symbols_inUnit _ _ _
  · intro p hp
    have hline := Scope.line_mem_of_mem_place hp
    have hmem : p.instruction ∈ instructions units :=
      List.mem_flatMap.mpr ⟨u, hu, List.mem_map_of_mem hline⟩
    obtain ⟨code, hcode⟩ := h.faultless hmem p.scope
    exact Placed.code_of_ok hcode

end Programs

end StackToHack
