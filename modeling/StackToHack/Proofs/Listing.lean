/-
  StackToHack.Proofs.Listing — a program as one list of instructions.

  Units only matter for the names of static variables; everything else that the code of
  an instruction depends on runs through the whole program. So a program is the list of
  its instructions, each with the scope that its code is made in, `listing`.
  - `Accepted`: what a run that ends well has found of its input, `accepted_of_ok`.
  - `written_of_accepted`: such a run writes the opening, the code of the listing and the
    closing, in this order.
-/

import StackToHack.Run
import StackToHack.Proofs.Reading

namespace StackToHack

/-! ## Code -/

def Segment.isIndirect : Segment → Bool
  | locals | argument | this | that => true
  | _ => false

theorem map_eq_ok {ε α β : Type} {f : α → β} {x : Except ε α} {b : β} (h : x.map f = .ok b) :
    ∃ a, x = .ok a ∧ b = f a := by
  cases x with
  | error e => cases h
  | ok a => exact ⟨a, rfl, (Except.ok.inj h).symm⟩

theorem map_eq_error_iff {ε α β : Type} {f : α → β} {x : Except ε α} {e : ε} :
    x.map f = .error e ↔ x = .error e := by
  cases x <;> simp [Except.map]

namespace Fragment

theorem push_ok {scope : Scope} {index : Nat} {segment : Segment} {code : List Statement}
    (h : push scope index segment = .ok code) :
    (segment = .constant ∧ index ≤ maxIndex ∧ code = pushNumber index) ∨
      ∃ c, cell scope index segment = .ok c ∧ code = pushCell c := by
  cases segment with
  | constant =>
    unfold push at h
    simp only at h
    split at h
    · cases h
      exact .inl ⟨rfl, ‹_›, rfl⟩
    · cases h
  | _ => exact .inr (map_eq_ok h)

theorem pop_ok {scope : Scope} {index : Nat} {segment : Segment} {code : List Statement}
    (h : pop scope index segment = .ok code) : ∃ c, cell scope index segment = .ok c ∧ code = popCell c :=
  map_eq_ok h

/-- The cells of a segment lie at offsets from a pointer, or they are the static variables
    or predefined. -/
theorem cell_ok {scope : Scope} {index : Nat} {segment : Segment} {c : Cell} (h : cell scope index segment = .ok c) :
    (segment.isIndirect = true ∧ ∃ base, c = .offset base index) ∨
      (segment = .static ∧ c = .symbol (scope.static index)) ∨
      ((segment = .temp ∨ segment = .pointer) ∧ ∃ p, c = .symbol (.predefined p)) := by
  cases segment with
  | constant => cases h
  | locals | argument | this | that =>
    cases h
    exact .inl ⟨rfl, _, rfl⟩
  | static =>
    cases h
    exact .inr (.inl ⟨rfl, rfl⟩)
  | temp =>
    simp only [cell, temporary] at h
    split at h
    · cases h
      exact .inr (.inr ⟨.inl rfl, _, rfl⟩)
    · cases h
  | pointer =>
    simp only [cell] at h
    unfold basePointer at h
    split at h
    · cases h
      exact .inr (.inr ⟨.inr rfl, _, rfl⟩)
    · cases h
      exact .inr (.inr ⟨.inr rfl, _, rfl⟩)
    · cases h

end Fragment

theorem Instruction.named_ok {fault? : String → Option NameFault} {word : String} {code code' : List Statement}
    (h : named fault? word code = .ok code') : fault? word = none ∧ code' = code := by
  unfold named at h
  split at h
  · cases h
  · cases h
    exact ⟨‹_›, rfl⟩

/-! ## Placed instructions -/

structure Placed where
  scope : Scope
  line : SourceLine

namespace Placed

def instruction (p : Placed) : Instruction :=
  p.line.instruction

/-- The code, or nothing if the instruction is faulty. -/
def code (p : Placed) : List Statement :=
  (p.instruction.code p.scope).toOption.getD []

def emitted (options : Options) (p : Placed) : List Statement :=
  ({ options } : Session).remark p.line.text ++ p.code

end Placed

namespace Scope

def behind (scope : Scope) (is : List Instruction) : Scope :=
  is.foldl Instruction.after scope

def place (scope : Scope) : List SourceLine → List Placed
  | [] => []
  | l :: ls => ⟨scope, l⟩ :: (l.instruction.after scope).place ls

def placeUnits (scope : Scope) : List (String × List SourceLine) → List Placed
  | [] => []
  | (name, ls) :: rest => (scope.inUnit name).place ls ++ ((scope.inUnit name).behind (ls.map (·.instruction))).placeUnits rest

theorem place_lines (scope : Scope) (ls : List SourceLine) : (scope.place ls).map Placed.line = ls := by
  induction ls generalizing scope with
  | nil => rfl
  | cons l ls ih => rw [place, List.map_cons, ih]

theorem placeUnits_lines (scope : Scope) (units : List (String × List SourceLine)) :
    (scope.placeUnits units).map Placed.line = units.flatMap (·.2) := by
  induction units generalizing scope with
  | nil => rfl
  | cons u units ih => rw [placeUnits, List.map_append, place_lines, ih, List.flatMap_cons]

end Scope

/-! ## Programs -/

/-- The lines of a unit, none if it cannot be read. -/
def SourceUnit.readLines (u : SourceUnit) : List SourceLine :=
  u.lines.toOption.getD []

def instructions (units : List SourceUnit) : List Instruction :=
  units.flatMap fun u => u.readLines.map (·.instruction)

namespace Options

/-- The scope of the first instruction. The bootstrap's call counts. -/
def startScope (options : Options) : Scope :=
  if options.bootstrap then (Instruction.call options.entry 0).after {} else {}

def opening (options : Options) : List Statement :=
  if options.bootstrap then
    ({ options } : Session).remark "bootstrap" ++ Fragment.setUp ++ Fragment.call {} options.entry 0 ++ Fragment.halt
  else []

def closing (options : Options) : List Statement :=
  ({ options } : Session).finish

end Options

def listing (options : Options) (units : List SourceUnit) : List Placed :=
  options.startScope.placeUnits (units.map fun u => (u.name, u.readLines))

theorem listing_instructions (options : Options) (units : List SourceUnit) :
    (listing options units).map Placed.instruction = instructions units := by
  have e : (listing options units).map Placed.instruction =
      ((listing options units).map Placed.line).map (·.instruction) := by
    rw [List.map_map]
    rfl
  rw [e, listing, Scope.placeUnits_lines, List.flatMap_map, List.map_flatMap]
  rfl

/-! ## Sessions -/

namespace Session

theorem remark_congr {s t : Session} (h : s.options = t.options) (text : String) :
    s.remark text = t.remark text := by
  rw [remark, remark, h]

theorem eq_comment_of_mem_remark {s : Session} {words : String} {st : Statement} (h : st ∈ s.remark words) :
    st = .comment words := by
  unfold remark at h
  split at h
  · exact List.mem_singleton.mp h
  · cases h

theorem line_ok {s s' : Session} {l : SourceLine} {code : List Statement} (h : s.line l = (.ok code, s')) :
    l.instruction.code s.scope = .ok (Placed.mk s.scope l).code ∧ code = (Placed.mk s.scope l).emitted s.options ∧
      s' = { s with scope := l.instruction.after s.scope } := by
  unfold line at h
  split at h
  · rename_i c hc
    have hcode : (Placed.mk s.scope l).code = c := by
      rw [Placed.code, Placed.instruction, hc]
      rfl
    cases h
    rw [Placed.emitted, hcode]
    exact ⟨hc, congrArg (· ++ c) (remark_congr rfl _), rfl⟩
  · cases h

theorem writeLines_ok {s s' : Session} {ls : List SourceLine} {code : List Statement}
    (h : s.writeLines ls = (code, .ok s')) :
    (∀ p ∈ s.scope.place ls, p.instruction.code p.scope = .ok p.code) ∧
      code = (s.scope.place ls).flatMap (Placed.emitted s.options) ∧ s' = { s with scope := s.scope.behind (ls.map (·.instruction)) } := by
  induction ls generalizing s code with
  | nil =>
    cases h
    exact ⟨fun _ hp => absurd hp List.not_mem_nil, rfl, rfl⟩
  | cons l ls ih =>
    unfold writeLines at h
    split at h
    · cases h
    · rename_i c s₁ hline
      obtain ⟨hcode, rfl, rfl⟩ := line_ok hline
      rcases hrest : writeLines _ ls with ⟨rest, outcome⟩
      rw [hrest] at h
      cases h
      obtain ⟨hall, rfl, rfl⟩ := ih hrest
      refine ⟨fun p hp => ?_, rfl, rfl⟩
      rcases List.mem_cons.mp hp with rfl | hp
      · exact hcode
      · exact hall p hp

theorem writeUnits_ok {s : Session} {units : List SourceUnit} {read : List (List SourceLine)}
    (h : (s.writeUnits units).outcome = .ok read) :
    (∀ u ∈ units, u.lines = .ok u.readLines) ∧ read = units.map SourceUnit.readLines ∧
      (∀ p ∈ s.scope.placeUnits (units.map fun u => (u.name, u.readLines)), p.instruction.code p.scope = .ok p.code) ∧
      (s.writeUnits units).written =
        (s.scope.placeUnits (units.map fun u => (u.name, u.readLines))).flatMap (Placed.emitted s.options) := by
  induction units generalizing s read with
  | nil =>
    cases h
    exact ⟨fun _ hu => absurd hu List.not_mem_nil, rfl, fun _ hp => absurd hp List.not_mem_nil, rfl⟩
  | cons u units ih =>
    unfold writeUnits at h ⊢
    split at h
    · cases h
    · rename_i ls hlines
      have hread : u.readLines = ls := by
        rw [SourceUnit.readLines, hlines]
        rfl
      split at h
      · cases h
      · rename_i code s₁ hwrite
        obtain ⟨hall, rfl, rfl⟩ := writeLines_ok hwrite
        simp only [inUnit] at h ⊢
        cases hrest : (writeUnits ⟨s.options, (s.scope.inUnit u.name).behind (ls.map (·.instruction))⟩ units).outcome with
        | error e =>
          rw [hrest] at h
          cases h
        | ok others =>
          rw [hrest] at h
          cases h
          obtain ⟨hlines', rfl, hall', hwritten⟩ := ih hrest
          refine ⟨?_, ?_, ?_, ?_⟩
          · intro v hv
            rcases List.mem_cons.mp hv with rfl | hv
            · rw [hread, hlines]
            · exact hlines' v hv
          · rw [List.map_cons, hread]
          · intro p hp
            rw [List.map_cons, Scope.placeUnits, hread] at hp
            rcases List.mem_append.mp hp with hp | hp
            · exact hall p hp
            · exact hall' p hp
          · rw [hwritten, List.map_cons, Scope.placeUnits, List.flatMap_append, hread]

theorem start_ok {options : Options} {opening : List Statement} {s : Session}
    (h : ({ options } : Session).start = (.ok opening, s)) :
    (options.bootstrap = true → Name.procedureFault? options.entry = none) ∧ opening = options.opening ∧
      s = { options, scope := options.startScope } := by
  unfold start at h
  split at h
  · rename_i hb
    unfold bootstrap at h
    simp only at h
    split at h
    · cases h
    · rename_i hf
      cases h
      refine ⟨fun _ => hf, ?_, ?_⟩
      · rw [Options.opening, if_pos hb]
      · rw [Options.startScope, if_pos hb]
  · rename_i hb
    cases h
    refine ⟨fun h => absurd h hb, ?_, ?_⟩
    · rw [Options.opening, if_neg hb]
    · rw [Options.startScope, if_neg hb]

end Session

/-! ## Runs that end well -/

theorem repeatedName?_eq_none_iff {seen names : List String} :
    repeatedName? seen names = none ↔ names.Nodup ∧ ∀ name ∈ names, name ∉ seen := by
  induction names generalizing seen with
  | nil => simp [repeatedName?]
  | cons name names ih =>
    rw [repeatedName?, List.nodup_cons, List.forall_mem_cons]
    by_cases hname : name ∈ seen
    · simp [hname]
    · rw [if_neg hname, ih]
      simp only [List.mem_cons, not_or]
      constructor
      · rintro ⟨hnodup, hseen⟩
        exact ⟨⟨fun hmem => (hseen name hmem).1 rfl, hnodup⟩, hname, fun other ho => (hseen other ho).2⟩
      · rintro ⟨⟨hnew, hnodup⟩, -, hseen⟩
        refine ⟨hnodup, fun other ho => ⟨?_, hseen other ho⟩⟩
        rintro rfl
        exact hnew ho

/-- No name is reported when all differ. -/
theorem repeatedName?_nil_eq_none_iff {names : List String} : repeatedName? [] names = none ↔ names.Nodup := by
  simp [repeatedName?_eq_none_iff]

structure Accepted (options : Options) (units : List SourceUnit) : Prop where
  names : (units.map (·.name)).Nodup
  entry : options.bootstrap = true → Name.procedureFault? options.entry = none
  read : ∀ u ∈ units, u.lines = .ok u.readLines
  coded : ∀ p ∈ listing options units, p.instruction.code p.scope = .ok p.code
  written : (translate options units).written =
    options.opening ++ (listing options units).flatMap (Placed.emitted options) ++ options.closing

theorem accepted_of_ok {options : Options} {units : List SourceUnit} {summary : Summary}
    (h : (translate options units).outcome = .ok summary) : Accepted options units := by
  unfold translate at h
  split at h
  · cases h
  · rename_i hnames
    split at h
    · cases h
    · rename_i opening s hstart
      obtain ⟨hentry, rfl, rfl⟩ := Session.start_ok hstart
      simp only at h
      split at h
      · cases h
      · rename_i read hread
        obtain ⟨hlines, rfl, hcoded, hwritten⟩ := Session.writeUnits_ok hread
        refine ⟨repeatedName?_nil_eq_none_iff.mp hnames, hentry, hlines, hcoded, ?_⟩
        unfold translate
        simp only [hnames, hstart, hread, hwritten]
        rfl

end StackToHack
