/-
  StackToHack.Proofs.Layout — where the code of a program stands in memory.

  All words in a program's code come from its source, but for one: the entry of the
  bootstrap, which need not be an identifier. So all statements are sound but the one that
  loads the entry, `mem_written`, and the passes of the assembler disagree on lines of the
  entry only. No label stands before it, so all labels lie `Options.drift` too far.
  - `lookup_of_written`: where the labels of a program lie.
  - `isProcedure_of_lookup`: a procedure that is defined has the name of a source.
  - `codeAt_of_written`: where a piece of a program's code stands.
  - `assemble_written`: programs that can be assembled.
-/

import Mathlib.Data.List.Basic
import Mathlib.Data.List.Nodup
import StackToHack.Proofs.Linking

namespace StackToHack

/-! ## Sound code -/

namespace Statement

theorem sound_append {first second : List Statement} :
    (∀ s ∈ first ++ second, s.Sound) ↔ (∀ s ∈ first, s.Sound) ∧ ∀ s ∈ second, s.Sound :=
  List.forall_mem_append

@[simp] theorem sound_load (s : Symbol) : (load s).Sound ↔ s.Sound := Iff.rfl

@[simp] theorem sound_label (s : Symbol) : (label s).Sound ↔ s.Sound := Iff.rfl

@[simp] theorem sound_loadCell (p : Predefined) : (loadCell p).Sound := trivial

@[simp] theorem sound_loadNumber (n : Nat) : (loadNumber n).Sound ↔ n ≤ maxLoad := Iff.rfl

@[simp] theorem sound_assign (t : Destination) (e : Expression) : (assign t e).Sound := trivial

@[simp] theorem sound_jump (e : Expression) (j : Condition) : (jump e j).Sound := trivial

end Statement

namespace Fragment

theorem sound_pushD : ∀ s ∈ pushD, s.Sound := by simp [pushD]

theorem sound_popD : ∀ s ∈ popD, s.Sound := by simp [popD]

theorem sound_pushNumber {n : Nat} (h : n ≤ maxLoad) : ∀ s ∈ pushNumber n, s.Sound := by
  rw [pushNumber, Statement.sound_append]
  exact ⟨by simp [h], sound_pushD⟩

theorem sound_pushSymbol {s : Symbol} (h : s.Sound) : ∀ t ∈ pushSymbol s, t.Sound := by
  rw [pushSymbol, Statement.sound_append]
  exact ⟨by simp [h], sound_pushD⟩

def Cell.Sound : Cell → Prop
  | .offset _ index => index ≤ maxLoad
  | .symbol s => s.Sound

theorem sound_pushCell {c : Cell} (h : c.Sound) : ∀ s ∈ pushCell c, s.Sound := by
  cases c with
  | offset base index =>
    have hi : index ≤ maxLoad := h
    rw [pushCell, Statement.sound_append]
    exact ⟨by simp [hi], sound_pushD⟩
  | symbol s => exact sound_pushSymbol h

theorem sound_popCell {c : Cell} (h : c.Sound) : ∀ s ∈ popCell c, s.Sound := by
  cases c with
  | offset base index =>
    have hi : index ≤ maxLoad := h
    rw [popCell, Statement.sound_append, Statement.sound_append]
    exact ⟨⟨by simp [hi], sound_popD⟩, by simp⟩
  | symbol s =>
    have hs : s.Sound := h
    rw [popCell, Statement.sound_append]
    exact ⟨sound_popD, by simp [hs]⟩

theorem sound_cell {scope : Scope} {index : Nat} {segment : Segment} {c : Cell} (h : cell scope index segment = .ok c)
    (hi : index ≤ maxLoad) (hu : Name.isIdentifier scope.unit = true) : c.Sound := by
  rcases cell_ok h with ⟨-, base, rfl⟩ | ⟨-, rfl⟩ | ⟨-, p, rfl⟩
  · exact hi
  · exact hu
  · trivial

theorem sound_operation (scope : Scope) (o : Operation) : ∀ s ∈ operation scope o, s.Sound := by
  rcases o with u | b | c
  · simp [operation, unary]
  · simp only [operation, binary, Statement.sound_append]
    exact ⟨sound_popD, by simp⟩
  · simp only [operation, compare, Statement.sound_append]
    exact ⟨sound_popD, by simp [Symbol.Sound]⟩

theorem sound_goto {s : Symbol} (h : s.Sound) : ∀ t ∈ goto s, t.Sound := by
  simp [goto, h]

theorem sound_ifGoto {s : Symbol} (h : s.Sound) : ∀ t ∈ ifGoto s, t.Sound := by
  rw [ifGoto, Statement.sound_append]
  exact ⟨sound_popD, by simp [h]⟩

theorem sound_function {f : String} (h : Name.IsProcedure f) (n : Nat) : ∀ s ∈ function f n, s.Sound := by
  have hz : ∀ s ∈ pushZero, s.Sound := by simp [pushZero]
  intro s hs
  rcases List.mem_cons.mp hs with rfl | hs
  · exact h
  · obtain ⟨code, hc, hs⟩ := List.mem_flatten.mp hs
    rw [List.eq_of_mem_replicate hc] at hs
    exact hz s hs

def saveCaller (scope : Scope) (arguments : Nat) : List Statement :=
  [.load scope.returnAddress, .assign .toD .a] ++ pushD ++
    pushSymbol (.predefined .lcl) ++ pushSymbol (.predefined .arg) ++
    pushSymbol (.predefined .this) ++ pushSymbol (.predefined .that) ++
    [.loadCell .sp, .assign .toD .m, .loadNumber frameSize, .assign .toD .dMinusA, .loadNumber arguments,
      .assign .toD .dMinusA, .loadCell .arg, .assign .toM .d, .loadCell .sp, .assign .toD .m, .loadCell .lcl,
      .assign .toM .d]

theorem call_eq (scope : Scope) (name : String) (arguments : Nat) :
    call scope name arguments =
      saveCaller scope arguments ++ goto (.procedure name) ++ [.label scope.returnAddress] := rfl

theorem sound_saveCaller {scope : Scope} (hs : Name.IsProcedure scope.procedure) {n : Nat} (hn : n ≤ maxLoad) :
    ∀ s ∈ saveCaller scope n, s.Sound := by
  have hret : scope.returnAddress.Sound := hs
  have hframe : frameSize ≤ maxLoad := by decide
  simp only [saveCaller, Statement.sound_append]
  refine ⟨⟨⟨⟨⟨⟨?_, ?_⟩, ?_⟩, ?_⟩, ?_⟩, ?_⟩, ?_⟩
  · simp [hret]
  · exact sound_pushD
  · exact sound_pushSymbol trivial
  · exact sound_pushSymbol trivial
  · exact sound_pushSymbol trivial
  · exact sound_pushSymbol trivial
  · simp [hframe, hn]

theorem sound_call {scope : Scope} {f : String} (hs : Name.IsProcedure scope.procedure) (hf : Name.IsProcedure f)
    {n : Nat} (hn : n ≤ maxLoad) : ∀ s ∈ call scope f n, s.Sound := by
  rw [call_eq, Statement.sound_append, Statement.sound_append]
  refine ⟨⟨sound_saveCaller hs hn, sound_goto hf⟩, ?_⟩
  have hret : scope.returnAddress.Sound := hs
  simp [hret]

theorem sound_restore (p : Predefined) : ∀ s ∈ restore p, s.Sound := by
  simp [restore]

theorem sound_ret : ∀ s ∈ ret, s.Sound := by
  have hframe : frameSize ≤ maxLoad := by decide
  simp only [ret, Statement.sound_append]
  refine ⟨⟨⟨⟨⟨⟨⟨?_, ?_⟩, ?_⟩, ?_⟩, ?_⟩, ?_⟩, ?_⟩, ?_⟩
  · simp [hframe]
  · exact sound_popD
  · simp
  · exact sound_restore _
  · exact sound_restore _
  · exact sound_restore _
  · exact sound_restore _
  · simp

theorem sound_setUp : ∀ s ∈ setUp, s.Sound := by
  have hbase : stackBase ≤ maxLoad := by decide
  simp [setUp, hbase]

theorem sound_halt : ∀ s ∈ halt, s.Sound := by
  simp [halt, goto, Symbol.Sound]

end Fragment

/-- The code of a readable instruction is sound. -/
theorem Instruction.sound_code {scope : Scope} {i : Instruction} {code : List Statement} (h : i.code scope = .ok code)
    (hr : i.Readable) (hs : Name.IsProcedure scope.procedure) (hu : Name.isIdentifier scope.unit = true) :
    ∀ s ∈ code, s.Sound := by
  cases i with
  | operation o =>
    cases h
    exact Fragment.sound_operation scope o
  | push segment index =>
    rcases Fragment.push_ok h with ⟨-, hi, rfl⟩ | ⟨c, hc, rfl⟩
    · exact Fragment.sound_pushNumber hi
    · exact Fragment.sound_pushCell (Fragment.sound_cell hc hr hu)
  | pop segment index =>
    obtain ⟨c, hc, rfl⟩ := Fragment.pop_ok h
    exact Fragment.sound_popCell (Fragment.sound_cell hc hr.2 hu)
  | label l =>
    obtain ⟨-, rfl⟩ := named_ok h
    have hl : (scope.label l).Sound := ⟨hs, hr⟩
    simp [hl]
  | goto l =>
    obtain ⟨-, rfl⟩ := named_ok h
    exact Fragment.sound_goto ⟨hs, hr⟩
  | ifGoto l =>
    obtain ⟨-, rfl⟩ := named_ok h
    exact Fragment.sound_ifGoto ⟨hs, hr⟩
  | function f n =>
    obtain ⟨-, rfl⟩ := named_ok h
    exact Fragment.sound_function hr.1 n
  | call f n =>
    obtain ⟨-, rfl⟩ := named_ok h
    exact Fragment.sound_call hs hr.1 hr.2
  | ret =>
    cases h
    exact Fragment.sound_ret

/-! ## Sound programs -/

theorem Name.isProcedure_null : Name.IsProcedure "null" := by
  unfold Name.IsProcedure
  decide

namespace Scope

theorem isProcedure_after {scope : Scope} {i : Instruction} (hs : Name.IsProcedure scope.procedure) (hr : i.Readable) :
    Name.IsProcedure (i.after scope).procedure := by
  cases hi : i.isFunction with
  | false => rwa [(Instruction.after_mono hi scope).1]
  | true =>
    cases i with
    | function f n => exact hr.1
    | _ => cases hi

theorem unit_after (scope : Scope) (i : Instruction) : (i.after scope).unit = scope.unit := by
  cases i with
  | operation o => rcases o with u | b | c <;> rfl
  | _ => rfl

theorem mem_place {scope : Scope} {ls : List SourceLine} (hs : Name.IsProcedure scope.procedure)
    (hr : ∀ l ∈ ls, l.instruction.Readable) :
    (∀ p ∈ scope.place ls, Name.IsProcedure p.scope.procedure ∧ p.scope.unit = scope.unit ∧ p.line ∈ ls) ∧
      Name.IsProcedure (scope.behind (ls.map (·.instruction))).procedure := by
  induction ls generalizing scope with
  | nil => exact ⟨fun p hp => absurd hp List.not_mem_nil, hs⟩
  | cons l ls ih =>
    obtain ⟨hall, hend⟩ := ih (isProcedure_after hs (hr l List.mem_cons_self)) fun l hl => hr l (List.mem_cons_of_mem _ hl)
    refine ⟨fun p hp => ?_, hend⟩
    rcases List.mem_cons.mp hp with rfl | hp
    · exact ⟨hs, rfl, List.mem_cons_self⟩
    · obtain ⟨hproc, hunit, hline⟩ := hall p hp
      exact ⟨hproc, hunit.trans (unit_after scope l.instruction), List.mem_cons_of_mem _ hline⟩

theorem mem_placeUnits {scope : Scope} {units : List (String × List SourceLine)} (hs : Name.IsProcedure scope.procedure)
    (hr : ∀ u ∈ units, ∀ l ∈ u.2, l.instruction.Readable) {p : Placed} (hp : p ∈ scope.placeUnits units) :
    Name.IsProcedure p.scope.procedure ∧ ∃ u ∈ units, p.scope.unit = u.1 ∧ p.line ∈ u.2 := by
  induction units generalizing scope with
  | nil => cases hp
  | cons u units ih =>
    have hu : Name.IsProcedure (scope.inUnit u.1).procedure := hs
    obtain ⟨hall, hend⟩ := mem_place hu (hr u List.mem_cons_self)
    rcases List.mem_append.mp hp with hp | hp
    · obtain ⟨hproc, hunit, hline⟩ := hall p hp
      exact ⟨hproc, u, List.mem_cons_self, hunit, hline⟩
    · obtain ⟨hproc, v, hv, h⟩ := ih hend (fun v hv => hr v (List.mem_cons_of_mem _ hv)) hp
      exact ⟨hproc, v, List.mem_cons_of_mem _ hv, h⟩

end Scope

section Programs

variable {options : Options} {units : List SourceUnit}

theorem Options.isProcedure_startScope (options : Options) : Name.IsProcedure options.startScope.procedure := by
  rw [Options.startScope_procedure]
  exact Name.isProcedure_null

/-- What is known of each instruction of a program. -/
theorem mem_listing (h : Accepted options units) (hu : ∀ u ∈ units, Name.isIdentifier u.name = true) {p : Placed}
    (hp : p ∈ listing options units) :
    Name.IsProcedure p.scope.procedure ∧ Name.isIdentifier p.scope.unit = true ∧ p.instruction.Readable ∧
      '\n' ∉ p.line.text.toList := by
  have hr : ∀ v ∈ units.map (fun u => (u.name, u.readLines)), ∀ l ∈ v.2, l.instruction.Readable := by
    intro v hv l hl
    obtain ⟨u, hmem, rfl⟩ := List.mem_map.mp hv
    exact SourceUnit.mem_lines_readable (h.read u hmem) hl
  obtain ⟨hproc, v, hv, hunit, hline⟩ := Scope.mem_placeUnits options.isProcedure_startScope hr hp
  obtain ⟨u, hmem, rfl⟩ := List.mem_map.mp hv
  exact ⟨hproc, hunit ▸ hu u hmem, SourceUnit.mem_lines_readable (h.read u hmem) hline,
    SourceUnit.notMem_text_of_mem_lines (h.read u hmem) hline⟩

theorem Session.sound_remark {s : Session} {text : String} (h : '\n' ∉ text.toList) :
    ∀ t ∈ s.remark text, t.Sound := by
  rw [remark]
  split
  · intro t ht
    obtain rfl := List.mem_singleton.mp ht
    exact h
  · exact fun t ht => absurd ht List.not_mem_nil

theorem sound_emitted (h : Accepted options units) (hu : ∀ u ∈ units, Name.isIdentifier u.name = true) {p : Placed}
    (hp : p ∈ listing options units) : ∀ s ∈ p.emitted options, s.Sound := by
  obtain ⟨hproc, hunit, hr, ht⟩ := mem_listing h hu hp
  rw [Placed.emitted, Statement.sound_append]
  exact ⟨Session.sound_remark ht, Instruction.sound_code (h.coded p hp) hr hproc hunit⟩

def Options.entryLoad (options : Options) : List Statement :=
  if options.bootstrap then [.load (.procedure options.entry)] else []

/-- How far behind their places the labels of a program lie. -/
def Options.drift (options : Options) : Nat := Assembler.drift options.entryLoad

/-- All is sound but the load of the entry, and no label stands before it. -/
theorem written_split (h : Accepted options units) (hu : ∀ u ∈ units, Name.isIdentifier u.name = true) :
    ∃ front back, (translate options units).written = front ++ options.entryLoad ++ back ∧
      (∀ s ∈ front, s.Sound ∧ s.symbol? = none) ∧ ∀ s ∈ back, s.Sound := by
  have hbody : ∀ s ∈ (listing options units).flatMap (Placed.emitted options), s.Sound := by
    intro s hs
    obtain ⟨p, hp, hs⟩ := List.mem_flatMap.mp hs
    exact sound_emitted h hu hp s hs
  by_cases hb : options.bootstrap = true
  · refine ⟨({ options } : Session).remark "bootstrap" ++ Fragment.setUp ++ Fragment.saveCaller {} 0,
      [.jump .zero .always, .label (Scope.returnAddress {})] ++ Fragment.halt ++
        (listing options units).flatMap (Placed.emitted options), ?_, ?_, ?_⟩
    · rw [h.written, Options.opening, Options.closing, Session.finish, Options.entryLoad, if_pos hb, if_pos hb, if_pos hb,
        Fragment.call_eq, Fragment.goto]
      simp only [List.append_assoc, List.append_nil, List.cons_append, List.nil_append]
    · have hsound : ∀ s ∈ ({ options } : Session).remark "bootstrap" ++ Fragment.setUp ++ Fragment.saveCaller {} 0,
          s.Sound := by
        rw [Statement.sound_append, Statement.sound_append]
        exact ⟨⟨Session.sound_remark (by decide), Fragment.sound_setUp⟩,
          Fragment.sound_saveCaller Name.isProcedure_null (by decide)⟩
      have hnone : ∀ s ∈ ({ options } : Session).remark "bootstrap" ++ Fragment.setUp ++ Fragment.saveCaller {} 0,
          s.symbol? = none := by
        rw [Session.remark]
        split <;> decide
      exact fun s hs => ⟨hsound s hs, hnone s hs⟩
    · rw [Statement.sound_append, Statement.sound_append]
      exact ⟨⟨by simp [Scope.returnAddress, Symbol.Sound, Name.isProcedure_null], Fragment.sound_halt⟩, hbody⟩
  · refine ⟨[], (listing options units).flatMap (Placed.emitted options) ++ options.closing, ?_,
      fun s hs => absurd hs List.not_mem_nil, ?_⟩
    · rw [h.written, Options.opening, Options.entryLoad, if_neg hb, if_neg hb]
      rfl
    · rw [Statement.sound_append, Options.closing, Session.finish, if_neg hb]
      exact ⟨hbody, Fragment.sound_halt⟩

theorem mem_written (h : Accepted options units) (hu : ∀ u ∈ units, Name.isIdentifier u.name = true) {s : Statement}
    (hs : s ∈ (translate options units).written) :
    s.Sound ∨ options.bootstrap = true ∧ s = .load (.procedure options.entry) := by
  obtain ⟨front, back, hw, hfront, hback⟩ := written_split h hu
  rw [hw] at hs
  rcases List.mem_append.mp hs with hs | hs
  · rcases List.mem_append.mp hs with hs | hs
    · exact .inl (hfront s hs).1
    · rw [Options.entryLoad] at hs
      split at hs
      · exact .inr ⟨‹_›, List.mem_singleton.mp hs⟩
      · cases hs
  · exact .inl (hback s hs)

/-! ## Labels -/

theorem eq_append_of_notMem {α : Type} {x : α} {first second before after : List α}
    (h : before ++ x :: after = first ++ second) (hx : x ∉ first) :
    ∃ middle, before = first ++ middle ∧ second = middle ++ x :: after := by
  rcases List.append_eq_append_iff.mp h with ⟨rest, rfl, hrest⟩ | ⟨middle, rfl, hsecond⟩
  · cases rest with
    | nil => exact ⟨[], by simp, hrest.symm⟩
    | cons y rest =>
      obtain ⟨rfl, -⟩ := List.cons.inj hrest
      exact absurd (List.mem_append_right _ List.mem_cons_self) hx
  · exact ⟨middle, rfl, hsecond⟩

theorem drift_before_label (h : Accepted options units) (hu : ∀ u ∈ units, Name.isIdentifier u.name = true)
    {before after : List Statement} {s : Symbol}
    (hw : (translate options units).written = before ++ .label s :: after) :
    Assembler.drift before = options.drift ∧ s.Sound := by
  obtain ⟨front, back, hsplit, hfront, hback⟩ := written_split h hu
  have hx : Statement.label s ∉ front ++ options.entryLoad := by
    intro hm
    rcases List.mem_append.mp hm with hm | hm
    · have := (hfront _ hm).2
      cases this
    · rw [Options.entryLoad] at hm
      split at hm
      · cases List.mem_singleton.mp hm
      · cases hm
  obtain ⟨middle, rfl, hmiddle⟩ := eq_append_of_notMem (hw.symm.trans hsplit) hx
  have hsound : ∀ t ∈ middle, t.Sound := fun t ht => hback t (hmiddle ▸ List.mem_append_left _ ht)
  have hs : (Statement.label s).Sound := hback _ (hmiddle ▸ List.mem_append_right _ List.mem_cons_self)
  refine ⟨?_, hs⟩
  rw [Assembler.drift_append, Assembler.drift_append, Assembler.drift_of_sound hsound,
    Assembler.drift_of_sound fun t ht => (hfront t ht).1, Nat.zero_add, Nat.add_zero, Options.drift]

/-- A label lies behind the orders before it, and as far as the passes disagree. -/
theorem lookup_of_written (h : Accepted options units) (hu : ∀ u ∈ units, Name.isIdentifier u.name = true)
    {asm : Assembled} (ha : Assembler.assemble (translate options units).text = .ok asm) {before after : List Statement}
    {s : Symbol} (hw : (translate options units).written = before ++ .label s :: after) :
    asm.labels.lookup s.text = some (Assembler.size before + options.drift) := by
  obtain ⟨hdrift, hs⟩ := drift_before_label h hu hw
  rw [Run.text, hw] at ha
  rw [lookup_of_assemble ha hs, hdrift]

theorem value_of_written (h : Accepted options units) (hu : ∀ u ∈ units, Name.isIdentifier u.name = true)
    {asm : Assembled} (ha : Assembler.assemble (translate options units).text = .ok asm) {before after : List Statement}
    {s : Symbol} (hw : (translate options units).written = before ++ .label s :: after)
    (hs : ∀ p, s ≠ .predefined p) : asm.value s = Assembler.size before + options.drift :=
  value_of_lookup (lookup_of_written h hu ha hw) hs

/-- No label lies further behind a program than the entry moves it. -/
theorem le_of_lookup_written (h : Accepted options units) (hu : ∀ u ∈ units, Name.isIdentifier u.name = true)
    {asm : Assembled} (ha : Assembler.assemble (translate options units).text = .ok asm) {name : String} {place : Nat}
    (hl : asm.labels.lookup name = some place) : place ≤ asm.orders.length + options.drift := by
  obtain ⟨front, back, hw, hfront, hback⟩ := written_split h hu
  have hle := le_of_lookup ha hl
  rw [hw, Assembler.drift_append, Assembler.drift_append, Assembler.drift_of_sound hback,
    Assembler.drift_of_sound fun t ht => (hfront t ht).1, Nat.zero_add, Nat.add_zero] at hle
  exact hle

/-- A name that the code of a program loads and that is defined is a name of the source:
    the line of a label is longer than all lines of the entry. -/
theorem isProcedure_of_lookup (h : Accepted options units) (hu : ∀ u ∈ units, Name.isIdentifier u.name = true)
    {asm : Assembled} (ha : Assembler.assemble (translate options units).text = .ok asm) {f : String} {place : Nat}
    (hl : asm.labels.lookup f = some place) (hf : .load (.procedure f) ∈ (translate options units).written) :
    Name.IsProcedure f := by
  rcases mem_written h hu hf with hf | ⟨hb, hf⟩
  · exact hf
  obtain rfl : f = options.entry := by
    cases hf
    rfl
  obtain ⟨⟨line, hline, hname⟩, -⟩ := Assembler.mem_of_lookup (Assembler.assemble_ok ha).1 hl
  obtain ⟨front, back, hw, hfront, hback⟩ := written_split h hu
  rw [Run.text, hw, Assembler.lines_write, List.flatMap_append, List.flatMap_append, ← Assembler.lines_write,
    ← Assembler.lines_write, ← Assembler.lines_write] at hline
  have hsound : ∀ code : List Statement, (∀ s ∈ code, s.Sound) → (∀ s ∈ code, s ∈ (translate options units).written) →
      line ∈ Assembler.lines (Statement.write code) → Name.IsProcedure options.entry := by
    intro code hc hm hline
    rw [Assembler.lines_of_sound hc] at hline
    obtain ⟨s, hs, hl⟩ := List.mem_filterMap.mp hline
    rw [Statement.labelOf?_line hl] at hname
    obtain ⟨symbol, hsymbol, he⟩ := Option.map_eq_some_iff.mp hname
    obtain rfl := Statement.eq_label_of_symbol? hsymbol
    have hallowed := allowed_of_written h (hm _ hs)
    have hsame : symbol = .procedure options.entry :=
      @Symbol.text_injective symbol (.procedure options.entry) hallowed.1 (h.entry hb) hallowed.2 rfl he
    have := hc _ hs
    rw [hsame] at this
    exact this
  rcases List.mem_append.mp hline with hline | hline
  · rcases List.mem_append.mp hline with hline | hline
    · refine hsound front (fun s hs => (hfront s hs).1) (fun s hs => ?_) hline
      rw [hw]
      exact List.mem_append_left _ (List.mem_append_left _ hs)
    · rw [Options.entryLoad, if_pos hb, Assembler.lines_write] at hline
      have hlen := (Assembler.sublist_of_mem_lines (by simpa using hline)).length_le
      rw [Assembler.length_of_labelOf? hname, Statement.text, String.toList_append, List.length_append] at hlen
      have hone : "@".toList.length = 1 := rfl
      have hentry : (Symbol.procedure options.entry).text = options.entry := rfl
      rw [hone, hentry] at hlen
      omega
  · refine hsound back hback (fun s hs => ?_) hline
    rw [hw]
    exact List.mem_append_right _ hs

/-- The orders of sound code in a program stand behind the orders of what comes before. -/
theorem codeAt_of_written {asm : Assembled} (ha : Assembler.assemble (translate options units).text = .ok asm)
    {before code after : List Statement} (hw : (translate options units).written = before ++ code ++ after)
    (hc : ∀ s ∈ code, s.Sound) : CodeAt asm.orders (Assembler.size before) (asm.link code) := by
  rw [Run.text, hw] at ha
  exact codeAt_of_assemble ha hc

/-! ## Loading -/

def programSize : Nat := 32768

structure Loaded (options : Options) (units : List SourceUnit) (asm : Assembled) : Prop where
  accepted : ∃ summary, (translate options units).outcome = .ok summary
  identifiers : ∀ u ∈ units, Name.isIdentifier u.name = true
  assembled : Assembler.assemble (translate options units).text = .ok asm
  fits : asm.orders.length ≤ programSize

theorem Options.sound_entryLoad (he : options.bootstrap = true → Name.IsProcedure options.entry) :
    ∀ s ∈ options.entryLoad, s.Sound := by
  intro s hs
  unfold Options.entryLoad at hs
  split at hs
  · obtain rfl := List.mem_singleton.mp hs
    exact he ‹_›
  · cases hs

theorem Options.symbol?_entryLoad (options : Options) : options.entryLoad.filterMap Statement.symbol? = [] := by
  unfold Options.entryLoad
  split <;> rfl

/-- With an entry that is the name of a procedure all labels lie where they should. -/
theorem Options.drift_eq_zero (he : options.bootstrap = true → Name.IsProcedure options.entry) : options.drift = 0 :=
  Assembler.drift_of_sound (sound_entryLoad he)

/-- A program can be assembled if no symbol is defined twice and the load of the entry can
    be read. -/
theorem assemble_written (h : Accepted options units) (hu : ∀ u ∈ units, Name.isIdentifier u.name = true)
    (he : ∀ line ∈ Assembler.lines (Statement.write options.entryLoad),
      Assembler.Legible line ∧ Assembler.labelOf? line = none)
    (hn : ((translate options units).written.filterMap Statement.symbol?).Nodup) :
    ∃ asm, Assembler.assemble (translate options units).text = .ok asm := by
  obtain ⟨front, back, hw, hfront, hback⟩ := written_split h hu
  have hsound : ∀ s ∈ front, s.Sound := fun s hs => (hfront s hs).1
  have hlines : Assembler.lines (translate options units).text = Assembler.lines (Statement.write front) ++
      Assembler.lines (Statement.write options.entryLoad) ++ Assembler.lines (Statement.write back) := by
    rw [Run.text, hw]
    simp only [Assembler.lines_write, List.flatMap_append]
  have hlabels : (Assembler.lines (translate options units).text).filterMap Assembler.labelOf? =
      ((translate options units).written.filterMap Statement.symbol?).map Symbol.text := by
    have hentry : (Assembler.lines (Statement.write options.entryLoad)).filterMap Assembler.labelOf? = [] :=
      List.filterMap_eq_nil_iff.mpr fun line hl => (he line hl).2
    rw [hlines, hw]
    simp only [List.filterMap_append, List.map_append, Assembler.labels_of_sound hsound,
      Assembler.labels_of_sound hback, hentry, options.symbol?_entryLoad, List.map_nil]
  apply Assembler.assemble_of_legible
  · intro line hl
    rw [hlines] at hl
    rcases List.mem_append.mp hl with hl | hl
    · rcases List.mem_append.mp hl with hl | hl
      · exact Assembler.legible_of_sound hsound hl
      · exact (he line hl).1
    · exact Assembler.legible_of_sound hback hl
  · rw [hlabels]
    apply List.Nodup.map_on _ hn
    intro s hs t ht heq
    obtain ⟨hs₁, hs₂⟩ := allowed_of_written h (Statement.mem_symbols_iff.mp hs)
    obtain ⟨ht₁, ht₂⟩ := allowed_of_written h (Statement.mem_symbols_iff.mp ht)
    exact Symbol.text_injective hs₁ ht₁ hs₂ ht₂ heq

theorem Options.legible_entryLoad (he : options.bootstrap = true → Name.IsProcedure options.entry) :
    ∀ line ∈ Assembler.lines (Statement.write options.entryLoad),
      Assembler.Legible line ∧ Assembler.labelOf? line = none := by
  intro line hl
  refine ⟨Assembler.legible_of_sound (sound_entryLoad he) hl, ?_⟩
  have hnone := Assembler.labels_of_sound (sound_entryLoad he)
  rw [options.symbol?_entryLoad] at hnone
  exact List.filterMap_eq_nil_iff.mp hnone line hl

/-- The orders of a program, where the load of the entry may be more or fewer than one. -/
theorem size_written (h : Accepted options units) (hu : ∀ u ∈ units, Name.isIdentifier u.name = true) :
    Assembler.size (translate options units).written + options.entryLoad.countP Statement.isOrder =
      (translate options units).written.countP Statement.isOrder + Assembler.size options.entryLoad := by
  obtain ⟨front, back, hw, hfront, hback⟩ := written_split h hu
  rw [hw]
  simp only [Assembler.size_append, List.countP_append, Assembler.size_of_sound hback,
    Assembler.size_of_sound fun s hs => (hfront s hs).1]
  omega

theorem length_orders {asm : Assembled} (ha : Assembler.assemble (translate options units).text = .ok asm) :
    asm.orders.length = Assembler.size (translate options units).written := length_orders_of_assemble ha

/-- A program is loaded if it is assembled and its orders are few enough. -/
theorem exists_loaded {summary : Summary} (hok : (translate options units).outcome = .ok summary)
    (hu : ∀ u ∈ units, Name.isIdentifier u.name = true)
    (he : ∀ line ∈ Assembler.lines (Statement.write options.entryLoad),
      Assembler.Legible line ∧ Assembler.labelOf? line = none)
    (hn : ((translate options units).written.filterMap Statement.symbol?).Nodup)
    (hfits : (translate options units).written.countP Statement.isOrder + Assembler.size options.entryLoad ≤ programSize) :
    ∃ asm, Loaded options units asm := by
  have hacc := accepted_of_ok hok
  obtain ⟨asm, ha⟩ := assemble_written hacc hu he hn
  have hlen := length_orders ha
  have hsize := size_written hacc hu
  exact ⟨asm, ⟨summary, hok⟩, hu, ha, by omega⟩

end Programs

end StackToHack
