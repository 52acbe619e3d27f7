/-
  StackToHack.Proofs.Variables — the cells of the static variables of a complete program.

  The assembler takes each symbol for a variable that it does not know. In a complete
  program those are the static variables: all other symbols that the code loads are
  predefined or defined by the code. So the assembler meets the static variables in the
  order in which the instructions use them first.
  - `resolved_of_load`: what the assembler knows of a symbol that is loaded.
  - `cells_eq`: the variables that it meets.
  - `value_static`: the cell of a static variable.
-/

import StackToHack.Proofs.Resolution

namespace StackToHack

open StackMachine

/-! ## Loads -/

def Statement.load? : Statement → Option Symbol
  | load s => some s
  | _ => none

/-- The symbols that the code of an instruction needs to be defined elsewhere. -/
def Instruction.targets (scope : Scope) : Instruction → List Symbol
  | goto l => [scope.label l]
  | ifGoto l => [scope.label l]
  | call f _ => [.procedure f]
  | _ => []

def Symbol.KnownIn (code : List Statement) : Symbol → Prop
  | .predefined _ => True
  | .static _ _ => True
  | s => .label s ∈ code

theorem Symbol.knownIn_of_mem {l : List Predefined} {s : Symbol} (h : s ∈ l.map Symbol.predefined)
    (code : List Statement) : s.KnownIn code := by
  obtain ⟨p, -, rfl⟩ := List.mem_map.mp h
  trivial

namespace Fragment

theorem knownIn_cell {scope : Scope} {index : Nat} {segment : Segment} {s : Symbol}
    (h : cell scope index segment = .ok (.symbol s)) (code : List Statement) : s.KnownIn code := by
  rcases cell_ok h with ⟨-, base, he⟩ | ⟨-, he⟩ | ⟨-, p, he⟩
  · cases he
  · cases he
    trivial
  · cases he
    trivial

/-- The code that pushes from a cell or pops into it loads registers and the cell's symbol. -/
theorem knownIn_pushCell {scope : Scope} {index : Nat} {segment : Segment} {c : Cell} {s : Symbol}
    (h : cell scope index segment = .ok c) (hs : s ∈ (pushCell c).filterMap Statement.load?) (code : List Statement) :
    s.KnownIn code := by
  cases c with
  | offset base index => exact Symbol.knownIn_of_mem (l := [base, .sp]) hs code
  | symbol t =>
    rcases List.mem_cons.mp hs with rfl | hs
    · exact knownIn_cell h code
    · exact Symbol.knownIn_of_mem (l := [.sp]) hs code

theorem knownIn_popCell {scope : Scope} {index : Nat} {segment : Segment} {c : Cell} {s : Symbol}
    (h : cell scope index segment = .ok c) (hs : s ∈ (popCell c).filterMap Statement.load?) (code : List Statement) :
    s.KnownIn code := by
  cases c with
  | offset base index => exact Symbol.knownIn_of_mem (l := [base, .register 13, .sp, .register 13]) hs code
  | symbol t =>
    rcases List.mem_cons.mp hs with rfl | hs
    · trivial
    · obtain rfl := List.mem_singleton.mp hs
      exact knownIn_cell h code

end Fragment

/-- Each symbol that the code of an instruction loads is known in it or a target. -/
theorem Instruction.knownIn_code {scope : Scope} {i : Instruction} {code : List Statement} (h : i.code scope = .ok code)
    {s : Symbol} (hs : s ∈ code.filterMap Statement.load?) : s.KnownIn code ∨ s ∈ i.targets scope := by
  cases i with
  | operation o =>
    cases h
    left
    rcases o with u | b | c
    · exact Symbol.knownIn_of_mem (l := [.sp]) hs _
    · exact Symbol.knownIn_of_mem (l := [.sp]) hs _
    · have hs : s ∈ [.predefined .sp, .holds scope.comparisons, .done scope.comparisons, .predefined .sp] := hs
      simp only [List.mem_cons, List.not_mem_nil, or_false] at hs
      rcases hs with rfl | rfl | rfl | rfl
      · trivial
      · show Statement.label _ ∈ Fragment.compare _ _
        simp [Fragment.compare]
      · show Statement.label _ ∈ Fragment.compare _ _
        simp [Fragment.compare]
      · trivial
  | push segment index =>
    left
    rcases Fragment.push_ok h with ⟨-, -, rfl⟩ | ⟨c, hc, rfl⟩
    · exact Symbol.knownIn_of_mem (l := [.sp]) hs _
    · exact Fragment.knownIn_pushCell hc hs _
  | pop segment index =>
    left
    obtain ⟨c, hc, rfl⟩ := Fragment.pop_ok h
    exact Fragment.knownIn_popCell hc hs _
  | label l =>
    obtain ⟨-, rfl⟩ := named_ok h
    cases hs
  | goto l =>
    obtain ⟨-, rfl⟩ := named_ok h
    exact .inr hs
  | ifGoto l =>
    obtain ⟨-, rfl⟩ := named_ok h
    rcases List.mem_cons.mp hs with rfl | hs
    · exact .inl trivial
    · exact .inr hs
  | function f n =>
    obtain ⟨-, rfl⟩ := named_ok h
    left
    obtain ⟨t, ht, he⟩ := List.mem_filterMap.mp hs
    rcases List.mem_cons.mp ht with rfl | ht
    · cases he
    · obtain ⟨zero, hz, ht⟩ := List.mem_flatten.mp ht
      rw [List.eq_of_mem_replicate hz] at ht
      exact Symbol.knownIn_of_mem (l := [.sp]) (List.mem_filterMap.mpr ⟨t, ht, he⟩) _
  | call f n =>
    obtain ⟨-, rfl⟩ := named_ok h
    have hs : s ∈ scope.returnAddress :: ((([.sp, .lcl, .sp, .arg, .sp, .this, .sp, .that, .sp, .sp, .arg, .sp, .lcl] :
        List Predefined).map Symbol.predefined) ++ [.procedure f]) := hs
    rcases List.mem_cons.mp hs with rfl | hs
    · left
      show Statement.label _ ∈ Fragment.call _ _ _
      rw [Fragment.call_eq]
      exact List.mem_append_right _ List.mem_cons_self
    · rcases List.mem_append.mp hs with hs | hs
      · exact .inl (Symbol.knownIn_of_mem hs _)
      · exact .inr hs
  | ret =>
    cases h
    exact .inl (Symbol.knownIn_of_mem (l := [.lcl, .register 13, .register 14, .sp, .arg, .arg, .sp, .register 13, .that,
      .register 13, .this, .register 13, .arg, .register 13, .lcl, .register 14]) hs _)

/-! ## Static variables -/

def Symbol.static? : Symbol → Option (String × Nat)
  | .static unit index => some (unit, index)
  | _ => none

def Statement.statics (code : List Statement) : List (String × Nat) :=
  (code.filterMap load?).filterMap Symbol.static?

theorem Statement.statics_append (first second : List Statement) :
    statics (first ++ second) = statics first ++ statics second := by
  simp [statics]

theorem Fragment.statics_pushLocals (n : Nat) : Statement.statics (List.replicate n pushZero).flatten = [] := by
  induction n with
  | zero => rfl
  | succ n ih =>
    rw [List.replicate_succ, List.flatten_cons, Statement.statics_append, ih]
    rfl

theorem Fragment.statics_cell {scope : Scope} {index : Nat} {segment : Segment} {c : Cell}
    (h : cell scope index segment = .ok c) :
    Statement.statics (pushCell c) = (staticOf? (scope.unit, .push segment index)).toList ∧
      Statement.statics (popCell c) = (staticOf? (scope.unit, .pop segment index)).toList := by
  rcases cell_ok h with ⟨hs, base, rfl⟩ | ⟨rfl, rfl⟩ | ⟨hs, p, rfl⟩
  · cases segment with
    | locals | argument | this | that => exact ⟨rfl, rfl⟩
    | _ => cases hs
  · exact ⟨rfl, rfl⟩
  · rcases hs with rfl | rfl <;> exact ⟨rfl, rfl⟩

theorem Instruction.statics_code {scope : Scope} {i : Instruction} {code : List Statement} (h : i.code scope = .ok code) :
    Statement.statics code = (staticOf? (scope.unit, i)).toList := by
  cases i with
  | operation o =>
    cases h
    rcases o with u | b | c <;> rfl
  | push segment index =>
    rcases Fragment.push_ok h with ⟨rfl, -, rfl⟩ | ⟨c, hc, rfl⟩
    · rfl
    · exact (Fragment.statics_cell hc).1
  | pop segment index =>
    obtain ⟨c, hc, rfl⟩ := Fragment.pop_ok h
    exact (Fragment.statics_cell hc).2
  | label l | goto l | ifGoto l =>
    obtain ⟨-, rfl⟩ := named_ok h
    rfl
  | function f n =>
    obtain ⟨-, rfl⟩ := named_ok h
    exact Fragment.statics_pushLocals n
  | call f n =>
    obtain ⟨-, rfl⟩ := named_ok h
    rfl
  | ret =>
    cases h
    rfl

/-! ## What the assembler meets -/

def staticText (v : String × Nat) : String := (Symbol.static v.1 v.2).text

theorem staticText_injective : Function.Injective staticText := by
  intro v w h
  obtain ⟨h₁, h₂⟩ := Symbol.static_text_injective h
  exact Prod.ext h₁ h₂

theorem Symbol.dollar_mem_text {s : Symbol} (h : s.isScoped = true) : '$' ∈ s.text.toList := by
  cases s with
  | label p l => simp [text]
  | returnAddress p n => simp [text]
  | _ => cases h

theorem Symbol.dollar_notMem_static {unit : String} (h : Name.isIdentifier unit = true) (index : Nat) :
    '$' ∉ (static unit index).text.toList := by
  have hunit : '$' ∉ unit.toList := fun hm => absurd (isIdentifierChar_of_mem h hm) (by decide)
  have hindex : '$' ∉ index.repr.toList := notMem_repr rfl index
  rw [text, String.toList_append, String.toList_append]
  simp only [List.mem_append, hunit, hindex, or_false, false_or]
  decide

/-- What the labels say of a symbol that is known: it is predefined, a variable, or a
    label. -/
def Symbol.Resolved (labels : List (String × Nat)) : Symbol → Prop
  | .predefined _ => True
  | .static unit index => labels.lookup (Symbol.static unit index).text = none
  | s => (labels.lookup s.text).isSome = true

namespace Assembler

theorem meet_load {labels : List (String × Nat)} {s : Symbol} (hs : s.Sound) (hr : s.Resolved labels)
    (vs : List (String × Nat)) :
    meet labels (vs.map staticText) (Statement.load s).text.toList =
      (s.static?.toList.foldl StackMachine.meet vs).map staticText := by
  rw [Statement.toList_text_load]
  have hlabel : (∀ p, s ≠ .predefined p) → (labels.lookup s.text).isSome = true →
      meet labels (vs.map staticText) ('@' :: s.text.toList) = vs.map staticText := by
    intro hp hl
    obtain ⟨place, hplace⟩ := Option.isSome_iff_exists.mp hl
    simp only [meet, String.ofList_toList, resolve_text hs hp, hplace]
  cases s with
  | predefined p =>
    have hname := resolve_predefined p labels (vs.map staticText)
    simp only [meet, String.ofList_toList, Symbol.text, hname]
    rfl
  | static unit index =>
    have hr : labels.lookup (Symbol.static unit index).text = none := hr
    have hmem : staticText (unit, index) ∈ vs.map staticText ↔ (unit, index) ∈ vs :=
      List.mem_map_of_injective staticText_injective
    simp only [meet, String.ofList_toList, resolve_text hs (fun p e => by cases e), hr]
    show _ = (StackMachine.meet vs (unit, index)).map staticText
    rw [StackMachine.meet]
    by_cases hm : (unit, index) ∈ vs
    · obtain ⟨i, hi⟩ : ∃ i, (vs.map staticText).idxOf? (Symbol.static unit index).text = some i := by
        rw [← Option.ne_none_iff_exists']
        intro hnone
        exact List.idxOf?_eq_none_iff.mp hnone (hmem.mpr hm)
      simp only [hi, if_pos hm]
    · have hnone : (vs.map staticText).idxOf? (Symbol.static unit index).text = none :=
        List.idxOf?_eq_none_iff.mpr fun h => hm (hmem.mp h)
      simp only [hnone, if_neg hm, List.map_append]
      rfl
  | procedure f => exact hlabel (fun p e => by cases e) hr
  | label p l => exact hlabel (fun p e => by cases e) hr
  | returnAddress p n => exact hlabel (fun p e => by cases e) hr
  | holds n => exact hlabel (fun p e => by cases e) hr
  | done n => exact hlabel (fun p e => by cases e) hr
  | halt => exact hlabel (fun p e => by cases e) hr

/-- Of the orders only loads make the assembler meet a variable. -/
theorem meet_order {labels : List (String × Nat)} {s : Statement} (hs : s.Sound)
    (hr : ∀ symbol, s = .load symbol → symbol.Resolved labels) (ho : s.isOrder = true) (vs : List (String × Nat)) :
    meet labels (vs.map staticText) s.text.toList =
      ((Statement.statics [s]).foldl StackMachine.meet vs).map staticText := by
  cases s with
  | comment words | label symbol => cases ho
  | load symbol =>
    rw [meet_load hs (hr symbol rfl)]
    cases symbol <;> rfl
  | loadNumber n =>
    rw [Statement.toList_text_loadNumber]
    simp only [meet, String.ofList_toList, resolve_number hs]
    rfl
  | compute t e j =>
    have ha : (Statement.compute t e j).text.toList.head? ≠ some '@' :=
      Statement.head_text_compute t e j (.inr (.inl rfl))
    have hopen : opens (Statement.compute t e j).text.toList = false := @Statement.opens_line (.compute t e j) _ rfl
    rw [(orders_computation hopen ha labels (vs.map staticText) []).2.1]
    rfl

/-- Over sound code the assembler meets the static variables that are loaded. -/
theorem foldl_meet {labels : List (String × Nat)} {code : List Statement} (hs : ∀ s ∈ code, s.Sound)
    (hr : ∀ s, .load s ∈ code → s.Resolved labels) (vs : List (String × Nat)) :
    ((lines (Statement.write code)).filter (!opens ·)).foldl (meet labels) (vs.map staticText) =
      ((Statement.statics code).foldl StackMachine.meet vs).map staticText := by
  rw [filter_lines_of_sound hs, List.foldl_map]
  induction code generalizing vs with
  | nil => rfl
  | cons s code ih =>
    have ih := ih (fun t ht => hs t (List.mem_cons_of_mem _ ht)) fun t ht => hr t (List.mem_cons_of_mem _ ht)
    have hsplit : Statement.statics (s :: code) = Statement.statics [s] ++ Statement.statics code :=
      Statement.statics_append [s] code
    rw [hsplit, List.foldl_append]
    cases ho : s.isOrder with
    | true =>
      have hload : ∀ symbol, s = .load symbol → symbol.Resolved labels := by
        rintro symbol rfl
        exact hr symbol List.mem_cons_self
      rw [List.filter_cons_of_pos ho, List.foldl_cons, meet_order (hs s List.mem_cons_self) hload ho]
      exact ih _
    | false =>
      have hnone : Statement.statics [s] = [] := by
        cases s with
        | comment _ | label _ => rfl
        | _ => cases ho
      rw [List.filter_cons_of_neg (by simp [ho]), hnone]
      exact ih vs

end Assembler

/-! ## Complete programs -/

section Programs

variable {options : Options} {units : List SourceUnit} {asm : Assembled}

/-- No label has the name of a static variable. -/
theorem lookup_static (h : Complete options units)
    (ha : Assembler.assemble (translate options units).text = .ok asm) {unit : String}
    (hu : Name.isIdentifier unit = true) (index : Nat) : asm.labels.lookup (Symbol.static unit index).text = none := by
  cases hl : asm.labels.lookup (Symbol.static unit index).text with
  | none => rfl
  | some place =>
    obtain ⟨⟨line, hline, hname⟩, -⟩ := Assembler.mem_of_lookup (Assembler.assemble_ok ha).1 hl
    rw [Run.text] at hline
    have hmem : (Symbol.static unit index).text ∈
        ((translate options units).written.filterMap Statement.symbol?).map Symbol.text := by
      rw [← Assembler.labels_of_sound h.sound_written]
      exact List.mem_filterMap.mpr ⟨line, hline, hname⟩
    obtain ⟨s, hs, he⟩ := List.mem_map.mp hmem
    obtain ⟨hallowed, hstatic⟩ := allowed_of_written h.toAccepted (Statement.mem_symbols_iff.mp hs)
    cases hscoped : s.isScoped with
    | false => exact absurd he.symm (Symbol.static_text_ne unit index hallowed hstatic hscoped)
    | true => exact absurd (he ▸ Symbol.dollar_mem_text hscoped) (Symbol.dollar_notMem_static hu index)

theorem resolved_of_knownIn (h : Complete options units)
    (ha : Assembler.assemble (translate options units).text = .ok asm) {code : List Statement}
    (hcode : ∀ s ∈ code, s ∈ (translate options units).written) {s : Symbol} (hs : s.KnownIn code) (hsound : s.Sound) :
    s.Resolved asm.labels := by
  cases s with
  | predefined p => trivial
  | static unit index => exact lookup_static h ha hsound index
  | procedure _ | label _ _ | returnAddress _ _ | holds _ | done _ | halt => exact isSome_lookup h ha (hcode _ hs)

theorem resolved_of_target (h : Complete options units)
    (ha : Assembler.assemble (translate options units).text = .ok asm) {k : Nat} {p : Placed}
    (hk : (listing options units)[k]? = some p) {s : Symbol} (hs : s ∈ p.instruction.targets p.scope) :
    s.Resolved asm.labels := by
  have hentry : (Program.ofUnits units)[k]? = some (p.scope.unit, p.instruction) := by
    rw [← listing_entries options, List.getElem?_map, hk]
    rfl
  cases hi : p.instruction with
  | goto l =>
    rw [hi] at hs hentry
    obtain rfl := List.mem_singleton.mp hs
    obtain ⟨j, v, hj, ho⟩ := h.jumps k _ l (.inl hentry)
    exact isSome_lookup h ha (value_label h ha hk (by rw [hi]; rfl) hj ho).2
  | ifGoto l =>
    rw [hi] at hs hentry
    obtain rfl := List.mem_singleton.mp hs
    obtain ⟨j, v, hj, ho⟩ := h.jumps k _ l (.inr hentry)
    exact isSome_lookup h ha (value_label h ha hk (by rw [hi]; rfl) hj ho).2
  | call f n =>
    rw [hi] at hs hentry
    obtain rfl := List.mem_singleton.mp hs
    have hcall : .call f n ∈ instructions units := by
      rw [instructions_eq]
      exact List.mem_map.mpr ⟨_, List.mem_of_getElem? hentry, rfl⟩
    obtain ⟨j, v, m, hj⟩ := exists_function_of_mem (h.calls f n hcall)
    exact isSome_lookup h ha (value_procedure h ha hj).2
  | operation _ | push _ _ | pop _ _ | label _ | function _ _ | ret =>
    rw [hi] at hs
    cases hs

/-- In code that is written, each symbol that an instruction loads is resolved if its targets
    are. -/
theorem resolved_of_code (h : Complete options units)
    (ha : Assembler.assemble (translate options units).text = .ok asm) {scope : Scope} {i : Instruction}
    {code : List Statement} (hc : i.code scope = .ok code) (hcode : ∀ t ∈ code, t ∈ (translate options units).written)
    (htargets : ∀ s ∈ i.targets scope, s.Resolved asm.labels) {s : Symbol} (hs : .load s ∈ code) :
    s.Resolved asm.labels := by
  rcases Instruction.knownIn_code hc (List.mem_filterMap.mpr ⟨_, hs, rfl⟩) with hknown | htarget
  · exact resolved_of_knownIn h ha hcode hknown (h.sound_written _ (hcode _ hs))
  · exact htargets s htarget

theorem resolved_of_halt (h : Complete options units)
    (ha : Assembler.assemble (translate options units).text = .ok asm)
    (hcode : ∀ t ∈ Fragment.halt, t ∈ (translate options units).written) {s : Symbol} (hs : .load s ∈ Fragment.halt) :
    s.Resolved asm.labels := by
  obtain rfl : s = .halt := by simpa [Fragment.halt, Fragment.goto, Statement.jump] using hs
  exact isSome_lookup h ha (hcode _ List.mem_cons_self)

theorem resolved_of_opening (h : Complete options units)
    (ha : Assembler.assemble (translate options units).text = .ok asm) {s : Symbol} (hs : .load s ∈ options.opening) :
    s.Resolved asm.labels := by
  have hmem : ∀ t ∈ options.opening, t ∈ (translate options units).written := by
    intro t ht
    rw [h.toAccepted.written]
    exact List.mem_append_left _ (List.mem_append_left _ ht)
  unfold Options.opening at hs hmem
  split at hs
  · rename_i hb
    rw [if_pos hb] at hmem
    simp only [List.mem_append] at hs hmem
    rcases hs with ((hs | hs) | hs) | hs
    · cases Session.eq_comment_of_mem_remark hs
    · have hpointer : s = .predefined .sp ∨ s = .predefined .lcl := by
        simpa [Fragment.setUp, Statement.loadCell, Statement.assign] using hs
      rcases hpointer with rfl | rfl <;> trivial
    · have hcall : (Instruction.call options.entry 0).code {} = .ok (Fragment.call {} options.entry 0) := by
        rw [Instruction.code, Instruction.named, h.toAccepted.entry hb]
      refine resolved_of_code h ha hcall (fun t ht => hmem t (.inl (.inr ht))) ?_ hs
      intro target htarget
      obtain rfl := List.mem_singleton.mp htarget
      obtain ⟨j, v, m, hj⟩ := exists_function_of_mem (h.entry hb)
      exact isSome_lookup h ha (value_procedure h ha hj).2
    · exact resolved_of_halt h ha (fun t ht => hmem t (.inr ht)) hs
  · cases hs

theorem resolved_of_emitted (h : Complete options units)
    (ha : Assembler.assemble (translate options units).text = .ok asm) {p : Placed} (hp : p ∈ listing options units)
    {s : Symbol} (hs : .load s ∈ p.emitted options) : s.Resolved asm.labels := by
  obtain ⟨k, hk⟩ := List.getElem?_of_mem hp
  rcases List.mem_append.mp hs with hs | hs
  · cases Session.eq_comment_of_mem_remark hs
  · exact resolved_of_code h ha (h.toAccepted.coded p hp) (fun t ht => mem_written_of_mem_code h hk ht)
      (fun target ht => resolved_of_target h ha hk ht) hs

theorem resolved_of_closing (h : Complete options units)
    (ha : Assembler.assemble (translate options units).text = .ok asm) {s : Symbol} (hs : .load s ∈ options.closing) :
    s.Resolved asm.labels := by
  have hmem : ∀ t ∈ options.closing, t ∈ (translate options units).written := by
    intro t ht
    rw [h.toAccepted.written]
    exact List.mem_append_right _ ht
  unfold Options.closing Session.finish at hs hmem
  split at hs
  · cases hs
  · rename_i hb
    rw [if_neg hb] at hmem
    exact resolved_of_halt h ha hmem hs

/-- Each symbol that a complete program loads is predefined, a static variable or the name
    of a label. -/
theorem resolved_of_load (h : Complete options units)
    (ha : Assembler.assemble (translate options units).text = .ok asm) {s : Symbol}
    (hs : .load s ∈ (translate options units).written) : s.Resolved asm.labels := by
  rw [h.toAccepted.written, List.mem_append, List.mem_append] at hs
  rcases hs with (hs | hs) | hs
  · exact resolved_of_opening h ha hs
  · obtain ⟨p, hp, hs⟩ := List.mem_flatMap.mp hs
    exact resolved_of_emitted h ha hp hs
  · exact resolved_of_closing h ha hs

theorem statics_remark (s : Session) (text : String) : Statement.statics (s.remark text) = [] := by
  unfold Session.remark
  split <;> rfl

theorem statics_written (h : Complete options units) :
    Statement.statics (translate options units).written = (Program.ofUnits units).filterMap staticOf? := by
  have hopening : Statement.statics options.opening = [] := by
    unfold Options.opening
    split
    · rw [Statement.statics_append, Statement.statics_append, Statement.statics_append, statics_remark]
      rfl
    · rfl
  have hclosing : Statement.statics options.closing = [] := by
    unfold Options.closing Session.finish
    split <;> rfl
  have hlisting : ∀ ps : List Placed, (∀ p ∈ ps, p.instruction.code p.scope = .ok p.code) →
      Statement.statics (ps.flatMap (Placed.emitted options)) = (ps.map Placed.entry).filterMap staticOf? := by
    intro ps
    induction ps with
    | nil => exact fun _ => rfl
    | cons p ps ih =>
      intro hcoded
      rw [List.flatMap_cons, Statement.statics_append, ih fun q hq => hcoded q (List.mem_cons_of_mem _ hq), Placed.emitted,
        Statement.statics_append, statics_remark, Instruction.statics_code (hcoded p List.mem_cons_self), List.map_cons,
        List.filterMap_cons, List.nil_append]
      show (staticOf? p.entry).toList ++ _ = _
      cases staticOf? p.entry <;> rfl
  rw [h.toAccepted.written, Statement.statics_append, Statement.statics_append, hopening, hclosing,
    hlisting _ h.toAccepted.coded, listing_entries, List.nil_append, List.append_nil]

/-- The variables of a complete program are its static variables, in the order of their
    first uses. -/
theorem cells_eq (h : Complete options units) (ha : Assembler.assemble (translate options units).text = .ok asm) :
    asm.cells = (statics (Program.ofUnits units)).map staticText := by
  obtain ⟨-, ho⟩ := Assembler.assemble_ok ha
  obtain ⟨-, hmeet, -⟩ := Assembler.orders_map ho
  have hfold := Assembler.foldl_meet h.sound_written (fun s hs => resolved_of_load h ha hs) []
  rw [statics_written h] at hfold
  rw [hmeet]
  exact hfold

theorem idxOf_map {α β : Type} [BEq α] [LawfulBEq α] [BEq β] [LawfulBEq β] {f : α → β} (hf : Function.Injective f)
    (a : α) (l : List α) : (l.map f).idxOf (f a) = l.idxOf a := by
  induction l with
  | nil => rfl
  | cons b l ih =>
    rw [List.map_cons, List.idxOf_cons, List.idxOf_cons, ih]
    by_cases hb : b = a
    · subst hb
      simp
    · have hne : f b ≠ f a := fun e => hb (hf e)
      rw [beq_eq_false_iff_ne.mpr hb, beq_eq_false_iff_ne.mpr hne]

/-- A static variable stands for the cell that the stack machine gives it. -/
theorem value_static (h : Complete options units) (ha : Assembler.assemble (translate options units).text = .ok asm)
    {unit : String} (hu : Name.isIdentifier unit = true) (index : Nat) :
    asm.value (.static unit index) = staticAddress (Program.ofUnits units) unit index := by
  have hvalue : asm.value (.static unit index) = firstVariable + asm.cells.idxOf (staticText (unit, index)) := by
    simp only [Assembled.value, lookup_static h ha hu]
    rfl
  rw [hvalue, cells_eq h ha, idxOf_map staticText_injective, staticAddress]

end Programs

end StackToHack
