/-
  StackToHack.Proofs.Labels — each line that defines a symbol stands in a program once.

  A line in parentheses defines a symbol. The symbols that a program defines are those of
  its instructions, the bootstrap's return address and the parking loop, and no two of
  them have one name, `Symbol.text_injective`. So lines repeat only where symbols do.
  - `symbols_written`: the symbols that a program defines.
  - `label_lines_unique_iff`: a source that declares nothing twice gives a program that
    defines nothing twice, unless the code before the first procedure and a procedure
    `null` share a symbol.
  - `label_line_repeated`: a source in which they do.
-/

import Mathlib.Data.List.Nodup
import StackToHack.Proofs.Symbols
import StackToHack.Proofs.Namespace

namespace StackToHack

/-! ## What is written -/

theorem Placed.symbol?_emitted {options : Options} {p : Placed} (h : p.instruction.code p.scope = .ok p.code) :
    (p.emitted options).filterMap Statement.symbol? = p.instruction.symbols p.scope := by
  rw [emitted, List.filterMap_append, Instruction.symbol?_code h, Session.remark]
  split <;> rfl

theorem Scope.symbol?_place {options : Options} {scope : Scope} {ls : List SourceLine}
    (h : ∀ p ∈ scope.place ls, p.instruction.code p.scope = .ok p.code) :
    ((scope.place ls).flatMap (Placed.emitted options)).filterMap Statement.symbol? =
      scope.symbols (ls.map (·.instruction)) := by
  induction ls generalizing scope with
  | nil => rfl
  | cons l ls ih =>
    rw [place, List.flatMap_cons, List.filterMap_append, Placed.symbol?_emitted (h _ List.mem_cons_self),
      ih fun p hp => h p (List.mem_cons_of_mem _ hp)]
    rfl

theorem Scope.symbol?_placeUnits {options : Options} {scope : Scope} {units : List (String × List SourceLine)}
    (h : ∀ p ∈ scope.placeUnits units, p.instruction.code p.scope = .ok p.code) :
    ((scope.placeUnits units).flatMap (Placed.emitted options)).filterMap Statement.symbol? =
      scope.symbols (units.flatMap fun u => u.2.map (·.instruction)) := by
  induction units generalizing scope with
  | nil => rfl
  | cons u units ih =>
    rw [placeUnits, List.flatMap_append, List.filterMap_append, List.flatMap_cons, ← symbols_inUnit scope u.1,
      symbols_append, symbol?_place fun p hp => h p (List.mem_append_left _ hp),
      ih fun p hp => h p (List.mem_append_right _ hp)]

/-- The parking loop apart, a program defines the bootstrap's return address and what its
    instructions define. -/
theorem symbols_written {options : Options} {units : List SourceUnit} (h : Accepted options units) :
    ((translate options units).written.filterMap Statement.symbol?).Perm
      (.halt :: (options.bootAddress ++ options.startScope.symbols (instructions units))) := by
  have hlisting : ((listing options units).flatMap (Placed.emitted options)).filterMap Statement.symbol? =
      options.startScope.symbols (instructions units) := by
    rw [listing, Scope.symbol?_placeUnits h.coded, List.flatMap_map]
    rfl
  rw [h.written, List.filterMap_append, List.filterMap_append, hlisting, Options.opening, Options.closing,
    Session.finish, Options.bootAddress]
  by_cases hb : options.bootstrap = true
  · have hopen : ∀ code : List Statement, code = (({ options } : Session).remark "bootstrap" ++ Fragment.setUp ++
        Fragment.call {} options.entry 0 ++ Fragment.halt) →
        code.filterMap Statement.symbol? = [.returnAddress "null" 0, .halt] := by
      rintro _ rfl
      rw [Session.remark]
      split <;> rfl
    simp only [hb, if_true, hopen _ rfl, List.filterMap_nil, List.append_nil]
    exact List.Perm.swap _ _ _
  · simp only [hb]
    exact List.perm_append_singleton _ _

theorem mem_instructions {units : List SourceUnit} (h : ∀ u ∈ units, u.lines = .ok u.readLines) {i : Instruction}
    (hi : i ∈ instructions units) : i.Readable := by
  obtain ⟨u, hu, hi⟩ := List.mem_flatMap.mp hi
  obtain ⟨l, hl, rfl⟩ := List.mem_map.mp hi
  exact SourceUnit.mem_lines_readable (h u hu) hl

theorem isProcedure_of_mem_procedures {options : Options} {units : List SourceUnit} (h : Accepted options units)
    {f : String} (hf : f ∈ procedures (instructions units)) : Name.IsProcedure f := by
  obtain ⟨n, hm⟩ := mem_procedures_iff.mp hf
  exact (mem_instructions h.read hm).1

/-- The rules hold of every symbol that the code of readable instructions defines. -/
theorem Scope.allowed_of_mem_symbols {scope : Scope} {is : List Instruction} (hr : ∀ i ∈ is, i.Readable)
    (hs : Name.procedureFault? scope.procedure = none) {s : Symbol} (h : s ∈ scope.symbols is) :
    s.Allowed ∧ s.isStatic = false := by
  have hmade := made_of_mem_symbols h
  have hprocs : ∀ f ∈ procedures is, Name.procedureFault? f = none := by
    intro f hf
    obtain ⟨n, hm⟩ := mem_procedures_iff.mp hf
    exact (hr _ hm).1.1
  have howner : ∀ {p : String} {P : Prop}, p = scope.procedure ∧ P ∨ p ∈ procedures is →
      Name.procedureFault? p = none := by
    rintro p P (⟨rfl, -⟩ | hp)
    · exact hs
    · exact hprocs p hp
  cases s with
  | holds n | done n => exact ⟨trivial, rfl⟩
  | procedure f => exact ⟨hprocs f hmade, rfl⟩
  | label p l => exact ⟨⟨howner hmade.2, (hr _ hmade.1).1⟩, rfl⟩
  | returnAddress p n => exact ⟨howner hmade, rfl⟩
  | predefined _ | halt | static _ _ => cases hmade

/-- The rules hold of every symbol that a program defines. -/
theorem allowed_of_written {options : Options} {units : List SourceUnit} (h : Accepted options units) {s : Symbol}
    (hs : .label s ∈ (translate options units).written) : s.Allowed ∧ s.isStatic = false := by
  have hm := (symbols_written h).mem_iff.mp (List.mem_filterMap.mpr ⟨_, hs, rfl⟩)
  rcases List.mem_cons.mp hm with rfl | hm
  · exact ⟨trivial, rfl⟩
  rcases List.mem_append.mp hm with hm | hm
  · obtain ⟨rfl, -⟩ := Options.mem_bootAddress hm
    exact ⟨Name.procedureFault?_null, rfl⟩
  · refine Scope.allowed_of_mem_symbols (fun i hi => mem_instructions h.read hi) ?_ hm
    rw [Options.startScope_procedure]
    exact Name.procedureFault?_null

theorem nodup_written_iff {options : Options} {units : List SourceUnit} (h : Accepted options units)
    (hd : DeclaredOnce (instructions units)) :
    ((translate options units).written.filterMap Statement.symbol?).Nodup ↔ ¬ Shared options (instructions units) := by
  rw [(symbols_written h).nodup_iff, List.nodup_cons, Options.nodup_bootAddress_append_iff hd]
  refine and_iff_right fun hm => ?_
  rcases List.mem_append.mp hm with hm | hm
  · cases (Options.mem_bootAddress hm).1
  · exact Scope.made_of_mem_symbols hm

/-! ## Lines -/

namespace Statement

/-- The line of a computation is none of a label, an address or a comment. -/
theorem head_text_compute (t : Destination) (e : Expression) (j : Condition) {c : Char}
    (hc : c = '(' ∨ c = '@' ∨ c = '/') : (compute t e j).text.toList.head? ≠ some c := by
  have hexpr : ∀ rest : String, (e.text ++ rest).toList.head? ≠ some c := by
    intro rest
    rw [String.toList_append]
    rcases hc with rfl | rfl | rfl <;> cases e <;> simp [Expression.text]
  rw [text, String.append_assoc]
  split
  · rw [String.empty_append]
    exact hexpr _
  · rename_i ht
    obtain ⟨a, m, d⟩ := t
    rcases hc with rfl | rfl | rfl <;> cases a <;> cases m <;> cases d <;>
      simp_all [Destination.text, Destination.nowhere]

/-- A line in parentheses is that of a symbol. -/
theorem text_eq_parenthesised {s : Statement} {name : String} :
    s.text = "(" ++ name ++ ")" ↔ ∃ symbol, s.symbol? = some symbol ∧ symbol.text = name := by
  have hhead : ("(" ++ name ++ ")").toList.head? = some '(' := by simp
  constructor
  · intro h
    rw [← h] at hhead
    cases s with
    | comment words => simp [text] at hhead
    | load s => simp [text] at hhead
    | loadNumber n => simp [text] at hhead
    | compute t e j => exact absurd hhead (head_text_compute t e j (.inl rfl))
    | label symbol =>
      refine ⟨symbol, rfl, String.toList_injective ?_⟩
      have := congrArg String.toList h
      simpa [text] using this
  · rintro ⟨symbol, hs, rfl⟩
    cases s with
    | label s =>
      cases hs
      rfl
    | _ => cases hs

end Statement

namespace Run

def lines (r : Run) : List String :=
  r.written.map Statement.text

/-- Each line `(name)` that was written stands there once. -/
def LabelLinesUnique (r : Run) : Prop :=
  ∀ name : String, "(" ++ name ++ ")" ∈ r.lines → r.lines.count ("(" ++ name ++ ")") = 1

end Run

/-- A symbol of a program is defined as often as its line is written. -/
theorem count_lines {options : Options} {units : List SourceUnit} (h : Accepted options units) {s : Symbol}
    (hs : .label s ∈ (translate options units).written) :
    (translate options units).lines.count ("(" ++ s.text ++ ")") =
      ((translate options units).written.filterMap Statement.symbol?).count s := by
  have hallowed := allowed_of_written h hs
  rw [Run.lines, List.count_eq_countP, List.countP_map, List.count_eq_countP, List.countP_filterMap]
  refine List.countP_congr fun st hst => ?_
  simp only [Function.comp, beq_iff_eq, Statement.text_eq_parenthesised]
  cases hs' : st.symbol? with
  | none => simp
  | some s' =>
    obtain rfl := Statement.eq_label_of_symbol? hs'
    have hallowed' := allowed_of_written h hst
    have hinj : s'.text = s.text ↔ s' = s :=
      ⟨Symbol.text_injective hallowed'.1 hallowed.1 hallowed'.2 hallowed.2, congrArg _⟩
    simp [hinj]

/-- The label lines of a program are all different if and only if it defines no symbol
    twice. -/
theorem labelLinesUnique_iff_nodup {options : Options} {units : List SourceUnit} (h : Accepted options units) :
    (translate options units).LabelLinesUnique ↔
      ((translate options units).written.filterMap Statement.symbol?).Nodup := by
  rw [List.nodup_iff_count_eq_one]
  constructor
  · intro hu s hs
    have hmem := Statement.mem_symbols_iff.mp hs
    rw [← count_lines h hmem]
    exact hu s.text (List.mem_map.mpr ⟨_, hmem, rfl⟩)
  · intro hu name hname
    obtain ⟨st, hst, he⟩ := List.mem_map.mp hname
    obtain ⟨s, hs, rfl⟩ := Statement.text_eq_parenthesised.mp he
    obtain rfl := Statement.eq_label_of_symbol? hs
    rw [count_lines h hst]
    exact hu s (Statement.mem_symbols_iff.mpr hst)

/-- A source that declares nothing twice gives a program that defines nothing twice,
    unless the code before the first procedure and a procedure `null` share a symbol. -/
theorem label_lines_unique_iff {options : Options} {units : List SourceUnit} {summary : Summary}
    (h : (translate options units).outcome = .ok summary) (hd : DeclaredOnce (instructions units)) :
    (translate options units).LabelLinesUnique ↔ ¬ Shared options (instructions units) := by
  have ha := accepted_of_ok h
  rw [labelLinesUnique_iff_nodup ha, nodup_written_iff ha hd]

/-- A procedure `null` that calls nothing, behind code that does. -/
theorem label_lines_unique_sentinel :
    (translate {} [⟨"A", "call f 1\nlabel a\nfunction null 0\nlabel b\nreturn\n"⟩]).LabelLinesUnique :=
  (@label_lines_unique_iff {} [⟨"A", "call f 1\nlabel a\nfunction null 0\nlabel b\nreturn\n"⟩] ⟨1, 5, 150⟩
    (by decide +kernel) ⟨by decide +kernel, by decide +kernel⟩).mpr (by decide +kernel)

/-- The bootstrap's call and the one in a procedure `null` return to one symbol. -/
theorem label_line_repeated :
    ∃ units summary, (translate {} units).outcome = .ok summary ∧ DeclaredOnce (instructions units) ∧
      ¬ (translate {} units).LabelLinesUnique := by
  refine ⟨[⟨"A", "function null 0\ncall null 0\n"⟩], ⟨1, 2, 103⟩, by decide +kernel, ⟨by decide +kernel, by decide +kernel⟩, ?_⟩
  intro h
  have := h "null$ret.0" (by decide +kernel)
  revert this
  decide +kernel

end StackToHack
