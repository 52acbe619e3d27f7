/-
  StackToHack.Proofs.Warnings — what a run that ends well reports.

  Each unit is reported with the number of its instructions, in order. Behind that the
  bootstrap's entry is warned about if no unit defines it. The warning is decided by the
  instructions that were read, and the code that was written tells the same: an accepted
  entry has no `$`, and no other symbol that a program defines can be written like it.
  - `log_of_ok`: the notices of a run that ends well.
  - `entry_line_mem_iff`: the line of the entry stands in the code if the entry is declared.
  - `entry_warning_matches_output`: the notices, and the text of them, by the code.
-/

import StackToHack.Proofs.Startup
import StackToHack.Proofs.Streaming

namespace StackToHack

variable {options : Options} {units : List SourceUnit} {summary : Summary}

/-! ## Notices -/

/-- Units that are all translated are each reported when they are done. -/
theorem Session.log_of_ok {s : Session} {us : List SourceUnit} {read : List (List SourceLine)}
    (h : (s.writeUnits us).outcome = .ok read) : (s.writeUnits us).log = us.map SourceUnit.notice := by
  induction us generalizing s read with
  | nil => rfl
  | cons u us ih =>
    cases s.atUnit u with
    | unreadable _ hrun => rw [hrun us] at h; cases h
    | faulty _ _ _ hrun => rw [hrun us] at h; cases h
    | done _ _ hrun =>
      rw [hrun us] at h ⊢
      obtain ⟨others, hothers, -⟩ := map_eq_ok h
      rw [List.map_cons, ih hothers]

/-- A run that ends well reports its units and, behind them, a missing entry. -/
theorem log_of_ok (h : (translate options units).outcome = .ok summary) :
    (translate options units).log =
      units.map SourceUnit.notice ++ entryWarning options (units.map SourceUnit.readLines) := by
  have hnames := (accepted_of_ok h).names
  obtain ⟨opening, s, read, hs, hread⟩ := started_of_ok h
  obtain ⟨-, rfl, -⟩ := Session.writeUnits_ok hread
  rw [translate_of_start hnames hs, Progress.closed_of_ok hread, Session.log_of_ok hread]

/-- A run that is not to be quiet shows all notices. -/
theorem Notice.write_false (notices : List Notice) : write false notices = String.join (notices.map line) := by
  simp [write]

theorem Notice.line_translated (unit : String) (k : Nat) :
    (translated unit k).line = "info: translated " ++ unit ++ " (" ++ k.repr ++ " instructions)\n" := by
  have hfront : ("info: translated " : String) = "info" ++ (": " ++ "translated ") := rfl
  have hback : (" instructions)\n" : String) = " instructions)" ++ "\n" := rfl
  have hline : (translated unit k).line =
    "info" ++ ": " ++ ("translated " ++ unit ++ " (" ++ k.repr ++ " instructions)") ++ "\n" := rfl
  rw [hline, hfront, hback]
  simp only [String.append_assoc]

theorem Notice.line_entryMissing (entry : String) :
    (entryMissing entry).line =
      "warning: entry procedure " ++ entry ++ " is never defined; the bootstrap call has no target\n" := by
  have hfront : ("warning: entry procedure " : String) = "warning" ++ (": " ++ "entry procedure ") := rfl
  have hback : (" is never defined; the bootstrap call has no target\n" : String) =
    " is never defined; the bootstrap call has no target" ++ "\n" := rfl
  have hline : (entryMissing entry).line =
    "warning" ++ ": " ++ ("entry procedure " ++ entry ++ " is never defined; the bootstrap call has no target") ++
      "\n" := rfl
  rw [hline, hfront, hback]
  simp only [String.append_assoc]

/-! ## The entry -/

theorem defines_iff {f : String} {ls : List SourceLine} :
    defines f ls = true ↔ ∃ n, .function f n ∈ ls.map (·.instruction) := by
  rw [defines, List.any_eq_true]
  constructor
  · rintro ⟨l, hl, hdefines⟩
    split at hdefines
    · rename_i name n he
      obtain rfl := eq_of_beq hdefines
      exact ⟨n, List.mem_map.mpr ⟨l, hl, he⟩⟩
    · cases hdefines
  · rintro ⟨n, hm⟩
    obtain ⟨l, hl, he⟩ := List.mem_map.mp hm
    refine ⟨l, hl, ?_⟩
    rw [he]
    exact beq_self_eq_true f

/-- What the run looks for in the lines that it reads is the declaration of the procedure. -/
theorem any_defines_iff {f : String} :
    (units.map SourceUnit.readLines).any (defines f) = true ↔ f ∈ procedures (instructions units) := by
  simp only [List.any_map, List.any_eq_true, Function.comp, defines_iff, mem_procedures_iff, instructions,
    List.mem_flatMap]
  constructor
  · rintro ⟨u, hu, n, hm⟩
    exact ⟨n, u, hu, hm⟩
  · rintro ⟨n, u, hu, hm⟩
    exact ⟨u, hu, n, hm⟩

/-- The line that defines an accepted entry is that of its procedure: no symbol of another
    kind that the program defines is written like it. -/
theorem entry_line_mem_iff (h : Accepted options units) (he : Name.procedureFault? options.entry = none) :
    "(" ++ options.entry ++ ")" ∈ (translate options units).lines ↔
      options.entry ∈ procedures (instructions units) := by
  constructor
  · intro hline
    obtain ⟨st, hst, htext⟩ := List.mem_map.mp hline
    obtain ⟨s, hs, hname⟩ := Statement.text_eq_parenthesised.mp htext
    have hdefined : s ∈ (translate options units).written.filterMap Statement.symbol? :=
      List.mem_filterMap.mpr ⟨st, hst, hs⟩
    obtain ⟨hallowed, hstatic⟩ := allowed_of_written h (Statement.mem_symbols_iff.mp hdefined)
    obtain rfl : s = .procedure options.entry := Symbol.text_injective hallowed he hstatic rfl hname
    -- neither the loop nor the return address of the bootstrap is a procedure
    rcases List.mem_cons.mp ((symbols_written h).mem_iff.mp hdefined) with hhalt | hm
    · cases hhalt
    rcases List.mem_append.mp hm with hboot | hm
    · cases (Options.mem_bootAddress hboot).1
    · exact Scope.made_of_mem_symbols hm
  · intro hm
    exact List.mem_map.mpr ⟨_, procedure_mem_written h hm, rfl⟩

/-- The run warns of the entry just if the bootstrap calls it and its line is missing. -/
theorem entryWarning_eq (h : Accepted options units) :
    entryWarning options (units.map SourceUnit.readLines) =
      if options.bootstrap = true ∧ "(" ++ options.entry ++ ")" ∉ (translate options units).lines
      then [.entryMissing options.entry] else [] := by
  rw [entryWarning]
  refine if_congr ?_ rfl rfl
  rw [Bool.and_eq_true, Bool.not_eq_true']
  refine and_congr_right fun hb => ?_
  rw [entry_line_mem_iff h (h.entry hb), ← any_defines_iff, Bool.not_eq_true]

/-- A run that ends well has read each unit, and it reports each with the number of its
    instructions, in order. The last notice behind these warns of the entry, and it is there
    just if the bootstrap is on and no line `(entry)` stands in the code that was written.
    This is what is shown if the run is not to be quiet. -/
theorem entry_warning_matches_output (h : (translate options units).outcome = .ok summary) :
    (∀ u ∈ units, u.lines = .ok u.readLines) ∧
      (translate options units).log = (units.map fun u => .translated u.name u.readLines.length) ++
        (if options.bootstrap = true ∧ "(" ++ options.entry ++ ")" ∉ (translate options units).lines
          then [.entryMissing options.entry] else []) ∧
      Notice.write false (translate options units).log =
        String.join (units.map fun u =>
          "info: translated " ++ u.name ++ " (" ++ u.readLines.length.repr ++ " instructions)\n") ++
        (if options.bootstrap = true ∧ "(" ++ options.entry ++ ")" ∉ (translate options units).lines
          then "warning: entry procedure " ++ options.entry ++
            " is never defined; the bootstrap call has no target\n" else "") := by
  have haccepted := accepted_of_ok h
  have hlog : (translate options units).log = (units.map fun u => .translated u.name u.readLines.length) ++ _ :=
    (log_of_ok h).trans (congrArg _ (entryWarning_eq haccepted))
  refine ⟨haccepted.read, hlog, ?_⟩
  rw [hlog, Notice.write_false, List.map_append, String.join_append, List.map_map]
  congr 1
  · exact congrArg String.join (List.map_congr_left fun u _ => Notice.line_translated u.name u.readLines.length)
  · split
    · rw [List.map_singleton, Notice.line_entryMissing, String.join_cons, String.join_nil, String.append_empty]
    · rfl

/-- Two units that write the name of the entry in other ways: as a unit, as a label, and as
    the callee of a call. -/
def mentions : List SourceUnit :=
  [⟨"Sys", "function Main.main 0\nlabel Sys.init\ncall Sys.init 0\nreturn\n"⟩, ⟨"Sys.init", "push static 0\n"⟩]

def declares : SourceUnit :=
  ⟨"Last", "function Sys.init 0\ngoto x\n"⟩

/-- The entry is missing until the last unit declares it. -/
theorem entry_warning_matches_output_mentions :
    (translate {} mentions).log = [.translated "Sys" 4, .translated "Sys.init" 1, .entryMissing "Sys.init"] ∧
      (translate {} (mentions ++ [declares])).log =
        [.translated "Sys" 4, .translated "Sys.init" 1, .translated "Last" 2] ∧
      Notice.write false (translate { bootstrap := false } mentions).log =
        "info: translated Sys (4 instructions)\ninfo: translated Sys.init (1 instructions)\n" := by
  have hmissing : (translate {} mentions).outcome = .ok ⟨2, 5, 155⟩ := by decide +kernel
  have hthere : (translate {} (mentions ++ [declares])).outcome = .ok ⟨3, 7, 160⟩ := by decide +kernel
  have hbare : (translate { bootstrap := false } mentions).outcome = .ok ⟨2, 5, 103⟩ := by decide +kernel
  obtain ⟨-, hwarned, -⟩ := entry_warning_matches_output hmissing
  obtain ⟨-, hsilent, -⟩ := entry_warning_matches_output hthere
  obtain ⟨-, -, hshown⟩ := entry_warning_matches_output hbare
  refine ⟨hwarned.trans ?_, hsilent.trans ?_, hshown.trans ?_⟩
  · decide +kernel
  · decide +kernel
  · decide +kernel

end StackToHack
