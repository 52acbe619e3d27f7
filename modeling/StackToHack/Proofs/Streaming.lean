/-
  StackToHack.Proofs.Streaming — what has been written when a run stops.

  A run writes as it goes, one unit behind the other, so the units to come change nothing
  of what is there. Where it stops at a unit, the steps before say what is there: a unit
  that cannot be read has given nothing, not even the comment of a line, and a unit that
  can has given the code of the lines before the faulty one.
  - `Session.atUnit`: the three things that can happen at a unit.
  - `Session.writeUnits_append`: units behind others are translated where those end, unless
    one of those fails.
  - `Session.stops_of_error`: where units fail, and what they have given by then.
  - `output_stable`: a run over some units, and over these and more.
-/

import StackToHack.Proofs.Independence
import StackToHack.Proofs.Reports

namespace StackToHack

/-! ## Steps over units -/

namespace SourceUnit

def steps (u : SourceUnit) : List Step :=
  [.inUnit u.name, .lines u.readLines]

def notice (u : SourceUnit) : Notice :=
  .translated u.name u.readLines.length

end SourceUnit

namespace Session

/-- No step fails, and this is their code. -/
def Gives (s : Session) (steps : List Step) (code : List Statement) : Prop :=
  ∃ codes : List (List Statement), (s.run steps).1 = codes.map .ok ∧ code = codes.flatten

theorem run_append (s : Session) (first second : List Step) :
    s.run (first ++ second) =
      ((s.run first).1 ++ ((s.run first).2.run second).1, ((s.run first).2.run second).2) := by
  induction first generalizing s with
  | nil => rfl
  | cons c first ih => simp only [List.cons_append, run, ih]

theorem Gives.append {s : Session} {first second : List Step} {code code' : List Statement} (h : s.Gives first code)
    (h' : (s.run first).2.Gives second code') : s.Gives (first ++ second) (code ++ code') := by
  obtain ⟨codes, hcodes, rfl⟩ := h
  obtain ⟨codes', hcodes', rfl⟩ := h'
  refine ⟨codes ++ codes', ?_, List.flatten_append.symm⟩
  rw [run_append, hcodes, hcodes', List.map_append]

/-- A unit is entered, and some lines are translated in it. -/
theorem gives_lines {s s' : Session} {name : String} {ls : List SourceLine} {code : List Statement}
    (h : (s.inUnit name).lines ls = (.ok code, s')) :
    s.Gives [.inUnit name, .lines ls] code ∧ (s.run [.inUnit name, .lines ls]).2 = s' := by
  simp only [Gives, run, step, h]
  exact ⟨⟨[[], code], rfl, by simp⟩, trivial⟩

/-- Lines that fail have given the code of those before the first that does. -/
theorem exists_faulty {s : Session} {ls : List SourceLine} {code : List Statement} {e : Error}
    (h : s.writeLines ls = (code, .error e)) :
    ∃ front l back s', ls = front ++ l :: back ∧ s.lines front = (.ok code, s') ∧ (s'.line l).1 = .error e := by
  induction ls generalizing s code with
  | nil => cases h
  | cons l ls ih =>
    unfold writeLines at h
    rcases hline : s.line l with ⟨e' | first, s₁⟩
    · rw [hline] at h
      cases h
      exact ⟨[], l, ls, s, rfl, rfl, by rw [hline]⟩
    · rw [hline] at h
      rcases hrest : s₁.writeLines ls with ⟨rest, outcome⟩
      simp only [hrest] at h
      cases h
      obtain ⟨front, l', back, s', rfl, hfront, hfault⟩ := ih hrest
      refine ⟨l :: front, l', back, s', rfl, ?_, hfault⟩
      simp only [lines, hline, hfront]

/-! ## One unit -/

inductive AtUnit (s : Session) (u : SourceUnit) : Prop
  | unreadable {e : Error} (here : u.lines = .error e) (run : ∀ us, s.writeUnits (u :: us) = ⟨[], [], .error e⟩)
  | faulty {front back : List SourceLine} {l : SourceLine} {code : List Statement} {e : Error}
    (here : u.lines = .ok (front ++ l :: back)) (given : s.Gives [.inUnit u.name, .lines front] code)
    (fault : ((s.run [.inUnit u.name, .lines front]).2.line l).1 = .error e)
    (run : ∀ us, s.writeUnits (u :: us) = ⟨code, [], .error e⟩)
  | done {code : List Statement} (here : u.lines = .ok u.readLines) (given : s.Gives u.steps code)
    (run : ∀ us, s.writeUnits (u :: us) = ⟨code ++ ((s.run u.steps).2.writeUnits us).written,
      u.notice :: ((s.run u.steps).2.writeUnits us).log,
      ((s.run u.steps).2.writeUnits us).outcome.map (u.readLines :: ·)⟩)

theorem atUnit (s : Session) (u : SourceUnit) : s.AtUnit u := by
  cases hls : u.lines with
  | error e =>
    refine .unreadable hls fun us => ?_
    rw [writeUnits, hls]
  | ok ls =>
    have hread : u.readLines = ls := by
      rw [SourceUnit.readLines, hls]
      rfl
    rcases hcode : (s.inUnit u.name).writeLines ls with ⟨code, e | s'⟩
    · obtain ⟨front, l, back, s', rfl, hfront, hfault⟩ := exists_faulty hcode
      obtain ⟨hgives, hend⟩ := gives_lines hfront
      refine .faulty hls hgives (by rwa [hend]) fun us => ?_
      rw [writeUnits, hls]
      simp only [hcode]
    · subst hread
      obtain ⟨hgives, hend⟩ := gives_lines (lines_of_writeLines hcode)
      have hsteps : (s.run u.steps).2 = s' := hend
      refine .done hls hgives fun us => ?_
      rw [writeUnits, hls, hsteps]
      simp only [hcode]
      rfl

end Session

/-! ## Units behind others -/

/-- What some units gave, and behind it, if none of them failed, what others gave. -/
def Progress.followedBy (p rest : Progress) : Progress :=
  match p.outcome with
  | .error _ => p
  | .ok read => ⟨p.written ++ rest.written, p.log ++ rest.log, rest.outcome.map (read ++ ·)⟩

theorem Progress.followedBy_of_error {p : Progress} {e : Error} (h : p.outcome = .error e) (rest : Progress) :
    p.followedBy rest = p := by
  rw [followedBy, h]

theorem Progress.followedBy_of_ok {p : Progress} {read : List (List SourceLine)} (h : p.outcome = .ok read)
    (rest : Progress) :
    p.followedBy rest = ⟨p.written ++ rest.written, p.log ++ rest.log, rest.outcome.map (read ++ ·)⟩ := by
  rw [followedBy, h]

namespace Session

def behindUnits (s : Session) (us : List SourceUnit) : Session :=
  (s.run (us.flatMap SourceUnit.steps)).2

theorem behindUnits_cons (s : Session) (u : SourceUnit) (us : List SourceUnit) :
    s.behindUnits (u :: us) = (s.run u.steps).2.behindUnits us := by
  rw [behindUnits, List.flatMap_cons, run_append]
  rfl

theorem writeUnits_append (s : Session) (us vs : List SourceUnit) :
    s.writeUnits (us ++ vs) = (s.writeUnits us).followedBy ((s.behindUnits us).writeUnits vs) := by
  induction us generalizing s with
  | nil =>
    have hnone : s.behindUnits [] = s := rfl
    rw [List.nil_append, Progress.followedBy_of_ok rfl, hnone]
    rcases s.writeUnits vs with ⟨written, log, e | read⟩ <;> rfl
  | cons u us ih =>
    cases s.atUnit u with
    -- a unit that fails ends the run, whatever stands behind it
    | unreadable here run => rw [List.cons_append, run, run, Progress.followedBy_of_error rfl]
    | faulty here given fault run => rw [List.cons_append, run, run, Progress.followedBy_of_error rfl]
    | done here given run =>
      rw [List.cons_append, run, run, ih, behindUnits_cons]
      cases hrest : ((s.run u.steps).2.writeUnits us).outcome with
      | error e =>
        rw [Progress.followedBy_of_error hrest, Progress.followedBy_of_error rfl, hrest]
      | ok read =>
        rw [Progress.followedBy_of_ok hrest, Progress.followedBy_of_ok rfl]
        cases ((s.run u.steps).2.behindUnits us |>.writeUnits vs).outcome <;> simp [Except.map]

/-! ## Where units stop -/

/-- Units that fail: those before one of them are done, each with its code and its notice,
    and this one cannot be read, or it can and gives the code of its lines before one that
    is faulty. -/
inductive Stops (s : Session) (written : List Statement) (log : List Notice) : List SourceUnit → Error → Prop
  | reading {before after : List SourceUnit} {u : SourceUnit} {e : Error}
    (read : ∀ v ∈ before, v.lines = .ok v.readLines) (here : u.lines = .error e)
    (given : s.Gives (before.flatMap SourceUnit.steps) written) (reported : log = before.map SourceUnit.notice) :
    Stops s written log (before ++ u :: after) e
  | translating {before after : List SourceUnit} {u : SourceUnit} {front back : List SourceLine} {l : SourceLine}
    {e : Error} (read : ∀ v ∈ before, v.lines = .ok v.readLines) (here : u.lines = .ok (front ++ l :: back))
    (given : s.Gives (before.flatMap SourceUnit.steps ++ [.inUnit u.name, .lines front]) written)
    (fault : ((s.run (before.flatMap SourceUnit.steps ++ [.inUnit u.name, .lines front])).2.line l).1 = .error e)
    (reported : log = before.map SourceUnit.notice) : Stops s written log (before ++ u :: after) e

/-- The units before stay what they are when one more is done before them. -/
theorem Stops.cons {s : Session} {u : SourceUnit} {us : List SourceUnit} {code written : List Statement}
    {log : List Notice} {e : Error} (hu : u.lines = .ok u.readLines) (hcode : s.Gives u.steps code)
    (h : (s.run u.steps).2.Stops written log us e) : s.Stops (code ++ written) (u.notice :: log) (u :: us) e := by
  cases h with
  | @reading before after v _ read here given reported =>
    refine @Stops.reading s _ _ (u :: before) after v e (List.forall_mem_cons.mpr ⟨hu, read⟩) here ?_ ?_
    · exact hcode.append given
    · rw [reported, List.map_cons]
  | @translating before after v front back l _ read here given fault reported =>
    refine @Stops.translating s _ _ (u :: before) after v front back l e (List.forall_mem_cons.mpr ⟨hu, read⟩) here
      ?_ ?_ ?_
    · rw [List.flatMap_cons, List.append_assoc]
      exact hcode.append given
    · rw [List.flatMap_cons, List.append_assoc, run_append]
      exact fault
    · rw [reported, List.map_cons]

theorem stops_of_error {s : Session} {us : List SourceUnit} {e : Error} (h : (s.writeUnits us).outcome = .error e) :
    s.Stops (s.writeUnits us).written (s.writeUnits us).log us e := by
  induction us generalizing s with
  | nil => cases h
  | cons u us ih =>
    cases s.atUnit u with
    | unreadable here run =>
      rw [run] at h ⊢
      cases h
      exact @Stops.reading s _ _ [] us u e (List.forall_mem_nil _) here ⟨[], rfl, rfl⟩ rfl
    | @faulty front back l code e here given fault run =>
      rw [run] at h ⊢
      cases h
      exact @Stops.translating s _ _ [] us u front back l e (List.forall_mem_nil _) here given fault rfl
    | done here given run =>
      rw [run] at h ⊢
      exact (ih (map_eq_error_iff.mp h)).cons here given

end Session

/-! ## Runs -/

def Progress.closed (p : Progress) (options : Options) (opening : List Statement) (s : Session) : Run :=
  match p.outcome with
  | .error e => ⟨opening ++ p.written, p.log, .error e⟩
  | .ok read =>
    ⟨opening ++ p.written ++ s.finish, p.log ++ entryWarning options read,
      .ok ⟨read.length, read.flatten.length, (opening ++ p.written ++ s.finish).length⟩⟩

theorem Progress.outcome_of_closed_error {p : Progress} {options : Options} {opening : List Statement} {s : Session}
    {e : Error} (h : (p.closed options opening s).outcome = .error e) : p.outcome = .error e := by
  unfold closed at h
  split at h
  · rename_i e' he
    exact he.trans (congrArg _ (Except.error.inj h))
  · cases h

theorem Progress.outcome_of_closed_ok {p : Progress} {options : Options} {opening : List Statement} {s : Session}
    {summary : Summary} (h : (p.closed options opening s).outcome = .ok summary) : ∃ read, p.outcome = .ok read := by
  unfold closed at h
  split at h
  · cases h
  · exact ⟨_, ‹_›⟩

theorem Progress.closed_of_error {p : Progress} {e : Error} (h : p.outcome = .error e) (options : Options)
    (opening : List Statement) (s : Session) :
    p.closed options opening s = ⟨opening ++ p.written, p.log, .error e⟩ := by
  rw [closed, h]

theorem Progress.closed_of_ok {p : Progress} {read : List (List SourceLine)} (h : p.outcome = .ok read)
    (options : Options) (opening : List Statement) (s : Session) :
    p.closed options opening s =
      ⟨opening ++ p.written ++ s.finish, p.log ++ entryWarning options read,
        .ok ⟨read.length, read.flatten.length, (opening ++ p.written ++ s.finish).length⟩⟩ := by
  rw [closed, h]

/-- Whether or not the units failed, what they gave stands behind the opening. -/
theorem Progress.exists_written_closed (p : Progress) (options : Options) (opening : List Statement) (s : Session) :
    ∃ rest, (p.closed options opening s).written = opening ++ p.written ++ rest := by
  unfold closed
  split
  · exact ⟨[], (List.append_nil _).symm⟩
  · exact ⟨s.finish, rfl⟩

section Runs

variable {options : Options} {us : List SourceUnit}

def Options.parking (options : Options) : String :=
  if options.bootstrap then "" else "($halt)\n@$halt\n0;JMP\n"

theorem write_finish {s : Session} (h : s.options = options) : Statement.write s.finish = options.parking := by
  rw [Session.finish, Options.parking, h]
  split
  · rfl
  · decide +kernel

theorem translate_of_start {opening : List Statement} {s : Session} (hn : (us.map (·.name)).Nodup)
    (hs : ({ options } : Session).start = (.ok opening, s)) :
    translate options us = (s.writeUnits us).closed options opening s := by
  rw [translate, repeatedName?_nil_eq_none_iff.mpr hn]
  simp only [hs]
  rfl

theorem translate_of_start_error {e : Error} {s : Session} (hn : (us.map (·.name)).Nodup)
    (hs : ({ options } : Session).start = (.error e, s)) : translate options us = ⟨[], [], .error e⟩ := by
  rw [translate, repeatedName?_nil_eq_none_iff.mpr hn]
  simp only [hs]

/-- A run that ends well has started, and its units have not failed. -/
theorem started_of_ok {summary : Summary} (h : (translate options us).outcome = .ok summary) :
    ∃ opening s read, ({ options } : Session).start = (.ok opening, s) ∧ (s.writeUnits us).outcome = .ok read := by
  have hn := (accepted_of_ok h).names
  rcases hs : ({ options } : Session).start with ⟨e | opening, s⟩
  · rw [translate_of_start_error hn hs] at h
    cases h
  · rw [translate_of_start hn hs] at h
    obtain ⟨read, hread⟩ := Progress.outcome_of_closed_ok h
    exact ⟨opening, s, read, rfl, hread⟩

/-- An error about an instruction comes from the units. -/
theorem started_of_instruction {place : Location} {fault : Fault} (hn : (us.map (·.name)).Nodup)
    (h : (translate options us).outcome = .error (.instruction place fault)) :
    ∃ opening s, ({ options } : Session).start = (.ok opening, s) ∧
      (s.writeUnits us).outcome = .error (.instruction place fault) := by
  rcases hs : ({ options } : Session).start with ⟨e | opening, s⟩
  · rw [translate_of_start_error hn hs] at h
    obtain rfl := Except.error.inj h
    unfold Session.start Session.bootstrap at hs
    simp only at hs
    split at hs
    · split at hs <;> cases hs
    · cases hs
  · rw [translate_of_start hn hs] at h
    exact ⟨opening, s, rfl, Progress.outcome_of_closed_error h⟩

/-- More units behind some do not change what was written for these. If a run fails, so
    does the run over more units, with the same error, code and reports; if it ends well,
    what it wrote, but for the end of the program, begins what the longer run writes. A
    run stopped by an instruction has written the opening, all code of the units before and
    the code of the lines before the faulty one, or nothing of the unit if it is one that
    cannot be read; and it has reported each unit before and nothing else. -/
theorem output_stable (options : Options) (us vs : List SourceUnit) (h : ((us ++ vs).map (·.name)).Nodup) :
    (∀ e, (translate options us).outcome = .error e → translate options (us ++ vs) = translate options us) ∧
      (∀ summary, (translate options us).outcome = .ok summary →
        ∃ body rest, (translate options us).text = body ++ options.parking ∧
          (translate options (us ++ vs)).text = body ++ rest) ∧
      ∀ place fault, (translate options us).outcome = .error (.instruction place fault) →
        ∃ opening s code, ({ options } : Session).start = (.ok opening, s) ∧
          (translate options us).written = opening ++ code ∧
          s.Stops code (translate options us).log us (.instruction place fault) := by
  have hn : (us.map (·.name)).Nodup := by
    rw [List.map_append] at h
    exact h.of_append_left
  refine ⟨fun e he => ?_, fun summary hok => ?_, fun place fault he => ?_⟩
  · rcases hs : ({ options } : Session).start with ⟨e' | opening, s⟩
    · rw [translate_of_start_error hn hs, translate_of_start_error h hs]
    · rw [translate_of_start hn hs] at he ⊢
      have hstop := Progress.outcome_of_closed_error he
      rw [translate_of_start h hs, Session.writeUnits_append, Progress.followedBy_of_error hstop]
  · obtain ⟨opening, s, read, hs, hread⟩ := started_of_ok hok
    obtain ⟨rest, hrest⟩ := ((s.writeUnits us).followedBy
      ((s.behindUnits us).writeUnits vs)).exists_written_closed options opening s
    obtain ⟨-, -, hsession⟩ := Session.start_ok hs
    refine ⟨Statement.write (opening ++ (s.writeUnits us).written),
      Statement.write (((s.behindUnits us).writeUnits vs).written ++ rest), ?_, ?_⟩
    · rw [translate_of_start hn hs, Run.text, Progress.closed_of_ok hread, Statement.write_append,
        write_finish (congrArg Session.options hsession)]
    · rw [translate_of_start h hs, Run.text, Session.writeUnits_append, hrest, Progress.followedBy_of_ok hread,
        ← Statement.write_append]
      simp only [List.append_assoc]
  · obtain ⟨opening, s, hs, hstop⟩ := started_of_instruction hn he
    rw [translate_of_start hn hs, Progress.closed_of_error hstop]
    exact ⟨opening, s, _, hs, rfl, Session.stops_of_error hstop⟩

end Runs

def counting : SourceUnit := ⟨"A", "function F 0\npush constant 1\nreturn\n"⟩

/-- A unit stopped at its second line is behind one that is done, and before one that could
    not be read. -/
theorem output_stable_behind_counting :
    translate {} ([counting, overrun] ++ [mixed]) = translate {} [counting, overrun] ∧
      (∃ body rest, (translate { bootstrap := false } [counting]).text = body ++ "($halt)\n@$halt\n0;JMP\n" ∧
        (translate { bootstrap := false } ([counting] ++ [overrun])).text = body ++ rest) ∧
      ∃ opening s code, ({} : Session).start = (.ok opening, s) ∧
        (translate {} [counting, overrun]).written = opening ++ code ∧
        s.Stops code (translate {} [counting, overrun]).log [counting, overrun]
          (.instruction ⟨"C", 2, "push pointer 2"⟩ (.pointerRange 2)) := by
  have herror : (translate {} [counting, overrun]).outcome =
      .error (.instruction ⟨"C", 2, "push pointer 2"⟩ (.pointerRange 2)) := by decide +kernel
  have hok : (translate { bootstrap := false } [counting]).outcome = .ok ⟨1, 3, 55⟩ := by decide +kernel
  obtain ⟨hsame, -, hwritten⟩ := output_stable {} [counting, overrun] [mixed] (by decide)
  obtain ⟨-, hbegins, -⟩ := output_stable { bootstrap := false } [counting] [overrun] (by decide)
  exact ⟨hsame _ herror, hbegins _ hok, hwritten _ _ herror⟩

end StackToHack
