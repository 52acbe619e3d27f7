/-
  StackToHack.Proofs.Builds — what a build leaves behind.

  A build either stops before it writes, `Stopped`, and leaves every file as it was, or it
  has all it needs, `Prepared`, and writes one file: the translation of the units as they
  were read before, whatever stood there, and also where a unit stood there. One notice at
  the end tells how it went, and it is the only one that can be an error.
  - `stopped_or_prepared`: there is no third way.
  - `build_of_stopped`, `build_of_prepared`: the two ways.
  - `build_touches_output_only`: files, notices and exit code of every build.
-/

import Mathlib.Data.List.Forall2
import StackToHack.Build
import StackToHack.Proofs.Files

namespace StackToHack

variable {fs : FileSystem} {command : Command}

/-! ## Reading units -/

theorem readUnit_eq_ok_iff {path : String} {u : SourceUnit} :
    readUnit fs path = .ok u ↔ Path.stem? path = some u.name ∧ fs.read path = .ok u.source := by
  constructor
  · intro h
    unfold readUnit at h
    split at h
    · cases h
    · rename_i name hname
      split at h
      · cases h
      · rename_i source hsource
        obtain rfl := Except.ok.inj h
        exact ⟨hname, hsource⟩
  · rintro ⟨hname, hsource⟩
    simp only [readUnit, hname, hsource]

def Reads (fs : FileSystem) : List String → List SourceUnit → Prop :=
  List.Forall₂ fun path u => readUnit fs path = .ok u

theorem readUnits_eq_ok_iff {paths : List String} {units : List SourceUnit} :
    readUnits fs paths = .ok units ↔ Reads fs paths units := by
  induction paths generalizing units with
  | nil =>
    rw [readUnits, Reads, List.forall₂_nil_left_iff]
    exact ⟨fun h => (Except.ok.inj h).symm, fun h => congrArg _ h.symm⟩
  | cons path paths ih =>
    rw [readUnits, Reads, List.forall₂_cons_left_iff]
    constructor
    · intro h
      split at h
      · cases h
      · rename_i u hu
        split at h
        · cases h
        · rename_i us hus
          cases h
          exact ⟨u, us, hu, ih.mp hus, rfl⟩
    · rintro ⟨u, us, hu, hus, rfl⟩
      simp only [hu, ih.mpr hus]

/-- Units are read in order, and the first that cannot be read stops the reading. -/
theorem readUnits_eq_error_iff {paths : List String} {e : Error} :
    readUnits fs paths = .error e ↔ ∃ before path after units, paths = before ++ path :: after ∧
      Reads fs before units ∧ readUnit fs path = .error e := by
  induction paths with
  | nil => simp [readUnits]
  | cons path paths ih =>
    rw [readUnits]
    constructor
    · intro h
      split at h
      · rename_i e' hu
        cases h
        exact ⟨[], path, paths, [], rfl, .nil, hu⟩
      · rename_i u hu
        split at h
        · rename_i e' hrest
          cases h
          obtain ⟨before, other, after, units, rfl, hread, hfail⟩ := ih.mp hrest
          exact ⟨path :: before, other, after, u :: units, rfl, .cons hu hread, hfail⟩
        · cases h
    · rintro ⟨before, other, after, units, hp, hread, hfail⟩
      cases hread with
      | nil =>
        obtain ⟨rfl, rfl⟩ := List.cons.inj hp
        simp only [hfail]
      | @cons _ u before units hu hread =>
        obtain ⟨rfl, rfl⟩ := List.cons.inj hp
        simp only [hu, ih.mpr ⟨before, other, after, units, rfl, hread, hfail⟩]

/-! ## Before the writing -/

structure Prepared (fs : FileSystem) (command : Command) (files : List String) (units : List SourceUnit)
    (output : String) (place : Place) : Prop where
  inputs : inputFiles fs command.inputs = .ok files
  named : outputPath fs command = .ok output
  read : Reads fs files units
  target : fs.target output = .ok place

inductive Stopped (fs : FileSystem) (command : Command) : Error → Prop
  | inputs {e : Error} (failed : inputFiles fs command.inputs = .error e) : Stopped fs command e
  | output {files : List String} {e : Error} (inputs : inputFiles fs command.inputs = .ok files)
    (failed : outputPath fs command = .error e) : Stopped fs command e
  | reading {before after : List String} {path output : String} {units : List SourceUnit} {e : Error}
    (inputs : inputFiles fs command.inputs = .ok (before ++ path :: after)) (named : outputPath fs command = .ok output)
    (read : Reads fs before units) (failed : readUnit fs path = .error e) : Stopped fs command e
  | creating {files : List String} {units : List SourceUnit} {output : String} {fault : FileFault}
    (inputs : inputFiles fs command.inputs = .ok files) (named : outputPath fs command = .ok output)
    (read : Reads fs files units) (failed : fs.target output = .error fault) : Stopped fs command (.file output fault)

theorem stopped_or_prepared (fs : FileSystem) (command : Command) :
    (∃ e, Stopped fs command e) ∨ ∃ files units output place, Prepared fs command files units output place := by
  cases hfiles : inputFiles fs command.inputs with
  | error e => exact .inl ⟨e, .inputs hfiles⟩
  | ok files =>
    cases houtput : outputPath fs command with
    | error e => exact .inl ⟨e, .output hfiles houtput⟩
    | ok output =>
      cases hunits : readUnits fs files with
      | error e =>
        obtain ⟨before, path, after, units, rfl, hread, hfail⟩ := readUnits_eq_error_iff.mp hunits
        exact .inl ⟨e, .reading hfiles houtput hread hfail⟩
      | ok units =>
        have hread := readUnits_eq_ok_iff.mp hunits
        cases htarget : fs.target output with
        | error fault => exact .inl ⟨.file output fault, .creating hfiles houtput hread htarget⟩
        | ok place => exact .inr ⟨files, units, output, place, hfiles, houtput, hread, htarget⟩

/-! ## The two ways -/

/-- A build that cannot write reports why and leaves all files as they are. -/
theorem build_of_stopped {e : Error} (h : Stopped fs command e) : build fs command = ⟨fs, [.failed e], false⟩ := by
  cases h with
  | inputs failed => simp only [build, prepare, failed]
  | output inputs failed => simp only [build, prepare, inputs, failed]
  | @reading before after path _ units _ inputs named read failed =>
    have hunits := readUnits_eq_error_iff.mpr ⟨before, path, after, units, rfl, read, failed⟩
    simp only [build, prepare, inputs, named, hunits]
  | creating inputs named read failed =>
    simp only [build, prepare, inputs, named, readUnits_eq_ok_iff.mpr read, FileSystem.create_of_target_error failed]

def Run.ending (r : Run) (output : String) : Notice :=
  match r.outcome with
  | .error e => .failed e
  | .ok summary => .wrote output summary

theorem build_of_prepared {files : List String} {units : List SourceUnit} {output : String} {place : Place}
    (h : Prepared fs command files units output place) :
    build fs command =
      { files := fs.put place (.file (translate command.options units).text.toUTF8)
        log := (translate command.options units).log ++ [(translate command.options units).ending output]
        succeeded := (translate command.options units).outcome.isOk } := by
  simp only [build, prepare, h.inputs, h.named, readUnits_eq_ok_iff.mpr h.read, FileSystem.create_of_target h.target,
    Run.ending]
  cases (translate command.options units).outcome with
  | error e => rfl
  | ok summary => rfl

/-! ## Notices -/

theorem Session.level_writeUnits (s : Session) (units : List SourceUnit) :
    ∀ n ∈ (s.writeUnits units).log, n.level = .info := by
  induction units generalizing s with
  | nil => simp [writeUnits]
  | cons u us ih =>
    rw [writeUnits]
    split
    · simp
    · split
      · simp
      · intro n hn
        rcases List.mem_cons.mp hn with rfl | hn
        · rfl
        · exact ih _ n hn

/-- A run reports no errors on its way; only its end can be one. -/
theorem level_translate (options : Options) (units : List SourceUnit) :
    ∀ n ∈ (translate options units).log, n.level ≠ .error := by
  have hunits : ∀ (s : Session), ∀ n ∈ (s.writeUnits units).log, n.level ≠ .error := by
    intro s n hn
    rw [s.level_writeUnits units n hn]
    decide
  have hwarning : ∀ read, ∀ n ∈ entryWarning options read, n.level ≠ .error := by
    intro read n hn
    unfold entryWarning at hn
    split at hn
    · obtain rfl := List.mem_singleton.mp hn
      simp [Notice.level]
    · cases hn
  unfold translate
  split
  · simp
  · split
    · simp
    · rename_i session _
      simp only
      split
      · exact hunits session
      · intro n hn
        rcases List.mem_append.mp hn with hn | hn
        · exact hunits session n hn
        · exact hwarning _ n hn

/-- The errors among what a run into a file reports. -/
theorem errors_translate (options : Options) (units : List SourceUnit) (output : String) :
    ((translate options units).log ++ [(translate options units).ending output]).filter (·.level = .error) =
      match (translate options units).outcome with
      | .error e => [.failed e]
      | .ok _ => [] := by
  have hnone : (translate options units).log.filter (·.level = .error) = [] := by
    rw [List.filter_eq_nil_iff]
    intro n hn
    simpa using level_translate options units n hn
  rw [List.filter_append, hnone, Run.ending]
  cases (translate options units).outcome with
  | error e => rfl
  | ok summary => rfl

/-! ## Every build -/

/-- Every build either cannot write, reports why and leaves all files, or writes the
    translation of its units as they were read, and nothing else. It fails with one error,
    or succeeds with none. -/
theorem build_touches_output_only (fs : FileSystem) (command : Command) :
    (∀ e, Stopped fs command e → (build fs command).files = fs ∧ (build fs command).log = [.failed e] ∧
      (build fs command).exitCode = 1) ∧
    (∀ files units output place, Prepared fs command files units output place →
      (build fs command).files.find output = .ok (place, .file (translate command.options units).text.toUTF8) ∧
      (∀ other, other ≠ place → (build fs command).files.node? other = fs.node? other) ∧
      (build fs command).log =
        (translate command.options units).log ++ [(translate command.options units).ending output] ∧
      ((build fs command).exitCode = 0 ↔ ∃ summary, (translate command.options units).outcome = .ok summary)) ∧
    ((∃ e, Stopped fs command e) ∨ ∃ files units output place, Prepared fs command files units output place) ∧
    ((build fs command).exitCode = 0 ∧ (build fs command).log.filter (·.level = .error) = [] ∨
      (build fs command).exitCode = 1 ∧ ∃ e, (build fs command).log.filter (·.level = .error) = [.failed e]) := by
  have hprepared : ∀ files units output place, Prepared fs command files units output place →
      (build fs command).exitCode = (if (translate command.options units).outcome.isOk then 0 else 1) := by
    intro files units output place h
    rw [build_of_prepared h]
    rfl
  refine ⟨fun e h => ?_, fun files units output place h => ⟨?_, ?_, ?_, ?_⟩, stopped_or_prepared fs command, ?_⟩
  · rw [build_of_stopped h]
    exact ⟨rfl, rfl, rfl⟩
  · rw [build_of_prepared h]
    exact FileSystem.find_of_target h.target
  · intro other ho
    rw [build_of_prepared h]
    exact FileSystem.node?_put_of_ne (FileSystem.target_eq_ok_iff.mp h.target).2.2.2 ho
  · rw [build_of_prepared h]
  · rw [hprepared _ _ _ _ h]
    cases (translate command.options units).outcome <;> simp [Except.isOk, Except.toBool]
  · rcases stopped_or_prepared fs command with ⟨e, h⟩ | ⟨files, units, output, place, h⟩
    · rw [build_of_stopped h]
      exact .inr ⟨rfl, e, rfl⟩
    · have hexit := hprepared _ _ _ _ h
      have herrors := errors_translate command.options units output
      have hlog : (build fs command).log =
          (translate command.options units).log ++ [(translate command.options units).ending output] := by
        rw [build_of_prepared h]
      rw [hexit, hlog, herrors]
      cases (translate command.options units).outcome with
      | error e => exact .inr ⟨rfl, e, rfl⟩
      | ok summary => exact .inl ⟨rfl, rfl⟩

def neighbouring : FileSystem := { nodes := [(["A.vm"], .file "add\n".toUTF8), (["B"], .file "kept".toUTF8)] }

def overwriting : Command := ⟨["A.vm"], some "A.vm", { bootstrap := false }, false⟩

def lacking : Command := { overwriting with inputs := ["A.vm", "C.vm"] }

theorem prepared_overwriting : Prepared neighbouring overwriting ["A.vm"] [⟨"A", "add\n"⟩] "A.vm" ["A.vm"] where
  inputs := by decide +kernel
  named := rfl
  read := .cons (by decide +kernel) .nil
  target := by decide +kernel

theorem stopped_lacking : Stopped neighbouring lacking (.file "C.vm" .notFound) := by
  refine @Stopped.reading neighbouring lacking ["A.vm"] [] "C.vm" "A.vm" [⟨"A", "add\n"⟩] _ ?_ rfl ?_ ?_
  · decide +kernel
  · exact .cons (by decide +kernel) .nil
  · decide +kernel

/-- The unit is read before the output takes its place, and stays where another is not there. -/
theorem build_touches_output_only_over_input :
    (build neighbouring lacking).files = neighbouring ∧ (build neighbouring lacking).exitCode = 1 ∧
      (build neighbouring overwriting).files.find "A.vm" =
        .ok (["A.vm"], .file (translate { bootstrap := false } [⟨"A", "add\n"⟩]).text.toUTF8) ∧
      (build neighbouring overwriting).files.node? ["B"] = some (.file "kept".toUTF8) ∧
      (build neighbouring overwriting).exitCode = 0 := by
  obtain ⟨hstopped, -⟩ := build_touches_output_only neighbouring lacking
  obtain ⟨-, hprepared, -⟩ := build_touches_output_only neighbouring overwriting
  obtain ⟨hfiles, -, hexit⟩ := hstopped _ stopped_lacking
  obtain ⟨hfind, hrest, -, hsuccess⟩ := hprepared _ _ _ _ prepared_overwriting
  refine ⟨hfiles, hexit, hfind, ?_, hsuccess.mpr ⟨⟨1, 1, 9⟩, by decide +kernel⟩⟩
  rw [hrest ["B"] (by decide)]
  rfl

end StackToHack
