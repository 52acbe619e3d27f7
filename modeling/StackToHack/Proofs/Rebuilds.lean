/-
  StackToHack.Proofs.Rebuilds — building again what has been built.

  An output that is named after its input has the extension of assembly, and the units have
  another, so the output is none of the inputs, and a directory's units are the same with
  the output in it. All else that a build asks of the files is what directories there are,
  which an output does not change. So a build that is done again finds what it found
  before.
  - `isUnitPath_of_inputFiles`, `isUnitPath_outputPath`: the extensions.
  - `inputFiles_put`, `outputPath_put`: what a file that is no unit leaves.
  - `prepared_again`: behind a build all that it needs is as before.
  - `rebuild_changes_nothing`: the second build is the first.
-/

import StackToHack.Proofs.Builds

namespace StackToHack

variable {fs : FileSystem} {command : Command}

/-! ## Extensions -/

/-- A path that is a unit's has a name that is. -/
theorem isUnitPath_eq_true_iff {path : String} :
    isUnitPath path = true ↔ ∃ name, Path.name? path = some name ∧ (Path.splitName name).2 = some unitExtension := by
  rw [isUnitPath, beq_iff_eq, Path.extension?, Option.bind_eq_some_iff]

/-- A unit keeps its extension in a directory. -/
theorem isUnitPath_join {directory path : String} (h : isUnitPath path = true) :
    isUnitPath (Path.join directory path) = true := by
  obtain ⟨name, hn, he⟩ := isUnitPath_eq_true_iff.mp h
  exact isUnitPath_eq_true_iff.mpr ⟨name, Path.name?_join hn, he⟩

/-- Whether a path is a unit's is told by its name. -/
theorem isUnitPath_name {path name : String} (h : Path.name? path = some name) : isUnitPath name = isUnitPath path := by
  rw [isUnitPath, isUnitPath, Path.extension?, Path.extension?, h, (Path.name?_name h).2]

theorem isUnitPath_of_mem_unitNames {directory : Place} {name : String} (h : name ∈ unitNames fs directory) :
    isUnitPath name = true := by
  rw [unitNames, List.mem_mergeSort] at h
  obtain ⟨⟨other, node⟩, -, he⟩ := List.mem_filterMap.mp h
  cases node with
  | directory => cases he
  | file content =>
    simp only at he
    split at he
    · rename_i hu
      obtain rfl := Option.some.inj he
      exact hu
    · cases he

theorem isUnitPath_of_inputsOf {path : String} {files : List String} (h : inputsOf fs path = .ok files) :
    ∀ file ∈ files, isUnitPath file = true := by
  unfold inputsOf at h
  intro file hf
  split at h
  · split at h
    · cases h
    · cases h
      obtain ⟨name, hn, rfl⟩ := List.mem_map.mp hf
      exact isUnitPath_join (isUnitPath_of_mem_unitNames hn)
  · split at h
    · rename_i hu
      cases h
      obtain rfl := List.mem_singleton.mp hf
      exact hu
    · cases h

theorem isUnitPath_of_inputFiles {paths files : List String} (h : inputFiles fs paths = .ok files) :
    ∀ file ∈ files, isUnitPath file = true := by
  induction paths generalizing files with
  | nil =>
    cases h
    simp
  | cons path paths ih =>
    unfold inputFiles at h
    split at h
    · cases h
    · rename_i first hfirst
      split at h
      · cases h
      · rename_i others hothers
        cases h
        intro file hf
        rcases List.mem_append.mp hf with hf | hf
        · exact isUnitPath_of_inputsOf hfirst file hf
        · exact ih hothers file hf

/-- What gets the extension of assembly is no unit. -/
theorem isUnitPath_withExtension (path : String) : isUnitPath (Path.withExtension path assemblyExtension) = false := by
  cases h : isUnitPath (Path.withExtension path assemblyExtension) with
  | false => rfl
  | true =>
    have he := Path.eq_of_extension?_withExtension (by decide) (by decide) (by decide) (beq_iff_eq.mp h)
    exact absurd he (by decide)

/-- An output that is named after the input is no unit. -/
theorem isUnitPath_outputPath {output : String} (ho : command.output? = none) (h : outputPath fs command = .ok output) :
    isUnitPath output = false := by
  unfold outputPath at h
  rw [ho] at h
  split at h
  · rename_i he
    cases he
  · split at h
    · rw [← Except.ok.inj h]
      exact isUnitPath_withExtension _
    · split at h
      · rw [← Except.ok.inj h]
        exact isUnitPath_withExtension _
      · cases h
  · cases h

/-! ## Files that are no units -/

def unitOf? (directory : Place) : Place × Node → Option String
  | (place, .file _) => place.getLast?.filter fun name => place.dropLast = directory && isUnitPath name
  | (_, .directory) => none

theorem unitNames_eq (fs : FileSystem) (directory : Place) :
    unitNames fs directory = (fs.nodes.filterMap (unitOf? directory)).mergeSort fun a b => decide (a ≤ b) := by
  simp only [unitNames, FileSystem.entries, List.filterMap_filterMap]
  congr 1
  apply List.filterMap_congr
  rintro ⟨place, node⟩ -
  cases node with
  | directory =>
    simp only [unitOf?]
    cases place.getLast? with
    | none => rfl
    | some name => by_cases h : place.dropLast = directory <;> simp [h]
  | file content =>
    simp only [unitOf?]
    cases place.getLast? with
    | none => rfl
    | some name => by_cases h : place.dropLast = directory <;> simp [h, Option.filter]

section Put

variable {place directory : Place} {name : String} {content : ByteArray}

theorem unitOf?_eq_none (hn : isUnitPath name = false) (other : Place) (node : Node) :
    unitOf? other (directory ++ [name], node) = none := by
  cases node <;> simp [unitOf?, hn, Option.filter]

/-- A file that is no unit is none of a directory's units. -/
theorem unitNames_put (hn : isUnitPath name = false) (other : Place) :
    unitNames (fs.put (directory ++ [name]) (.file content)) other = unitNames fs other := by
  have hput : (fs.put (directory ++ [name]) (.file content)).nodes =
      (directory ++ [name], .file content) :: fs.nodes.filter fun entry => entry.1 ≠ directory ++ [name] := rfl
  rw [unitNames_eq, unitNames_eq, hput, List.filterMap_cons_none (unitOf?_eq_none hn other _), List.filterMap_filter]
  congr 1
  apply List.filterMap_congr
  rintro ⟨place, node⟩ -
  -- what stood there was no unit either
  by_cases hp : place = directory ++ [name]
  · simp [hp, unitOf?_eq_none hn]
  · simp [hp]

/-- A unit stands elsewhere than what is no unit. -/
theorem ne_of_find {path : String} (hn : isUnitPath name = false) (hp : isUnitPath path = true) {other : Place} {node : Node}
    (hf : fs.find path = .ok (other, node)) : other ≠ directory ++ [name] := by
  obtain ⟨-, hw, -⟩ := FileSystem.find_eq_ok_iff.mp hf
  obtain ⟨last, hlast, -⟩ := isUnitPath_eq_true_iff.mp hp
  obtain ⟨above, -, rfl⟩ := FileSystem.exists_of_name hlast hw
  intro he
  obtain rfl : last = name := by simpa using (List.append_inj' he rfl).2
  rw [isUnitPath_name hlast, hp] at hn
  cases hn

variable (hd : fs.node? (directory ++ [name]) ≠ some .directory) (hn : isUnitPath name = false)
include hd hn

theorem inputsOf_put (path : String) : inputsOf (fs.put (directory ++ [name]) (.file content)) path = inputsOf fs path := by
  rw [inputsOf, inputsOf, FileSystem.directory?_put hd]
  cases fs.directory? path with
  | none => rfl
  | some other => simp only [unitNames_put hn]

/-- A file that is no unit changes no inputs. -/
theorem inputFiles_put (paths : List String) :
    inputFiles (fs.put (directory ++ [name]) (.file content)) paths = inputFiles fs paths := by
  induction paths with
  | nil => rfl
  | cons path paths ih => rw [inputFiles, inputFiles, inputsOf_put hd hn, ih]

omit hn in
theorem outputPath_put (command : Command) :
    outputPath (fs.put (directory ++ [name]) (.file content)) command = outputPath fs command := by
  simp only [outputPath, FileSystem.directory?_put hd]

/-- A unit that was read is read again. -/
theorem readUnit_put {path : String} {u : SourceUnit} (hp : isUnitPath path = true) (hu : readUnit fs path = .ok u) :
    readUnit (fs.put (directory ++ [name]) (.file content)) path = .ok u := by
  obtain ⟨hname, hread⟩ := readUnit_eq_ok_iff.mp hu
  obtain ⟨other, source, hf, htext⟩ := FileSystem.read_eq_ok_iff.mp hread
  refine readUnit_eq_ok_iff.mpr ⟨hname, FileSystem.read_eq_ok_iff.mpr ⟨other, source, ?_, htext⟩⟩
  rw [FileSystem.find_put_of_ne hd (ne_of_find hn hp hf)]
  exact hf

theorem reads_put {paths : List String} {units : List SourceUnit} (hp : ∀ path ∈ paths, isUnitPath path = true)
    (h : Reads fs paths units) : Reads (fs.put (directory ++ [name]) (.file content)) paths units := by
  induction h with
  | nil => exact .nil
  | cons hu _ ih =>
    refine .cons (readUnit_put hd hn (hp _ List.mem_cons_self) hu) (ih fun path hm => ?_)
    exact hp path (List.mem_cons_of_mem _ hm)

end Put

/-! ## Again -/

section Again

variable {fs : FileSystem.Tree} {files : List String} {units : List SourceUnit} {output : String} {place : Place}

/-- Where an output is written that is named after the input: under a name that is no
    unit's. -/
theorem exists_name_of_prepared (ho : command.output? = none)
    (h : Prepared fs command files units output place) :
    ∃ directory name, place = directory ++ [name] ∧ isUnitPath name = false := by
  obtain ⟨name, directory, hname, -, hplace⟩ := FileSystem.Tree.exists_of_target h.target
  exact ⟨directory, name, hplace, (isUnitPath_name hname).trans (isUnitPath_outputPath ho h.named)⟩

/-- Behind a build all that it needs is as before. -/
theorem prepared_again (ho : command.output? = none)
    (h : Prepared fs command files units output place) (content : ByteArray) :
    Prepared (fs.put place (.file content)) command files units output place := by
  obtain ⟨directory, name, rfl, hn⟩ := exists_name_of_prepared ho h
  have hd := (FileSystem.target_eq_ok_iff.mp h.target).2.2.2
  exact
    { inputs := (inputFiles_put hd hn command.inputs).trans h.inputs
      named := (outputPath_put hd command).trans h.named
      read := reads_put hd hn (isUnitPath_of_inputFiles h.inputs) h.read
      target := FileSystem.target_put h.target }

/-- A build that is done again does the same and changes nothing. -/
theorem build_build (ho : command.output? = none) :
    build (build fs command).files command = build fs command := by
  rcases stopped_or_prepared fs command with ⟨e, h⟩ | ⟨files, units, output, place, h⟩
  · have hbuild := build_of_stopped h
    rw [hbuild]
    exact hbuild
  · rw [build_of_prepared h, build_of_prepared (prepared_again ho h _), FileSystem.put_put]

/-- A build without an output of its own that succeeds writes over none of its inputs, and
    done again it finds the same inputs and the same output, reports the same and leaves
    every file as it is. -/
theorem rebuild_changes_nothing (ho : command.output? = none)
    (hs : (build fs command).exitCode = 0) :
    ∃ files units output place, Prepared fs command files units output place ∧ output ∉ files ∧
      (∀ path ∈ files, ∀ other node, fs.find path = .ok (other, node) → other ≠ place) ∧
      Prepared (build fs command).files command files units output place ∧
      build (build fs command).files command = build fs command ∧ (build fs command).files.IsTree := by
  rcases stopped_or_prepared fs command with ⟨e, h⟩ | ⟨files, units, output, place, h⟩
  · rw [build_of_stopped h] at hs
    cases hs
  · refine ⟨files, units, output, place, h, ?_, ?_, ?_, build_build ho, ?_⟩
    · intro hmem
      have hunit := isUnitPath_of_inputFiles h.inputs output hmem
      rw [isUnitPath_outputPath ho h.named] at hunit
      cases hunit
    · intro path hmem other node hf
      obtain ⟨directory, name, rfl, hn⟩ := exists_name_of_prepared ho h
      exact ne_of_find hn (isUnitPath_of_inputFiles h.inputs path hmem) hf
    · rw [build_of_prepared h]
      exact prepared_again ho h _
    · rw [build_of_prepared h]
      exact (fs.write h.target _).isTree

end Again

def project : FileSystem.Tree where
  nodes := [(["D"], .directory), (["D", "vm.vm"], .file "add\n".toUTF8), (["D", "D.asm"], .file "older".toUTF8)]
  isTree := FileSystem.isTree_of_nodes (by decide +kernel)

def projectCommand : Command := ⟨["./D/"], none, { bootstrap := false }, false⟩

theorem rebuild_changes_nothing_in_project :
    project.IsTree ∧ (build project projectCommand).exitCode = 0 ∧
      ∃ files units output place, Prepared project projectCommand files units output place ∧ output ∉ files ∧
        build (build project projectCommand).files projectCommand = build project projectCommand := by
  have hs : (build project projectCommand).exitCode = 0 := by decide +kernel
  obtain ⟨files, units, output, place, hprepared, hnew, -, -, hagain, -⟩ := rebuild_changes_nothing rfl hs
  exact ⟨project.isTree, hs, files, units, output, place, hprepared, hnew, hagain⟩

end StackToHack
