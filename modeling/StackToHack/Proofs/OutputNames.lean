/-
  StackToHack.Proofs.OutputNames — the output of a directory.

  The output of a directory gets the name of the directory with another extension, in the
  directory. What stands behind a dot in that name is taken for an extension and goes, so
  the name is whole only if it holds no dot but at its front.
  - `withExtension_join`: the name of the output.
  - `directory_output_named_iff`: when it is the directory's whole name.
  - `directory_output_cut`: a directory whose name is cut.
-/

import StackToHack.Proofs.Files
import StackToHack.Build

namespace StackToHack

/-! ## Names with another extension -/

namespace Path

variable {directory name extension : String}

/-- A name with another extension: what stands behind its last dot goes first, and what that
    leaves of a name such as `..x` is the step up. -/
def renamed (name extension : String) : String :=
  match splitName name with
  | (_, none) => name ++ "." ++ extension
  | (stem, some _) => if stem = "." then ".." else stem ++ "." ++ extension

theorem join_injective {other : String} (hd : directory ≠ "") (hn : '/' ∉ name.toList) (ho : '/' ∉ other.toList)
    (h : join directory name = join directory other) : name = other := by
  obtain ⟨front, -, hnames⟩ := steps_join_name hd
  have hsteps := congrArg steps h
  rw [hnames name hn, hnames other ho] at hsteps
  simpa using hsteps

/-- An extension is put behind the stem of a name in a directory. -/
theorem extend_join (hd : directory ≠ "") (hn : IsName name) (he : '/' ∉ extension.toList) :
    extend (join directory name) extension = join directory ((splitName name).1 ++ "." ++ extension) := by
  obtain ⟨front, -, hnames⟩ := steps_join_name hd
  have hstem : stem? (join directory name) = some (splitName name).1 := by
    rw [stem?, name?_join hn.name?]
    rfl
  have hmoving := @movingSteps_of_split _ _ [] _ (hnames name hn.1) hn.stays (List.forall_mem_nil _)
  have hslash : '/' ∉ ((splitName name).1 ++ "." ++ extension).toList := by simp [notMem_stem hn.1, he]
  rw [extend, hstem]
  simp only
  rw [hmoving, List.dropLast_concat, ← hnames _ hslash, intercalate_steps]

theorem splitName_cases (name : String) :
    splitName name = (name, none) ∨ ∃ stem old, splitName name = (stem, some old) := by
  unfold splitName
  split
  · exact .inl rfl
  · exact .inl rfl
  · exact .inr ⟨_, _, rfl⟩

theorem bare_of_whole (hd : directory ≠ "") (hn : '/' ∉ name.toList) (hs : splitName name = (name, none)) :
    bare (join directory name) = join directory name := by
  obtain ⟨front, -, hnames⟩ := steps_join_name hd
  rw [bare, hnames name hn, List.getLast?_concat]
  simp only [hs]

theorem bare_of_extended (hd : directory ≠ "") (hn : '/' ∉ name.toList) {stem old : String}
    (hs : splitName name = (stem, some old)) : bare (join directory name) = join directory (stem ++ ".") := by
  obtain ⟨front, -, hnames⟩ := steps_join_name hd
  have hslash : '/' ∉ (stem ++ ".").toList := by
    have := notMem_stem hn
    rw [hs] at this
    simpa using this
  rw [bare, hnames name hn, List.getLast?_concat, List.dropLast_concat]
  simp only [hs]
  rw [← hnames _ hslash, intercalate_steps]

/-- The step up has no name that could get an extension. -/
theorem extend_join_up (hd : directory ≠ "") (extension : String) :
    extend (join directory "..") extension = join directory ".." := by
  obtain ⟨front, -, hnames⟩ := steps_join_name hd
  have hmoving := @movingSteps_of_split _ _ [] _ (hnames ".." (by decide)) (by decide) (List.forall_mem_nil _)
  have hstem : stem? (join directory "..") = none := by
    rw [stem?, name?_of_movingSteps hmoving]
    rfl
  rw [extend, hstem]

/-- A name in a directory gets another extension. -/
theorem withExtension_join (hd : directory ≠ "") (hn : IsName name) (he : '/' ∉ extension.toList) :
    withExtension (join directory name) extension = join directory (renamed name extension) := by
  rw [withExtension, renamed]
  rcases splitName_cases name with hs | ⟨stem, old, hs⟩
  · rw [bare_of_whole hd hn.1 hs, extend_join hd hn he, hs]
  · rw [bare_of_extended hd hn.1 hs, hs]
    simp only
    by_cases hup : stem = "."
    · rw [if_pos hup, hup]
      exact extend_join_up hd extension
    · obtain ⟨hne, -, hname⟩ := splitName_eq_some_iff.mp hs
      have hlast : ∀ other, stem ++ "." = other ++ "." → stem = other := by
        intro other h
        exact String.toList_injective (by simpa using congrArg String.toList h)
      have hleft : IsName (stem ++ ".") := by
        refine ⟨?_, ?_, fun h => hne (hlast "" h), fun h => hup (hlast "." h)⟩
        · have := hn.1
          rw [hname] at this
          simp_all
        · intro h
          simpa using congrArg String.toList h
      have hstem : splitName (stem ++ ".") = (stem, some "") :=
        splitName_eq_some_iff.mpr ⟨hne, by decide, (String.append_empty).symm⟩
      rw [if_neg hup, extend_join hd hleft he, hstem]

theorem notMem_renamed (hn : '/' ∉ name.toList) (he : '/' ∉ extension.toList) : '/' ∉ (renamed name extension).toList := by
  have hstem := notMem_stem hn
  rw [renamed]
  rcases splitName_cases name with hs | ⟨stem, old, hs⟩
  · simp [hs, hn, he]
  · rw [hs] at hstem
    simp only [hs]
    split
    · decide
    · simp [hstem, he]

/-- The whole name is kept if it holds no dot but at its front. -/
theorem renamed_eq_iff {name extension : String} : renamed name extension = name ++ "." ++ extension ↔ '.' ∉ name.toList.tail := by
  rw [← splitName_eq_none_iff, renamed]
  rcases splitName_cases name with hs | ⟨stem, old, hs⟩
  · exact iff_of_true (by rw [hs]) hs
  · obtain ⟨-, -, hname⟩ := splitName_eq_some_iff.mp hs
    refine iff_of_false ?_ (by simp [hs])
    rw [hs]
    simp only
    -- what is cut is missing
    intro h
    have hlength := congrArg (fun text : String => text.toList.length) h
    rw [hname] at hlength
    split at hlength
    · rename_i hup
      rw [hup] at hlength
      simp at hlength
    · simp at hlength
      omega

end Path

/-! ## The output of a directory -/

variable {fs : FileSystem.Volume} {command : Command} {path : String}

theorem outputPath_of_directory {place : Place} {name : String} (ho : command.output? = none)
    (hi : command.inputs = [path]) (hd : fs.directory? path = some place) (hn : place.getLast? = some name) :
    Path.IsName name ∧ outputPath fs command = .ok (Path.join path (Path.renamed name assemblyExtension)) := by
  have hfind := FileSystem.directory?_eq_some_iff.mp hd
  have hname := fs.wellFormed.named_of_find hfind name (List.mem_of_getLast? hn)
  refine ⟨hname, ?_⟩
  simp only [outputPath, ho, hi, hd, hn]
  rw [Path.withExtension_join (FileSystem.find_eq_ok_iff.mp hfind).1 hname (by decide)]

/-- The output of a directory other than the root stands in it and has its name with the
    extension of assembly, unless a dot stands behind the front of that name: what follows
    the last such dot is cut off. -/
theorem directory_output_named_iff {place : Place} {name : String} (ho : command.output? = none)
    (hi : command.inputs = [path]) (hd : fs.directory? path = some place) (hn : place.getLast? = some name) :
    (outputPath fs command = .ok (Path.join path (name ++ ".asm")) ↔ '.' ∉ name.toList.tail) ∧
      ∀ stem extension : String, stem ≠ "" → '.' ∉ extension.toList → name = stem ++ "." ++ extension →
        outputPath fs command = .ok (Path.join path (if stem = "." then ".." else stem ++ ".asm")) := by
  obtain ⟨hname, houtput⟩ := outputPath_of_directory ho hi hd hn
  have hne := (FileSystem.find_eq_ok_iff.mp (FileSystem.directory?_eq_some_iff.mp hd)).1
  have hasm : ∀ stem : String, stem ++ ".asm" = stem ++ "." ++ assemblyExtension := by
    intro stem
    rw [String.append_assoc]
    rfl
  constructor
  · rw [houtput, hasm, ← @Path.renamed_eq_iff name assemblyExtension]
    constructor
    · intro he
      refine Path.join_injective hne (Path.notMem_renamed hname.1 (by decide)) ?_ (Except.ok.inj he)
      simp [hname.1, assemblyExtension]
    · intro he
      rw [he]
  · intro stem extension hstem hext hsplit
    rw [houtput, Path.renamed, Path.splitName_eq_some_iff.mpr ⟨hstem, hext, hsplit⟩]
    simp only [hasm]

def dotted : FileSystem.Volume :=
  (FileSystem.Volume.empty.addFile "a.b/A.vm" "add\n".toUTF8).addDirectory "a.b/c"

def dottedCommand (path : String) : Command := ⟨[path], none, { bootstrap := false }, false⟩

/-- A directory below, through steps that stay and that lead up, and the one above it. -/
theorem directory_output_named_iff_below :
    outputPath dotted (dottedCommand "a.b/./c/../c/") = .ok "a.b/./c/../c/c.asm" ∧
      outputPath dotted (dottedCommand "a.b/c/..") = .ok "a.b/c/../a.asm" := by
  obtain ⟨hwhole, -⟩ := @directory_output_named_iff dotted (dottedCommand "a.b/./c/../c/") "a.b/./c/../c/" ["a.b", "c"] "c"
    rfl rfl (by decide +kernel) rfl
  obtain ⟨-, hcut⟩ := @directory_output_named_iff dotted (dottedCommand "a.b/c/..") "a.b/c/.." ["a.b"] "a.b"
    rfl rfl (by decide +kernel) rfl
  exact ⟨hwhole.mpr (by decide), hcut "a" "b" (by decide) (by decide) rfl⟩

/-- A directory's name is cut at a dot. -/
theorem directory_output_cut :
    dotted.directory? "a.b" = some ["a.b"] ∧ outputPath dotted (dottedCommand "a.b") = .ok "a.b/a.asm" ∧
      outputPath dotted (dottedCommand "a.b") ≠ .ok (Path.join "a.b" ("a.b" ++ ".asm")) := by
  refine ⟨by decide +kernel, by decide +kernel, by decide +kernel⟩

end StackToHack
