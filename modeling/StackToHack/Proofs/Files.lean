/-
  StackToHack.Proofs.Files — following paths, before and behind the writing of a file.

  A path is followed through directories only, so file systems with the same directories
  follow every path to the same place. Writing a file where no directory stands leaves all
  directories as they are: paths lead where they led, and only what stands at the place of
  the file is new.
  - `find_eq_ok_iff`, `read_eq_ok_iff`, `target_eq_ok_iff`: where a path leads, what is read
    there, and where a file is written.
  - `walk_put`, `directory?_put`, `find_put_of_ne`, `target_put`: behind the writing.
  - `find_of_target`: the file that was written is found under its path.
  - `exists_of_name`: a path with a name leads to that name in a directory.
  - `Tree`: a file system where what stands anywhere stands in a directory. Files are
    written in directories and leave a tree, `Tree.write`.
  - `Volume`: a file system that lists what it has once and under names, in whatever order,
    `Volume.node?_perm`. What is set up path by path is one, `Volume.addDirectory` and
    `Volume.addFile`.
-/

import StackToHack.Files.FileSystem
import StackToHack.Proofs.Paths

namespace StackToHack

namespace FileSystem

variable {fs fs' : FileSystem} {path : String} {place goal : Place} {content : ByteArray}

/-! ## Where paths lead -/

/-- A step leaves a directory. -/
theorem walk_cons_eq_ok_iff {step : String} {rest : List String} :
    fs.walk place (step :: rest) = .ok goal ↔
      fs.node? place = some .directory ∧ fs.walk (advance place step) rest = .ok goal := by
  rw [walk]
  split
  · rename_i hn
    simp [hn]
  · rename_i hn
    simp [hn]
  · rename_i hn
    simp [hn]

theorem find_eq_ok_iff {node : Node} :
    fs.find path = .ok (place, node) ↔
      path ≠ "" ∧ fs.walk (fs.start path) (Path.steps path) = .ok place ∧ fs.node? place = some node := by
  constructor
  · intro h
    unfold find at h
    split at h
    · cases h
    · rename_i hne
      split at h
      · cases h
      · rename_i hw
        split at h
        · cases h
        · rename_i hn
          cases h
          exact ⟨hne, hw, hn⟩
  · rintro ⟨hne, hw, hn⟩
    simp only [find, if_neg hne, hw, hn]

theorem directory?_eq_some_iff : fs.directory? path = some place ↔ fs.find path = .ok (place, .directory) := by
  unfold directory?
  cases h : fs.find path with
  | error fault => simp
  | ok found =>
    obtain ⟨other, node⟩ := found
    cases node <;> simp

theorem read_eq_ok_iff {text : String} :
    fs.read path = .ok text ↔
      ∃ place content, fs.find path = .ok (place, .file content) ∧ String.fromUTF8? content = some text := by
  constructor
  · intro h
    unfold read at h
    split at h
    · cases h
    · cases h
    · rename_i place content hfind
      split at h
      · rename_i hutf
        rw [Except.ok.inj h] at hutf
        exact ⟨place, content, hfind, hutf⟩
      · cases h
  · rintro ⟨place, content, hfind, hutf⟩
    simp only [read, hfind, hutf]

/-- A file can be written where a path leads that ends in no slash, unless a directory
    stands there. -/
theorem target_eq_ok_iff :
    fs.target path = .ok place ↔
      path ≠ "" ∧ Path.endsInSlash path = false ∧ fs.walk (fs.start path) (Path.steps path) = .ok place ∧
        fs.node? place ≠ some .directory := by
  constructor
  · intro h
    unfold target at h
    split at h
    · cases h
    · rename_i hne
      split at h
      · cases h
      · rename_i hw
        split at h
        · cases h
        · rename_i hd
          cases h
          simp only [Bool.or_eq_true, decide_eq_true_eq, not_or, Bool.not_eq_true] at hd
          obtain ⟨hslash, hd⟩ := hd
          rw [Path.withoutSlashes_eq_steps hne hslash] at hw
          exact ⟨hne, hslash, hw, hd⟩
  · rintro ⟨hne, hslash, hw, hd⟩
    rw [← Path.withoutSlashes_eq_steps hne hslash] at hw
    simp only [target, if_neg hne, hw, hslash, decide_eq_false hd, Bool.or_self, Bool.false_eq_true, if_false]

theorem create_of_target (h : fs.target path = .ok place) : fs.create path content = .ok (fs.put place (.file content)) := by
  rw [create, h]
  rfl

theorem create_of_target_error {fault : FileFault} (h : fs.target path = .error fault) :
    fs.create path content = .error fault := by
  rw [create, h]
  rfl

/-! ## The same directories -/

/-- File systems with the same directories follow steps to the same place. -/
theorem walk_congr (h : ∀ p, fs'.node? p = some .directory ↔ fs.node? p = some .directory) {steps : List String} :
    fs'.walk place steps = .ok goal ↔ fs.walk place steps = .ok goal := by
  induction steps generalizing place with
  | nil => rfl
  | cons step steps ih => rw [walk_cons_eq_ok_iff, walk_cons_eq_ok_iff, h, ih]

theorem ne_nil_of_not_directory (h : fs.node? place ≠ some .directory) : place ≠ [] := by
  rintro rfl
  exact h rfl

/-- Writing a file where no directory stands leaves the directories. -/
theorem directory_put (h : fs.node? place ≠ some .directory) (other : Place) :
    (fs.put place (.file content)).node? other = some .directory ↔ fs.node? other = some .directory := by
  rw [node?_put fs (ne_nil_of_not_directory h)]
  split
  · rename_i he
    subst he
    exact iff_of_false (by simp) h
  · rfl

theorem node?_put_of_ne (h : fs.node? place ≠ some .directory) {other : Place} (ho : other ≠ place) :
    (fs.put place (.file content)).node? other = fs.node? other := by
  rw [node?_put fs (ne_nil_of_not_directory h), if_neg ho]

theorem walk_put (h : fs.node? place ≠ some .directory) {from' : Place} {steps : List String} :
    (fs.put place (.file content)).walk from' steps = .ok goal ↔ fs.walk from' steps = .ok goal :=
  walk_congr (directory_put h)

theorem start_put (fs : FileSystem) (place : Place) (node : Node) (path : String) :
    (fs.put place node).start path = fs.start path := rfl

theorem directory?_put (h : fs.node? place ≠ some .directory) (path : String) :
    (fs.put place (.file content)).directory? path = fs.directory? path := by
  apply Option.ext
  intro other
  rw [directory?_eq_some_iff, directory?_eq_some_iff, find_eq_ok_iff, find_eq_ok_iff, start_put, walk_put h,
    directory_put h]

/-- What stands elsewhere is found as before. -/
theorem find_put_of_ne (h : fs.node? place ≠ some .directory) {other : Place} (ho : other ≠ place) {node : Node} :
    (fs.put place (.file content)).find path = .ok (other, node) ↔ fs.find path = .ok (other, node) := by
  rw [find_eq_ok_iff, find_eq_ok_iff, start_put, walk_put h, node?_put_of_ne h ho]

/-- The file that was written is found under its path. -/
theorem find_of_target (h : fs.target path = .ok place) :
    (fs.put place (.file content)).find path = .ok (place, .file content) := by
  obtain ⟨hne, -, hw, hd⟩ := target_eq_ok_iff.mp h
  rw [find_eq_ok_iff, start_put, walk_put hd, node?_put fs (ne_nil_of_not_directory hd), if_pos rfl]
  exact ⟨hne, hw, rfl⟩

/-- A file that was written can be written again. -/
theorem target_put (h : fs.target path = .ok place) : (fs.put place (.file content)).target path = .ok place := by
  obtain ⟨hne, hs, hw, hd⟩ := target_eq_ok_iff.mp h
  rw [target_eq_ok_iff, start_put, walk_put hd]
  exact ⟨hne, hs, hw, fun e => hd ((directory_put hd place).mp e)⟩

theorem put_put (fs : FileSystem) (place : Place) (first second : Node) :
    (fs.put place first).put place second = fs.put place second := by
  simp [put]

/-! ## Names -/

theorem walk_append {first second : List String} :
    fs.walk place (first ++ second) = .ok goal ↔
      ∃ middle, fs.walk place first = .ok middle ∧ fs.walk middle second = .ok goal := by
  induction first generalizing place with
  | nil => simp [walk]
  | cons step first ih =>
    rw [List.cons_append, walk_cons_eq_ok_iff, ih]
    simp only [walk_cons_eq_ok_iff, and_assoc, exists_and_left]

/-- Steps that stay where they are lead nowhere else. -/
theorem walk_of_stays {steps : List String} (h : ∀ s ∈ steps, Path.stays s = true)
    (hw : fs.walk place steps = .ok goal) : goal = place := by
  induction steps generalizing place with
  | nil =>
    cases hw
    rfl
  | cons step steps ih =>
    obtain ⟨-, hw⟩ := walk_cons_eq_ok_iff.mp hw
    rw [advance, if_pos (h step List.mem_cons_self)] at hw
    exact ih (fun s hs => h s (List.mem_cons_of_mem _ hs)) hw

/-- A path with a name leads to that name in a directory. -/
theorem exists_of_name {name : String} (hn : Path.name? path = some name)
    (hw : fs.walk place (Path.steps path) = .ok goal) :
    ∃ directory, fs.node? directory = some .directory ∧ goal = directory ++ [name] := by
  obtain ⟨hup, hl, front, back, hs, hb⟩ := Path.name?_eq_some_iff.mp hn
  rw [hs] at hw
  obtain ⟨directory, -, hw⟩ := walk_append.mp hw
  obtain ⟨hd, hw⟩ := walk_cons_eq_ok_iff.mp hw
  rw [advance, hl, if_neg (by decide), if_neg hup] at hw
  exact ⟨directory, hd, walk_of_stays hb hw⟩

/-! ## Trees -/

/-- What stands anywhere stands in a directory. -/
def IsTree (fs : FileSystem) : Prop :=
  ∀ place node, fs.node? place = some node → fs.node? place.dropLast = some .directory

theorem isTree_of_nodes (h : ∀ entry ∈ fs.nodes, fs.node? entry.1.dropLast = some .directory) : fs.IsTree := by
  intro place node hn
  rw [node?] at hn
  split at hn
  · rename_i hroot
    rw [hroot]
    rfl
  · obtain ⟨before, after, hnodes, -⟩ := List.lookup_eq_some_iff.mp hn
    exact h (place, node) (hnodes ▸ List.mem_append_right _ List.mem_cons_self)

structure Tree extends FileSystem where
  isTree : toFileSystem.IsTree

namespace Tree

instance : Coe Tree FileSystem := ⟨Tree.toFileSystem⟩

variable {fs : Tree}

/-- A path without a name leads to a directory. -/
theorem directory_of_no_name (hn : Path.name? path = none) (hw : fs.walk place (Path.steps path) = .ok goal) :
    fs.node? goal = some .directory := by
  rcases Path.name?_eq_none_iff.mp hn with hall | ⟨front, back, hs, hb⟩
  · cases hs : Path.steps path with
    | nil => exact absurd hs (Path.steps_ne_nil path)
    | cons step steps =>
      obtain rfl := walk_of_stays hall hw
      rw [hs] at hw
      exact (walk_cons_eq_ok_iff.mp hw).1
  · rw [hs] at hw
    obtain ⟨directory, -, hw⟩ := walk_append.mp hw
    obtain ⟨hd, hw⟩ := walk_cons_eq_ok_iff.mp hw
    obtain rfl := walk_of_stays hb hw
    exact fs.isTree directory .directory hd

/-- A file is written under a name in a directory. -/
theorem exists_of_target (ht : fs.target path = .ok place) :
    ∃ name directory, Path.name? path = some name ∧ fs.node? directory = some .directory ∧
      place = directory ++ [name] := by
  obtain ⟨-, -, hw, hd⟩ := target_eq_ok_iff.mp ht
  cases hn : Path.name? path with
  | none => exact absurd (directory_of_no_name hn hw) hd
  | some name =>
    obtain ⟨directory, hdir, hplace⟩ := exists_of_name hn hw
    exact ⟨name, directory, rfl, hdir, hplace⟩

/-- A file that was written keeps a tree a tree. -/
def write (fs : Tree) (ht : fs.target path = .ok place) (content : ByteArray) : Tree where
  toFileSystem := fs.put place (.file content)
  isTree := by
    obtain ⟨-, -, -, hd⟩ := target_eq_ok_iff.mp ht
    obtain ⟨name, directory, -, hdir, hplace⟩ := exists_of_target ht
    intro other node hn
    rw [directory_put hd]
    by_cases ho : other = place
    · rw [ho, hplace, List.dropLast_concat]
      exact hdir
    · rw [node?_put_of_ne hd ho] at hn
      exact fs.isTree other node hn

end Tree

/-! ## Listings -/

/-- What is listed is listed once, under names that can stand in a directory, and so is the
    place where paths start. -/
structure WellFormed (fs : FileSystem) : Prop where
  once : (fs.nodes.map Prod.fst).Nodup
  named : ∀ entry ∈ fs.nodes, ∀ name ∈ entry.1, Path.IsName name
  here : ∀ name ∈ fs.here, Path.IsName name

/-- What is listed stands where it is listed. -/
theorem WellFormed.node?_eq_some_iff (h : fs.WellFormed) (hp : place ≠ []) {node : Node} :
    fs.node? place = some node ↔ (place, node) ∈ fs.nodes := by
  rw [node?, if_neg hp]
  constructor
  · intro hl
    obtain ⟨before, after, hnodes, -⟩ := List.lookup_eq_some_iff.mp hl
    rw [hnodes]
    exact List.mem_append_right _ List.mem_cons_self
  · intro hm
    obtain ⟨before, after, hnodes⟩ := List.append_of_mem hm
    refine List.lookup_eq_some_iff.mpr ⟨before, after, hnodes, fun entry he => ?_⟩
    have honce := h.once
    rw [hnodes, List.map_append, List.map_cons] at honce
    have hne := (List.nodup_append.mp honce).2.2 entry.1 (List.mem_map_of_mem he) place List.mem_cons_self
    exact bne_iff_ne.mpr (Ne.symm hne)

/-- Writing a file under a name keeps a listing a listing. -/
theorem WellFormed.put (h : fs.WellFormed) (hp : ∀ name ∈ place, Path.IsName name) (node : Node) :
    (fs.put place node).WellFormed where
  once := by
    have hnew : place ∉ (fs.nodes.filter fun entry => entry.1 ≠ place).map Prod.fst := by
      intro hm
      obtain ⟨entry, he, rfl⟩ := List.mem_map.mp hm
      simp at he
    exact List.nodup_cons.mpr ⟨hnew, (List.filter_sublist.map Prod.fst).nodup h.once⟩
  named := by
    intro entry he
    rcases List.mem_cons.mp he with rfl | he
    · exact hp
    · exact h.named entry (List.mem_of_mem_filter he)
  here := h.here

/-- File systems where the same stands lead a path to the same. -/
theorem find_congr (hhere : fs'.here = fs.here) (hn : ∀ p, fs'.node? p = fs.node? p) {node : Node} :
    fs'.find path = .ok (place, node) ↔ fs.find path = .ok (place, node) := by
  have hstart : fs'.start path = fs.start path := by rw [start, start, hhere]
  have hwalk : fs'.walk (fs.start path) (Path.steps path) = .ok place ↔ fs.walk (fs.start path) (Path.steps path) = .ok place :=
    walk_congr fun p => by rw [hn p]
  rw [find_eq_ok_iff, find_eq_ok_iff, hstart, hwalk, hn place]

theorem directory?_congr (hhere : fs'.here = fs.here) (hn : ∀ p, fs'.node? p = fs.node? p) (path : String) :
    fs'.directory? path = fs.directory? path := by
  apply Option.ext
  intro place
  rw [directory?_eq_some_iff, directory?_eq_some_iff, find_congr hhere hn]

/-- A step keeps the names that can stand in a directory. -/
theorem named_advance {step : String} (hs : '/' ∉ step.toList) (hp : ∀ name ∈ place, Path.IsName name) :
    ∀ name ∈ advance place step, Path.IsName name := by
  intro name hm
  rw [advance] at hm
  split at hm
  · exact hp name hm
  · rename_i hstays
    split at hm
    · exact hp name (List.dropLast_subset place hm)
    · rename_i hup
      rcases List.mem_append.mp hm with hm | hm
      · exact hp name hm
      · obtain rfl := List.mem_singleton.mp hm
        simp only [Path.stays, Bool.or_eq_true, decide_eq_true_eq, not_or] at hstays
        exact ⟨hs, hstays.1, hstays.2, hup⟩

theorem named_of_walk {steps : List String} (hs : ∀ step ∈ steps, '/' ∉ step.toList)
    (hp : ∀ name ∈ place, Path.IsName name) (hw : fs.walk place steps = .ok goal) : ∀ name ∈ goal, Path.IsName name := by
  induction steps generalizing place with
  | nil =>
    cases hw
    exact hp
  | cons step steps ih =>
    obtain ⟨-, hw⟩ := walk_cons_eq_ok_iff.mp hw
    exact ih (fun s hm => hs s (List.mem_cons_of_mem _ hm)) (named_advance (hs step List.mem_cons_self) hp) hw

theorem WellFormed.named_start (h : fs.WellFormed) (path : String) : ∀ name ∈ fs.start path, Path.IsName name := by
  rw [start]
  split
  · simp
  · exact h.here

/-- A path leads to names that can stand in a directory. -/
theorem WellFormed.named_of_find (h : fs.WellFormed) {node : Node} (hf : fs.find path = .ok (place, node)) :
    ∀ name ∈ place, Path.IsName name :=
  named_of_walk (fun _ => Path.notMem_of_mem_steps) (h.named_start path) (find_eq_ok_iff.mp hf).2.1

/-- A file that is created keeps a listing well-formed. -/
theorem WellFormed.create (h : fs.WellFormed) (hc : fs.create path content = .ok fs') : fs'.WellFormed := by
  cases ht : fs.target path with
  | error fault =>
    rw [create_of_target_error ht] at hc
    cases hc
  | ok place =>
    rw [create_of_target ht] at hc
    obtain rfl := Except.ok.inj hc
    obtain ⟨-, -, hw, -⟩ := target_eq_ok_iff.mp ht
    exact h.put (named_of_walk (fun _ => Path.notMem_of_mem_steps) (h.named_start path) hw) _

theorem WellFormed.addDirectories {steps : List String} (h : fs.WellFormed) (hs : ∀ step ∈ steps, '/' ∉ step.toList)
    (hp : ∀ name ∈ place, Path.IsName name) : (fs.addDirectories place steps).WellFormed := by
  induction steps generalizing fs place with
  | nil => exact h
  | cons step steps ih =>
    have hnext := named_advance (hs step List.mem_cons_self) hp
    rw [FileSystem.addDirectories]
    refine ih ?_ (fun s hm => hs s (List.mem_cons_of_mem _ hm)) hnext
    split
    · exact h
    · exact h.put hnext _

/-- What is set up path by path is well-formed. -/
theorem WellFormed.addDirectory (h : fs.WellFormed) (path : String) : (fs.addDirectory path).WellFormed :=
  h.addDirectories (fun _ => Path.notMem_of_mem_steps) (h.named_start path)

theorem WellFormed.addFile (h : fs.WellFormed) (path : String) (content : ByteArray) :
    (fs.addFile path content).WellFormed := by
  have hbefore : (fs.addDirectories (fs.start path) (Path.steps path).dropLast).WellFormed :=
    h.addDirectories (fun step hm => @Path.notMem_of_mem_steps path step (List.dropLast_subset _ hm)) (h.named_start path)
  rw [FileSystem.addFile]
  split
  · rename_i hc
    exact hbefore.create hc
  · exact hbefore

structure Volume extends FileSystem where
  wellFormed : toFileSystem.WellFormed

namespace Volume

instance : Coe Volume FileSystem := ⟨Volume.toFileSystem⟩

def empty : Volume where
  toFileSystem := {}
  wellFormed := ⟨List.nodup_nil, List.forall_mem_nil _, List.forall_mem_nil _⟩

def addDirectory (fs : Volume) (path : String) : Volume where
  toFileSystem := fs.toFileSystem.addDirectory path
  wellFormed := fs.wellFormed.addDirectory path

def addFile (fs : Volume) (path : String) (content : ByteArray) : Volume where
  toFileSystem := fs.toFileSystem.addFile path content
  wellFormed := fs.wellFormed.addFile path content

/-- The same volume with its listing in another order. -/
def reordered (fs : Volume) (hhere : fs'.here = fs.here) (hp : fs'.nodes.Perm fs.nodes) : Volume where
  toFileSystem := fs'
  wellFormed :=
    { once := (hp.map Prod.fst).nodup_iff.mpr fs.wellFormed.once
      named := fun entry he => fs.wellFormed.named entry (hp.mem_iff.mp he)
      here := hhere ▸ fs.wellFormed.here }

/-- The order of a listing does not matter. -/
theorem node?_perm (fs : Volume) (hhere : fs'.here = fs.here) (hp : fs'.nodes.Perm fs.nodes) (place : Place) :
    fs'.node? place = fs.node? place := by
  by_cases hplace : place = []
  · rw [hplace]
    rfl
  · apply Option.ext
    intro node
    have hlisted : fs'.node? place = some node ↔ (place, node) ∈ fs'.nodes :=
      (fs.reordered hhere hp).wellFormed.node?_eq_some_iff hplace
    rw [hlisted, hp.mem_iff, ← fs.wellFormed.node?_eq_some_iff hplace]

end Volume

/-- The path of a name in a directory leads there. -/
theorem find_join {name : String} {node : Node} (hd : fs.directory? path = some place) (hname : Path.IsName name)
    (hn : fs.node? (place ++ [name]) = some node) : fs.find (Path.join path name) = .ok (place ++ [name], node) := by
  obtain ⟨hne, hw, hdir⟩ := find_eq_ok_iff.mp (directory?_eq_some_iff.mp hd)
  obtain ⟨front, hsteps, hnames⟩ := Path.steps_join_name hne
  have hjoin := hnames name hname.1
  have hfront : fs.walk (fs.start path) front = .ok place := by
    rcases hsteps with hsteps | hsteps
    · rw [← hsteps]
      exact hw
    · rw [hsteps] at hw
      obtain ⟨middle, hmiddle, hlast⟩ := walk_append.mp hw
      obtain rfl := walk_of_stays (by simp [Path.stays]) hlast
      exact hmiddle
  have hlist : path.toList ≠ [] := fun e => hne (String.toList_injective e)
  have hstart : fs.start (Path.join path name) = fs.start path := by
    obtain ⟨c, cs, hc⟩ := List.exists_cons_of_ne_nil hlist
    rw [start, start, Path.isRooted, Path.isRooted, Path.join]
    split <;> simp [hc]
  have hstep : fs.walk place [name] = .ok (place ++ [name]) := by
    rw [walk_cons_eq_ok_iff, advance, hname.stays, if_neg (by decide), if_neg hname.2.2.2]
    exact ⟨hdir, rfl⟩
  refine find_eq_ok_iff.mpr ⟨?_, ?_, hn⟩
  · intro e
    rw [e] at hjoin
    have hstay : name ∈ Path.steps "" := by
      rw [hjoin]
      exact List.mem_append_right _ (List.mem_singleton.mpr rfl)
    rw [show Path.steps "" = [""] from rfl] at hstay
    exact hname.2.1 (List.mem_singleton.mp hstay)
  · rw [hstart, hjoin]
    exact walk_append.mpr ⟨place, hfront, hstep⟩

end FileSystem

end StackToHack
