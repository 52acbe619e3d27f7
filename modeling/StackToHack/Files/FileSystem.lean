/-
  StackToHack.Files.FileSystem — directories and plain files, without links.

  A place is the list of names that lead to it from the root. A file system lists what
  stands at each place, and knows the place where paths that are not rooted start.
  A path is followed step by step, so what is passed on the way has to be a directory,
  also by a step that stays where it is.
  - `node?` is the view: what stands at a place. `create` changes it at one place only,
    `node?_put`.
  - `find`, `read` and `create` fail with the first fault met on the way.
-/

import StackToHack.Files.Path
import StackToHack.Error

namespace StackToHack

abbrev Place := List String

-- Contents are compared in one way, whatever other instances are in scope.
instance (priority := high) decEqContent : DecidableEq ByteArray := ByteArray.instDecidableEq

inductive Node
  | directory
  | file (content : ByteArray)
  deriving DecidableEq

structure FileSystem where
  /-- Where paths that are not rooted start. -/
  here : Place := []
  nodes : List (Place × Node) := []

namespace FileSystem

/-! ## Places -/

/-- What stands at a place; the root is a directory. -/
def node? (fs : FileSystem) (place : Place) : Option Node :=
  if place = [] then some .directory else fs.nodes.lookup place

def put (fs : FileSystem) (place : Place) (node : Node) : FileSystem :=
  { fs with nodes := (place, node) :: fs.nodes.filter fun entry => entry.1 ≠ place }

theorem lookup_filter_ne {place other : Place} (h : other ≠ place) (nodes : List (Place × Node)) :
    (nodes.filter fun entry => entry.1 ≠ place).lookup other = nodes.lookup other := by
  induction nodes with
  | nil => rfl
  | cons entry nodes ih =>
    obtain ⟨first, node⟩ := entry
    by_cases ha : first = place
    · subst ha
      have : (other == first) = false := by simpa using h
      simp only [ne_eq, not_true_eq_false, decide_false, Bool.false_eq_true, not_false_eq_true, List.filter_cons_of_neg,
        List.lookup_cons, this]
      exact ih
    · rw [List.filter_cons_of_pos (by simpa using ha), List.lookup_cons, List.lookup_cons, ih]

/-- Only the place that is written changes. -/
theorem node?_put (fs : FileSystem) {place : Place} (h : place ≠ []) (node : Node) (other : Place) :
    (fs.put place node).node? other = if other = place then some node else fs.node? other := by
  by_cases ho : other = place
  · subst ho
    simp [node?, put, h]
  · have : (other == place) = false := by simpa using ho
    simp only [node?, put, List.lookup_cons, this, ho, if_false, lookup_filter_ne ho]

def entries (fs : FileSystem) (directory : Place) : List (String × Node) :=
  fs.nodes.filterMap fun entry =>
    match entry.1.getLast? with
    | some name => if entry.1.dropLast = directory then some (name, entry.2) else none
    | none => none

/-! ## Paths -/

def advance (place : Place) (step : String) : Place :=
  if Path.stays step then place else if step = ".." then place.dropLast else place ++ [step]

def start (fs : FileSystem) (path : String) : Place :=
  if Path.isRooted path then [] else fs.here

/-- Follows steps, each of which leaves a directory. -/
def walk (fs : FileSystem) (place : Place) : List String → Except FileFault Place
  | [] => .ok place
  | step :: rest => match fs.node? place with
    | none => .error .notFound
    | some (.file _) => .error .notADirectory
    | some .directory => fs.walk (advance place step) rest

def find (fs : FileSystem) (path : String) : Except FileFault (Place × Node) :=
  if path = "" then .error .notFound
  else match fs.walk (fs.start path) (Path.steps path) with
    | .error fault => .error fault
    | .ok place => match fs.node? place with
      | none => .error .notFound
      | some node => .ok (place, node)

def directory? (fs : FileSystem) (path : String) : Option Place :=
  match fs.find path with
  | .ok (place, .directory) => some place
  | _ => none

/-! ## Files -/

def read (fs : FileSystem) (path : String) : Except FileFault String :=
  match fs.find path with
  | .error fault => .error fault
  | .ok (_, .directory) => .error .isADirectory
  | .ok (_, .file content) => match String.fromUTF8? content with
    | some text => .ok text
    | none => .error .notText

/-- Where a file can be written: under a name that no directory has, in a directory that
    stands. A path that ends in a slash leads to a directory at best. -/
def target (fs : FileSystem) (path : String) : Except FileFault Place :=
  if path = "" then .error .notFound
  else match fs.walk (fs.start path) (Path.withoutSlashes path) with
    | .error fault => .error fault
    | .ok place =>
      if Path.endsInSlash path || fs.node? place = some .directory then .error .isADirectory else .ok place

def create (fs : FileSystem) (path : String) (content : ByteArray) : Except FileFault FileSystem :=
  (fs.target path).map fun place => fs.put place (.file content)

/-! ## Setting up -/

/-- Puts a directory wherever the steps lead and nothing stands. -/
def addDirectories (fs : FileSystem) (place : Place) : List String → FileSystem
  | [] => fs
  | step :: rest =>
    let next := advance place step
    let fs := if (fs.node? next).isSome then fs else fs.put next .directory
    fs.addDirectories next rest

def addDirectory (fs : FileSystem) (path : String) : FileSystem :=
  fs.addDirectories (fs.start path) (Path.steps path)

/-- Puts a file at a path, and the directories on the way to it. -/
def addFile (fs : FileSystem) (path : String) (content : ByteArray) : FileSystem :=
  let fs := fs.addDirectories (fs.start path) (Path.steps path).dropLast
  match fs.create path content with
  | .ok fs => fs
  | .error _ => fs

/-- The files below a place, each under the path that leads there from it. -/
def filesBelow (fs : FileSystem) (place : Place) : List (String × ByteArray) :=
  fs.nodes.filterMap fun entry =>
    match entry.2 with
    | .file content => (place.isPrefixOf? entry.1).map fun rest => ("/".intercalate rest, content)
    | .directory => none

end FileSystem

end StackToHack
