/-
  StackToHack.Files.Path — the text of a path.

  A path is kept as it was given. `steps` cuts it at every slash; an empty step and `.`
  stay where they are, `..` goes up. The name of a path is its last step that moves, if
  that is not `..`.
  - `splitName`: a name is its stem and, behind its last dot, its extension. A name whose
    only dot comes first is all stem.
  - `withExtension`: takes the extension off the name, `bare`, and puts another on,
    `extend`.
  - `join`: puts a name behind a directory.
-/

import StackToHack.Text.Line

namespace StackToHack.Path

def steps (path : String) : List String :=
  (path.toList.splitOn '/').map String.ofList

def isRooted (path : String) : Bool :=
  path.toList.head? = some '/'

def stays (step : String) : Bool :=
  step = "" || step = "."

/-- The steps up to the last one that moves. -/
def movingSteps (path : String) : List String :=
  ((steps path).reverse.dropWhile stays).reverse

def endsInSlash (path : String) : Bool :=
  path.toList.getLast? = some '/'

/-- The steps without the empty ones that slashes at the end make. -/
def withoutSlashes (path : String) : List String :=
  ((steps path).reverse.dropWhile (· == "")).reverse

def name? (path : String) : Option String :=
  match (movingSteps path).getLast? with
  | some ".." => none
  | last? => last?

def splitName (name : String) : String × Option String :=
  match Text.cutLast? '.' name.toList with
  | none => (name, none)
  | some ([], _) => (name, none)
  | some (stem, extension) => (String.ofList stem, some (String.ofList extension))

def stem? (path : String) : Option String :=
  (name? path).map fun name => (splitName name).1

def extension? (path : String) : Option String :=
  (name? path).bind fun name => (splitName name).2

/-- The path up to the dot of its extension, if nothing follows the name. -/
def bare (path : String) : String :=
  match (steps path).getLast? with
  | none => path
  | some last => match splitName last with
    | (_, none) => path
    | (stem, some _) => "/".intercalate ((steps path).dropLast ++ [stem ++ "."])

/-- Puts an extension behind the stem of the name, and drops what follows; a path without
    a name stays as it is. -/
def extend (path extension : String) : String :=
  match stem? path with
  | none => path
  | some stem => "/".intercalate ((movingSteps path).dropLast ++ [stem ++ "." ++ extension])

/-- The path with another extension. The old one goes first, and what it leaves of a name
    such as `..x` is the step up, which has no name to extend. -/
def withExtension (path extension : String) : String :=
  extend (bare path) extension

def join (directory name : String) : String :=
  if directory = "" || endsInSlash directory then directory ++ name else directory ++ "/" ++ name

end StackToHack.Path
