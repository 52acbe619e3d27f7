/-
  StackToHack.Run — several units put into one program.

  Units are read and translated in order, each one read as a whole before its first line
  is translated. A run records what was written and reported up to its end, whether it
  ends well or with the first error. Statics are kept apart by the names of the units,
  so no two units may share one.
  - `translate`: the run over a list of units.
  - `Run.text`: what was written.
-/

import StackToHack.Session
import StackToHack.Notice

namespace StackToHack

structure Run where
  written : List Statement
  log : List Notice
  outcome : Except Error Summary

/-- The first name that an earlier unit has too. -/
def repeatedName? : List String → List String → Option String
  | _, [] => none
  | seen, name :: rest => if name ∈ seen then some name else repeatedName? (name :: seen) rest

/-- What units gave on the way: code, reports, and the lines that were read, or the error
    that stopped them. -/
structure Progress where
  written : List Statement
  log : List Notice
  outcome : Except Error (List (List SourceLine))

namespace Session

/-- The code of the lines before the first that fails, and the session behind all of them
    or the error. -/
def writeLines (s : Session) : List SourceLine → List Statement × Except Error Session
  | [] => ([], .ok s)
  | l :: ls => match s.line l with
    | (.error e, _) => ([], .error e)
    | (.ok code, s) =>
      let (rest, outcome) := s.writeLines ls
      (code ++ rest, outcome)

def writeUnits (s : Session) : List SourceUnit → Progress
  | [] => ⟨[], [], .ok []⟩
  | u :: us => match u.lines with
    | .error e => ⟨[], [], .error e⟩
    | .ok lines => match (s.inUnit u.name).writeLines lines with
      | (code, .error e) => ⟨code, [], .error e⟩
      | (code, .ok s) =>
        let rest := s.writeUnits us
        ⟨code ++ rest.written, .translated u.name lines.length :: rest.log, rest.outcome.map (lines :: ·)⟩

def start (s : Session) : Reply × Session :=
  if s.options.bootstrap then s.bootstrap else (.ok [], s)

end Session

def defines (procedure : String) (lines : List SourceLine) : Bool :=
  lines.any fun l => match l.instruction with
    | .function name _ => name == procedure
    | _ => false

/-- The warning that the program calls an entry which no unit defines. -/
def entryWarning (options : Options) (read : List (List SourceLine)) : List Notice :=
  if options.bootstrap && !read.any (defines options.entry) then [.entryMissing options.entry] else []

def translate (options : Options) (units : List SourceUnit) : Run :=
  match repeatedName? [] (units.map (·.name)) with
  | some name => ⟨[], [], .error (.usage (.repeatedUnit name))⟩
  | none => match ({ options } : Session).start with
    | (.error e, _) => ⟨[], [], .error e⟩
    | (.ok opening, session) =>
      let progress := session.writeUnits units
      match progress.outcome with
      | .error e => ⟨opening ++ progress.written, progress.log, .error e⟩
      | .ok read =>
        let written := opening ++ progress.written ++ session.finish
        ⟨written, progress.log ++ entryWarning options read,
          .ok ⟨read.length, read.flatten.length, written.length⟩⟩

namespace Run

def text (r : Run) : String :=
  Statement.write r.written

/-- The run if what it writes is refused when it ends: an error that came before the end
    stays the run's error, and nothing arrives. -/
def refused (r : Run) (reason : String) : Run :=
  { r with
    written := []
    outcome := match r.outcome with
      | .error e => .error e
      | .ok _ => .error (.file "output" (.refused reason)) }

end Run

def program (options : Options) (units : List SourceUnit) : Except Error String :=
  let run := translate options units
  run.outcome.map fun _ => run.text

end StackToHack
