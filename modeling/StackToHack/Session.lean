/-
  StackToHack.Session — a program in the making, step by step.

  A session has options that stay and a scope that moves. Each step answers with code or
  with an error and leaves the session that goes on. A step that fails leaves the scope
  where it was; a step over several lines leaves it behind the last line that did not
  fail.
  - `Session.run`: the answers to a sequence of steps, failing ones included.
-/

import StackToHack.Fragment
import StackToHack.Source

namespace StackToHack

def defaultEntry : String := "Sys.init"

structure Options where
  /-- The program starts with the set-up of the stack and a call of `entry`. -/
  bootstrap : Bool := true
  /-- Each instruction's text stands as a comment above its code. -/
  annotate : Bool := true
  /-- The procedure that the program starts with. -/
  entry : String := defaultEntry
  deriving DecidableEq, Repr

structure Session where
  options : Options := {}
  scope : Scope := {}
  deriving DecidableEq, Repr

abbrev Reply := Except Error (List Statement)

inductive Step
  | inUnit (name : String)
  | bootstrap
  | line (l : SourceLine)
  | lines (ls : List SourceLine)
  | finish
  deriving DecidableEq, Repr

namespace Session

def inUnit (s : Session) (name : String) : Session :=
  { s with scope := s.scope.inUnit name }

def remark (s : Session) (text : String) : List Statement :=
  if s.options.annotate then [.comment text] else []

def line (s : Session) (l : SourceLine) : Reply × Session :=
  match l.instruction.code s.scope with
  | .ok code => (.ok (s.remark l.text ++ code), { s with scope := l.instruction.after s.scope })
  | .error fault => (.error (.instruction ⟨s.scope.unit, l.line, l.text⟩ fault), s)

/-- The code of all lines, or the error of the first line that fails. -/
def lines (s : Session) : List SourceLine → Reply × Session
  | [] => (.ok [], s)
  | l :: ls => match s.line l with
    | (.error e, s) => (.error e, s)
    | (.ok code, s) => match s.lines ls with
      | (.error e, s) => (.error e, s)
      | (.ok rest, s) => (.ok (code ++ rest), s)

/-- The start of a program: the stack is set up, the entry procedure is called, and the
    machine parks when it returns. -/
def bootstrap (s : Session) : Reply × Session :=
  let entry := s.options.entry
  match Name.procedureFault? entry with
  | some why => (.error (.usage (.invalidEntry entry why)), s)
  | none =>
    (.ok (s.remark "bootstrap" ++ Fragment.setUp ++ Fragment.call s.scope entry 0 ++ Fragment.halt),
      { s with scope := (Instruction.call entry 0).after s.scope })

/-- The end of a program. With a bootstrap the loop to park in stands at the start. -/
def finish (s : Session) : List Statement :=
  if s.options.bootstrap then [] else Fragment.halt

def step (s : Session) : Step → Reply × Session
  | .inUnit name => (.ok [], s.inUnit name)
  | .bootstrap => s.bootstrap
  | .line l => s.line l
  | .lines ls => s.lines ls
  | .finish => (.ok s.finish, s)

def run (s : Session) : List Step → List Reply × Session
  | [] => ([], s)
  | c :: cs =>
    let (reply, s) := s.step c
    let (replies, s) := s.run cs
    (reply :: replies, s)

end Session

end StackToHack
