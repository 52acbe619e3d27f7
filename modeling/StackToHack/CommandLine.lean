/-
  StackToHack.CommandLine — what the arguments of the program ask for.

  Arguments are read from left to right and the first problem stops the reading. A value
  or a path that stands as an argument of its own is taken at once but judged later: when
  the next option that is known, a path, or the end settles it. An option that is not
  known, and a value behind a flag, are refused without settling what waits.
  - `parse`: the command that the arguments give, or why there is none.
-/

import StackToHack.Session

namespace StackToHack

structure Command where
  inputs : List String
  output? : Option String
  options : Options
  quiet : Bool
  deriving DecidableEq, Repr

namespace CommandLine

/-! ## Options -/

inductive Flag
  | noBootstrap
  | noComments
  | quiet
  | help
  | version
  deriving DecidableEq, Repr

inductive Setting
  | output
  | entry
  deriving DecidableEq, Repr

inductive Switch
  | flag (f : Flag)
  | setting (s : Setting)
  deriving DecidableEq, Repr

def ofLong? (name : List Char) : Option Switch :=
  match String.ofList name with
  | "no-bootstrap" => some (.flag .noBootstrap)
  | "no-comments" => some (.flag .noComments)
  | "quiet" => some (.flag .quiet)
  | "help" => some (.flag .help)
  | "version" => some (.flag .version)
  | "output" => some (.setting .output)
  | "entry" => some (.setting .entry)
  | _ => none

def ofShort? : Char → Option Switch
  | 'q' => some (.flag .quiet)
  | 'h' => some (.flag .help)
  | 'V' => some (.flag .version)
  | 'o' => some (.setting .output)
  | _ => none

/-! ## Answers without a command -/

inductive Refusal
  | missingPath
  | unknownOption
  | invalidValue
  | repeatedOption
  | unexpectedValue
  deriving DecidableEq, Repr

/-- Why there is no command: the arguments are refused, or ask for something else. -/
inductive Stop
  | refused (why : Refusal)
  | help
  | version
  deriving DecidableEq, Repr

def Refusal.message : Refusal → String
  | missingPath => "no path is given"
  | unknownOption => "an option is not known"
  | invalidValue => "a value is missing or empty"
  | repeatedOption => "an option is given twice"
  | unexpectedValue => "an option that takes no value is given one"

def versionLine : String := "vm-translator 0.2.0\n"

def helpText : String :=
  "Translates stack VM code into Hack assembly.\n\n" ++
    "Usage: vm-translator [OPTIONS] <PATH>...\n\n" ++
    "Each PATH is a .vm file, or a directory whose .vm files are taken in the order of their names.\n\n" ++
    "  -o, --output <FILE>  write the assembly to FILE\n" ++
    "      --no-bootstrap   end the program with a halt loop, without a call of the entry\n" ++
    "      --no-comments    write no comments\n" ++
    "      --entry <NAME>   the procedure to start with, " ++ defaultEntry ++ " unless given\n" ++
    "  -q, --quiet          report errors only\n" ++
    "  -h, --help           show this help\n" ++
    "  -V, --version        show the version\n"

/-! ## Reading -/

inductive Waiting
  | nothing
  | paths (given : List String)
  | value (s : Setting) (given? : Option String)
  deriving DecidableEq, Repr

structure Reading where
  inputs : List String := []
  output? : Option String := none
  entry? : Option String := none
  flags : List Flag := []
  waiting : Waiting := .nothing
  deriving DecidableEq, Repr

namespace Reading

/-- Sets an option once. Only the output has to be a text that is not empty. -/
def set (r : Reading) (value : String) : Setting → Except Stop Reading
  | .output =>
    if r.output?.isSome then .error (.refused .repeatedOption)
    else if value = "" then .error (.refused .invalidValue)
    else .ok { r with output? := some value }
  | .entry =>
    if r.entry?.isSome then .error (.refused .repeatedOption) else .ok { r with entry? := some value }

def settle (r : Reading) : Except Stop Reading :=
  let settled := { r with waiting := .nothing }
  match r.waiting with
  | .nothing => .ok settled
  | .paths given =>
    if "" ∈ given then .error (.refused .invalidValue) else .ok { settled with inputs := r.inputs ++ given }
  | .value _ none => .error (.refused .invalidValue)
  | .value s (some value) => settled.set value s

/-- Raises a flag once; a flag that asks for something else stops the reading. -/
def raise (r : Reading) (f : Flag) : Except Stop Reading := do
  let r ← r.settle
  match f with
  | .help => .error .help
  | .version => .error .version
  | f => if f ∈ r.flags then .error (.refused .repeatedOption) else .ok { r with flags := f :: r.flags }

/-- An option whose value, if it has none yet, is the next argument. -/
def choose (r : Reading) (s : Setting) (value? : Option (List Char)) : Except Stop Reading := do
  let r ← r.settle
  match value? with
  | some value => r.set (String.ofList value) s
  | none => .ok { r with waiting := .value s none }

def long (r : Reading) (text : List Char) : Except Stop Reading :=
  let name := text.takeWhile (· ≠ '=')
  let value? := (text.dropWhile (· ≠ '=')).tail?
  match ofLong? name with
  | none => .error (.refused .unknownOption)
  | some (.setting s) => r.choose s value?
  | some (.flag f) => if value?.isSome then .error (.refused .unexpectedValue) else r.raise f

/-- Options by their letters. What follows the letter of an option with a value is the
    value, without one leading `=`. -/
def short (r : Reading) : List Char → Except Stop Reading
  | [] => .ok r
  | letter :: rest => match ofShort? letter with
    | none => .error (.refused .unknownOption)
    | some (.flag f) => do (← r.raise f).short rest
    | some (.setting s) => r.choose s (match rest with
      | [] => none
      | '=' :: value => some value
      | value => some value)

def path (r : Reading) (text : String) : Except Stop Reading :=
  match r.waiting with
  | .paths given => .ok { r with waiting := .paths (given ++ [text]) }
  | _ => do return { ← r.settle with waiting := .paths [text] }

/-- The value of the option that waits for one, or a path. -/
def plain (r : Reading) (text : String) : Except Stop Reading :=
  match r.waiting with
  | .value s none => .ok { r with waiting := .value s (some text) }
  | _ => r.path text

def argument (r : Reading) (text : String) : Except Stop Reading :=
  match text.toList with
  | '-' :: '-' :: name => r.long name
  | '-' :: letter :: letters => r.short (letter :: letters)
  | _ => r.plain text

/-- All arguments; behind `--` there are only paths. -/
def arguments (r : Reading) : List String → Except Stop Reading
  | [] => .ok r
  | text :: rest =>
    if text = "--" then rest.foldlM path r
    else do (← r.argument text).arguments rest

def command (r : Reading) : Except Stop Command :=
  if r.inputs.isEmpty then .error (.refused .missingPath)
  else .ok
    { inputs := r.inputs
      output? := r.output?
      options :=
        { bootstrap := .noBootstrap ∉ r.flags
          annotate := .noComments ∉ r.flags
          entry := r.entry?.getD defaultEntry }
      quiet := .quiet ∈ r.flags }

end Reading

def parse (arguments : List String) : Except Stop Command := do
  (← (← Reading.arguments {} arguments).settle).command

end CommandLine

end StackToHack
