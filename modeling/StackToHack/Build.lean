/-
  StackToHack.Build — the program: units from files, their assembly into one file.

  Each path of a command is a unit or a directory of units. Everything is read before
  the output is created, and created before anything is translated, so a failure up to
  there leaves every file as it was.
  - `inputFiles`: the units' paths, a directory's in the order of their names.
  - `outputPath`: the path that is given, or the path of the one input with another
    extension.
  - `build`: the files, the notices and the success of the whole.
-/

import StackToHack.CommandLine
import StackToHack.Run
import StackToHack.Files.FileSystem

namespace StackToHack

/-! ## Inputs -/

def unitExtension : String := "vm"

def assemblyExtension : String := "asm"

def isUnitPath (path : String) : Bool :=
  Path.extension? path == some unitExtension

/-- The names of the plain files in a directory that are units, in order. -/
def unitNames (fs : FileSystem) (directory : Place) : List String :=
  let names := (fs.entries directory).filterMap fun entry =>
    match entry.2 with
    | .file _ => if isUnitPath entry.1 then some entry.1 else none
    | .directory => none
  names.mergeSort fun a b => decide (a ≤ b)

def inputsOf (fs : FileSystem) (path : String) : Except Error (List String) :=
  match fs.directory? path with
  | some directory => match unitNames fs directory with
    | [] => .error (.usage (.noUnitsIn path))
    | names => .ok (names.map (Path.join path))
  | none => if isUnitPath path then .ok [path] else .error (.usage (.notAUnit path))

def inputFiles (fs : FileSystem) : List String → Except Error (List String)
  | [] => .ok []
  | path :: rest => match inputsOf fs path with
    | .error e => .error e
    | .ok files => match inputFiles fs rest with
      | .error e => .error e
      | .ok others => .ok (files ++ others)

/-! ## Output -/

def outputPath (fs : FileSystem) (command : Command) : Except Error String :=
  match command.output?, command.inputs with
  | some path, _ => .ok path
  | none, [path] => match fs.directory? path with
    | none => .ok (Path.withExtension path assemblyExtension)
    | some directory => match directory.getLast? with
      | some name => .ok (Path.withExtension (Path.join path name) assemblyExtension)
      | none => .error (.usage (.noOutputName path))
  | none, _ => .error (.usage .severalInputs)

/-! ## Units -/

/-- The unit of a file: its name is the file's stem. -/
def readUnit (fs : FileSystem) (path : String) : Except Error SourceUnit :=
  match Path.stem? path with
  | none => .error (.usage (.noUnitName path))
  | some name => match fs.read path with
    | .error fault => .error (.file path fault)
    | .ok source => .ok { name, source }

def readUnits (fs : FileSystem) : List String → Except Error (List SourceUnit)
  | [] => .ok []
  | path :: rest => match readUnit fs path with
    | .error e => .error e
    | .ok u => match readUnits fs rest with
      | .error e => .error e
      | .ok us => .ok (u :: us)

/-! ## The whole -/

/-- What a build needs before it writes: its output path and its units. -/
def prepare (fs : FileSystem) (command : Command) : Except Error (String × List SourceUnit) :=
  match inputFiles fs command.inputs with
  | .error e => .error e
  | .ok files => match outputPath fs command with
    | .error e => .error e
    | .ok output => match readUnits fs files with
      | .error e => .error e
      | .ok units => .ok (output, units)

structure Built where
  files : FileSystem
  /-- All notices, also those a quiet command hides. -/
  log : List Notice
  succeeded : Bool

def Built.exitCode (b : Built) : UInt32 :=
  if b.succeeded then 0 else 1

def build (fs : FileSystem) (command : Command) : Built :=
  match prepare fs command with
  | .error e => ⟨fs, [.failed e], false⟩
  | .ok (output, units) =>
    let run := translate command.options units
    match fs.create output run.text.toUTF8 with
    | .error fault => ⟨fs, [.failed (.file output fault)], false⟩
    | .ok files => match run.outcome with
      | .error e => ⟨files, run.log ++ [.failed e], false⟩
      | .ok summary => ⟨files, run.log ++ [.wrote output summary], true⟩

end StackToHack
