/-
  StackToHack.Main — the program at a terminal.

  What a command can reach is taken into a `FileSystem`, the build is done on it, and
  the file that the build changed is written back. Everything else is decided by
  `CommandLine.parse` and `build`.
-/

import StackToHack.Build

namespace StackToHack.Terminal

/-- What stands at a path, with its bytes if they are wanted. -/
def look (path : String) (wanted : Bool) : IO (Option Node) := do
  let path := System.mkFilePath [path]
  if ← path.isDir then return some .directory
  if ← path.pathExists then
    if wanted then return some (.file (← IO.FS.readBinFile path)) else return some (.file .empty)
  return none

def takeIn (fs : FileSystem) (place : Place) (path : String) (wanted : Bool) : IO FileSystem := do
  if place = [] || (!wanted && (fs.node? place).isSome) then return fs
  match ← look path wanted with
  | some node => return fs.put place node
  | none => return fs

/-- Takes in what stands along the steps of a path. -/
def takeAlong (fs : FileSystem) (place : Place) (passed : List String) : List String → IO FileSystem
  | [] => return fs
  | step :: rest => do
    let passed := passed ++ [step]
    let next := FileSystem.advance place step
    let path := if passed = [""] then "/" else "/".intercalate passed
    let fs ← takeIn fs next path rest.isEmpty
    takeAlong fs next passed rest

def takePath (fs : FileSystem) (path : String) : IO FileSystem := do
  let fs ← takeAlong fs (fs.start path) [] (Path.steps path)
  match fs.directory? path with
  | none => return fs
  | some place =>
    let mut fs := fs
    for entry in ← (System.mkFilePath [path]).readDir do
      fs ← takeIn fs (place ++ [entry.fileName]) (Path.join path entry.fileName) (isUnitPath entry.fileName)
    return fs

def survey (command : Command) : IO FileSystem := do
  let here := (Path.steps (← IO.currentDir).toString).filter (!Path.stays ·)
  let bare : FileSystem := { here }
  let mut fs := bare.addDirectories [] here
  for path in command.inputs ++ command.output?.toList do
    fs ← takePath fs path
  match outputPath fs command with
  | .ok path => takePath fs path
  | .error _ => return fs

def keep (before after : FileSystem) : IO Unit := do
  let old := before.filesBelow []
  for (path, content) in after.filesBelow [] do
    if old.lookup path ≠ some content then
      IO.FS.writeBinFile ("/" ++ path) content

def report (text : String) : IO Unit := do
  (← IO.getStderr).putStr text

def execute (command : Command) : IO UInt32 := do
  let before ← survey command
  let built := build before command
  keep before built.files
  report (Notice.write command.quiet built.log)
  return built.exitCode

end StackToHack.Terminal

open StackToHack in
def main (arguments : List String) : IO UInt32 := do
  match CommandLine.parse arguments with
  | .ok command => Terminal.execute command
  | .error .help => do
    IO.print CommandLine.helpText
    return 0
  | .error .version => do
    IO.print CommandLine.versionLine
    return 0
  | .error (.refused why) => do
    Terminal.report ("error: " ++ why.message ++ "\n")
    return 2
