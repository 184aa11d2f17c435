import Docroot.Command.Outcome

/-!
# The command line program

A command decides everything from a `Disk`, so the program has only to survey
the part of the real disk that the command is about, run the command on it, and
hand over what it printed. Surveyed are the settings file, everything below the
root, the output file, and the way to each of them, links and their targets
included. Of the files outside the root only the settings file is read; the
others are recorded by their length, which is all that a command can ask for.

The system does not tell the target of a link that leads nowhere. Such a link is
recorded as leading to itself, so nothing is served through it.
-/

namespace Docroot.Main

open Command

/-- An action that records entries of the real disk. -/
abbrev Survey := StateT Disk IO

/-- The names that a path without `..` goes through. -/
def namesOf (p : Path) : Location :=
  p.steps.filterMap fun step =>
    match step with
    | .up => none
    | .name n => some n

/-- The place that all links on the way to a place lead to. -/
def realPlace (place : Location) : IO Location := do
  match ← (IO.FS.realPath place.text).toBaseIO with
  | .ok real => return namesOf ⟨real.toString⟩
  | .error _ => return place

mutual

/-- Records an entry of a directory, and where it leads if it is a link. What
    has been recorded stays. -/
partial def visit (place : Location) (n : Name) : Survey Unit := do
  let next := place ++ [n]
  if ((← get).entryAt? next).isSome then return
  let entry : IO.FS.DirEntry := ⟨place.text, n.text⟩
  let .ok found ← entry.path.symlinkMetadata.toBaseIO | return
  match found.type with
  | .dir => modify fun d => d.put next (.directory [])
  | .file => modify fun d => d.put next (.file ⟨.empty, found.byteSize.toNat⟩)
  | .symlink =>
    let target ← realPlace next
    modify fun d => d.put next (.link target.path)
    discard <| visitAll [] (target.map Step.name)
  | .other => modify fun d => d.put next .special

/-- Records the entries on a way that starts at a place; the place where it
    ends. -/
partial def visitAll (place : Location) : List Step → Survey Location
  | [] => return place
  | .up :: rest => visitAll place.parent rest
  | .name n :: rest => do
    visit place n
    visitAll (← realPlace (place ++ [n])) rest

end

/-- Records the entries on the way that a path describes; the place where it
    ends. -/
def visitPath (p : Path) : Survey Location := do
  let d ← get
  visitAll (if p.isAbsolute then [] else d.workingDirectory) p.steps

/-- Records the bytes of the file at a place, if there is one. -/
def readAt (place : Location) : Survey Unit := do
  if let some (.file _) := (← get).entryAt? place then
    let bytes ← IO.FS.readBinFile place.text
    modify fun d => d.put place (.file ⟨bytes, 0⟩)

/-- Records all that is below a directory. -/
partial def explore (place : Location) : Survey Unit := do
  let .ok entries ← (do (← IO.FS.realPath place.text).readDir).toBaseIO | return
  for entry in entries do
    if let some n := Name.ofText? entry.fileName then
      visit place n
      let next := place ++ [n]
      if (← get).isDirectory next then explore next else readAt next

/-- Records the part of the disk that a command is about. -/
def survey (invocation : Invocation) : Survey Unit := do
  discard <| visitPath (← get).workingDirectory.path
  readAt (← visitPath (invocation.file?.getD Settings.standardFile))
  if let .ok settings := Settings.load (← get) invocation.file? invocation.overrides then
    explore (← visitPath settings.site.root)
  if let .render _ (some file) := invocation.action then discard <| visitPath file

/-- The disk that a command is run on. -/
def surveyed (line : Line) : IO Disk := do
  let start : Disk := ⟨[], namesOf ⟨(← IO.currentDir).toString⟩⟩
  match line with
  | .run invocation => return (← (survey invocation).run start).2
  | _ => return start

/-- Writes the file that a command has written on its disk. -/
def store (line : Line) (outcome : Outcome) : IO Unit := do
  if let .run ⟨_, _, .render _ (some file)⟩ := line then
    if let (0, .ok text) := (outcome.exitCode, outcome.disk.readText file) then
      IO.FS.writeFile file.text text

end Docroot.Main

/-- Runs the command that the words of the command line give. -/
def main (words : List String) : IO UInt32 := do
  let line := Docroot.Command.Line.ofWords words
  let outcome := Docroot.Command.run (← Docroot.Main.surveyed line) words
  Docroot.Main.store line outcome
  IO.print outcome.output
  IO.eprint outcome.errors
  return outcome.exitCode.toUInt32
