import Docroot.Disk.Lookup

/-!
# Changing a disk

Entries are put, removed and moved by location, and a text is written to a path
as a program would write it, in two steps that a fault can come between
(`Disk.Change`). First the file is opened, with links followed, also one whose
target is missing: a regular file loses its old content, and where nothing is an
empty file is made. Anything else cannot be opened. Then the file is filled. There
is room on the disk for every text, and the disk does not break.
-/

namespace Docroot

namespace Node

/-- The entries with a node under a name, in the place of the one that was
    there, or behind all others. -/
def putEntry (entries : List (Name × Node)) (n : Name) (node : Node) : List (Name × Node) :=
  if (entries.lookup n).isSome then
    entries.map fun entry => if entry.1 = n then (n, node) else entry
  else entries ++ [(n, node)]

/-- The tree with a node at a location. Directories that are missing on the way
    are made. -/
def put (new : Node) : Location → Node → Node
  | [], _ => new
  | n :: rest, node =>
    let below := (node.entries.lookup n).getD (.directory [])
    .directory (putEntry node.entries n (put new rest below))

/-- The tree without what is at a location. -/
def remove : Location → Node → Node
  | [], node => node
  | [n], node => .directory (node.entries.filter fun entry => entry.1 ≠ n)
  | n :: rest, node =>
    match node.entries.lookup n with
    | some below => .directory (putEntry node.entries n (remove rest below))
    | none => node

end Node

namespace Disk

variable (d : Disk)

/-- The disk with a node at a location. -/
def put (place : Location) (new : Node) : Disk :=
  { d with entries := (Node.put new place d.tree).entries }

/-- The disk with a directory at a location; one that is there stays. -/
def makeDirectory (place : Location) : Disk :=
  if d.isDirectory place then d else d.put place (.directory [])

/-- The disk without what is at a location. -/
def remove (place : Location) : Disk :=
  { d with entries := (Node.remove place d.tree).entries }

/-- The disk with what was at one location moved to another. -/
def move (source target : Location) : Disk :=
  match d.tree.find? source with
  | some node => (d.remove source).put target node
  | none => d

/-- The place where a file written to the path will be. A path that ends in a
    slash can only be a directory, which is found out once its parent is. -/
def writtenPlace (p : Path) : Except Fault Location :=
  if p.text.toList.getLast? == some '/' && !p.hasNul && p.text.utf8ByteSize < maxPathBytes then
    let parent := (p.route.dropLast).dropLast ++ [.here]
    d.follow .status maxLinks d.workingDirectory parent >>= fun _ => .error .isDirectory
  else d.lookup .creation p

/-- The place of the file that a path leads to, if it can be opened to be written
    or made. No file can be made under a name with a NUL in it, whatever led to the
    name. -/
def openPlace (p : Path) : Except Fault Location :=
  d.writtenPlace p >>= fun place =>
    if place.any Name.hasNul then .error .nulByte
    else match d.entryAt? place with
      | some .directory => .error .isDirectory
      | some .special => .error .noDevice
      | some (.link _) => .error .tooManyLinks
      | some (.file _) | none => .ok place

/-- Something that is done to a disk. A fault does not undo what was done before
    it. -/
abbrev Change (α : Type) := EStateM Fault Disk α

/-- Opens the file that a path leads to: it is empty from then on. -/
def create (p : Path) : Change Location := fun d =>
  match d.openPlace p with
  | .ok place => .ok place (d.put place (.file (.ofText "")))
  | .error fault => .error fault d

/-- Gives a text to a file that was opened. -/
def fill (place : Location) (text : String) : Change Unit :=
  modify fun d => d.put place (.file (.ofText text))

/-- Writes a text to the file that a path leads to. -/
def write (p : Path) (text : String) : Change Unit := do
  fill (← create p) text

end Disk

end Docroot
