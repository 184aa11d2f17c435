import Docroot.Path

/-!
# The tree on a disk

A disk is a tree of directories, regular files, symbolic links and special
files, together with the directory that relative paths start from.

What can be observed of it is `Disk.entryAt?`, the kind of entry at a location
with a file's content or a link's target, and `Disk.names`, the names in a
directory. A link is never followed here: a location that passes through a link
or a file holds nothing. All that a program learns of a disk it learns by these
two functions; the order of `names` is no property of the entries.
-/

namespace Docroot

/-- Bytes are compared as they are stored. -/
instance (priority := high) ByteArray.decidableEq : DecidableEq ByteArray := ByteArray.decEq

/-- The content of a regular file: some data, and a hole behind it that reads as
    zero bytes and takes no room. -/
structure Content where
  /-- The bytes that are stored. -/
  data : ByteArray
  /-- The number of zero bytes behind them. -/
  hole : Nat := 0
  deriving DecidableEq

namespace Content

/-- The length of the file. -/
def size (c : Content) : Nat := c.data.size + c.hole

/-- All bytes of the file. -/
def bytes (c : Content) : ByteArray :=
  if c.hole = 0 then c.data else c.data ++ ⟨Array.replicate c.hole 0⟩

/-- The file as text, if its bytes are UTF-8. -/
def text? (c : Content) : Option String := String.fromUTF8? c.bytes

/-- The content that reads as this text. -/
def ofText (text : String) : Content := ⟨text.toUTF8, 0⟩

end Content

/-- A part of the tree. -/
inductive Node where
  /-- A regular file. -/
  | file (content : Content)
  /-- A directory with its entries. Of several entries under one name only the
      first can be reached. -/
  | directory (entries : List (Name × Node))
  /-- A symbolic link with its target as it was written. -/
  | link (target : Path)
  /-- A pipe, a socket or a device. -/
  | special

/-- What stands at one location, without what is below it. -/
inductive Entry where
  /-- A regular file. -/
  | file (content : Content)
  /-- A directory. -/
  | directory
  /-- A symbolic link with its target as it was written. -/
  | link (target : Path)
  /-- A pipe, a socket or a device. -/
  | special
  deriving DecidableEq

namespace Node

/-- What stands at the top of this part of the tree. -/
def entry : Node → Entry
  | file content => .file content
  | directory _ => .directory
  | link target => .link target
  | special => .special

/-- What a directory holds; nothing for any other node. -/
def entries : Node → List (Name × Node)
  | directory entries => entries
  | _ => []

/-- The part of the tree below a node that some names lead to. A name that no
    disk stores leads nowhere. -/
def find? : Node → Location → Option Node
  | node, [] => some node
  | node, n :: rest =>
    if n.isStorable then (node.entries.lookup n).bind fun child => child.find? rest else none

end Node

/-- A disk, and the directory that relative paths start from. -/
structure Disk where
  /-- The entries of the top directory. -/
  entries : List (Name × Node)
  /-- Where relative paths start. -/
  workingDirectory : Location

namespace Disk

/-- The whole tree. -/
def tree (d : Disk) : Node := .directory d.entries

/-- What stands at a location. -/
def entryAt? (d : Disk) (place : Location) : Option Entry := (d.tree.find? place).map Node.entry

/-- There is a directory at the location. -/
def isDirectory (d : Disk) (place : Location) : Bool := d.entryAt? place = some .directory

/-- The names in the directory at a location, in the order of the disk. -/
def names (d : Disk) (place : Location) : List Name :=
  match d.tree.find? place with
  | some node => ((node.entries.map (·.1)).eraseDups).filter Name.isStorable
  | none => []

end Disk

end Docroot
