import Docroot.Disk.Tree

/-!
# Looking up paths

How the system finds what a path names. A lookup goes through the components of
the path from left to right. At each it must stand in a directory; a name must
not be too long and must be there; a link is replaced by its target, and at most
40 links are followed. The first component that fails decides the fault.

Three lookups differ only at the edges (`Lookup`):

* `status` follows a link at the end too, `linkStatus` does not;
* `canonical` follows it, and limits the length of every place on the way rather
  than that of the path.

A path that ends in a slash names a directory, as if it ended in `/.`.
-/

namespace Docroot

/-- What can go wrong when the system is asked for a file. -/
inductive Fault where
  /-- There is no such entry. -/
  | notFound
  /-- The path goes on behind something that is no directory. -/
  | notDirectory
  /-- A directory was to be read or written as a file. -/
  | isDirectory
  /-- A name or a path is too long. -/
  | nameTooLong
  /-- Too many links were to be followed. -/
  | tooManyLinks
  /-- A special file was to be read or written. -/
  | noDevice
  /-- The path contains a NUL character. -/
  | nulByte
  /-- The file was to be read as text and is none. -/
  | notUtf8
  deriving DecidableEq

/-- The sentence that tells what went wrong. -/
def Fault.message : Fault → String
  | notFound => "No such file or directory (os error 2)"
  | notDirectory => "Not a directory (os error 20)"
  | isDirectory => "Is a directory (os error 21)"
  | nameTooLong => "File name too long (os error 36)"
  | tooManyLinks => "Too many levels of symbolic links (os error 40)"
  | noDevice => "No such device or address (os error 6)"
  | nulByte => "file name contained an unexpected NUL byte"
  | notUtf8 => "stream did not contain valid UTF-8"

/-- Paths of this many bytes and more are too long. -/
def maxPathBytes : Nat := 4096

/-- The links that one lookup follows. -/
def maxLinks : Nat := 40

/-- How a lookup treats the end of a path and its length. -/
structure Lookup where
  /-- A link at the very end is followed. -/
  followsLast : Bool
  /-- The places on the way are limited in length, and not the path itself. -/
  limitsPlaces : Bool
  /-- An entry that is missing at the very end is taken as found. -/
  createsLast : Bool := false

namespace Lookup

/-- The lookup that tells what a path leads to. -/
def status : Lookup := ⟨true, false, false⟩

/-- The lookup that tells what a path names, a link included. -/
def linkStatus : Lookup := ⟨false, false, false⟩

/-- The lookup of the path without links that leads to the same place. -/
def canonical : Lookup := ⟨true, true, false⟩

/-- The lookup of the place where a file is to be written. -/
def creation : Lookup := ⟨true, false, true⟩

/-- The lookup may pass this place. -/
def admits (rule : Lookup) (place : Location) : Bool :=
  !rule.limitsPlaces || place.bytes < maxPathBytes

/-- A path of this many bytes may be looked up. -/
def admitsBytes (rule : Lookup) (bytes : Nat) : Bool :=
  rule.limitsPlaces || bytes < maxPathBytes

/-- A link with this much of the path left is followed. -/
def follows (rule : Lookup) (rest : List Component) : Bool :=
  rule.followsLast || !rest.isEmpty

/-- A missing entry with this much of the path left is taken as found. -/
def creates (rule : Lookup) (rest : List Component) : Bool :=
  rule.createsLast && rest.isEmpty

end Lookup

namespace Path

/-- The path contains a NUL character, which no call to the system can pass. -/
def hasNul (p : Path) : Bool := p.text.toList.contains '\x00'

end Path

namespace Disk

variable (d : Disk)

/-- Goes through components from a place until the first link that is to be
    followed; what happens there is `onLink`, given where the link is, its
    target, and what is left of the path. -/
def traverse (rule : Lookup)
    (onLink : Location → Path → List Component → Except Fault Location) :
    Location → List Component → Except Fault Location
  | place, [] => .ok place
  | _, .root :: rest => traverse rule onLink [] rest
  | place, .here :: rest =>
    if d.isDirectory place then traverse rule onLink place rest else .error .notDirectory
  | place, .step .up :: rest =>
    if d.isDirectory place then traverse rule onLink place.parent rest else .error .notDirectory
  | place, .step (.name n) :: rest =>
    if !d.isDirectory place then .error .notDirectory
    else if Name.maxBytes < n.bytes then .error .nameTooLong
    else
      let next := place ++ [n]
      if !rule.admits next then .error .nameTooLong
      else match d.entryAt? next with
        | none => if rule.creates rest then .ok next else .error .notFound
        | some (.link target) =>
          if rule.follows rest then onLink next target rest else .ok next
        | some _ => traverse rule onLink next rest

/-- Goes through components from a place, following at most so many links. -/
def follow (rule : Lookup) : Nat → Location → List Component → Except Fault Location
  | 0 => d.traverse rule fun _ _ _ => .error .tooManyLinks
  | links + 1 => d.traverse rule fun place target rest =>
      follow rule links place.parent (target.route ++ rest)

/-- The place that a path leads to. -/
def lookup (rule : Lookup) (p : Path) : Except Fault Location :=
  if p.hasNul then .error .nulByte
  else if p.text.isEmpty then .error .notFound
  else if !rule.admitsBytes p.text.utf8ByteSize then .error .nameTooLong
  else d.follow rule maxLinks d.workingDirectory p.route

/-- The place that the absolute path of a location leads to. -/
def lookupAt (rule : Lookup) (place : Location) : Except Fault Location :=
  if !rule.admitsBytes place.bytes then
    .error (if place.any Name.hasNul then .nulByte else .nameTooLong)
  else if place.any Name.hasNul then .error .nulByte
  else d.follow rule maxLinks [] (place.map fun n => .step (.name n))

/-- The location without links that a path leads to. -/
def canonicalize (p : Path) : Except Fault Location := d.lookup .canonical p

/-- The location without links that the path of a location leads to. -/
def canonicalizeAt (place : Location) : Except Fault Location := d.lookupAt .canonical place

/-- What stands where a lookup ended. -/
def found (place : Location) : Except Fault Entry :=
  match d.entryAt? place with
  | some entry => .ok entry
  | none => .error .notFound

/-- What a path leads to. -/
def status (p : Path) : Except Fault Entry := d.lookup .status p >>= d.found

/-- What the path of a location leads to. -/
def statusAt (place : Location) : Except Fault Entry := d.lookupAt .status place >>= d.found

/-- The target of the link at a location, if there is one. -/
def linkTarget? (place : Location) : Option Path :=
  match d.lookupAt .linkStatus place >>= d.found with
  | .ok (.link target) => some target
  | _ => none

/-- The path leads to something. -/
def exists? (p : Path) : Bool := (d.status p).toBool

/-- The path leads to a directory. -/
def leadsToDirectory (p : Path) : Bool :=
  match d.status p with
  | .ok .directory => true
  | _ => false

end Disk

/-- The bytes of what was found, if it is a regular file. -/
def Entry.read : Entry → Except Fault Content
  | file content => .ok content
  | directory => .error .isDirectory
  | link _ => .error .tooManyLinks
  | special => .error .noDevice

/-- The text of what was found, if it is a regular file and UTF-8. -/
def Entry.readText (entry : Entry) : Except Fault String :=
  entry.read >>= fun content =>
    match content.text? with
    | some text => .ok text
    | none => .error .notUtf8

namespace Disk

/-- The text of the file that a path leads to. -/
def readText (d : Disk) (p : Path) : Except Fault String := d.status p >>= Entry.readText

end Disk

end Docroot
