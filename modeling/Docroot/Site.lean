import Docroot.Walk
import Docroot.Text.Quoted

/-!
# Resolving requests

A `Site` is a root directory to serve from, the name of the index document, and
the extensions of the files that are text. `Site.resolve` finds the file that a
request stands for:

* the empty request stands for the index document, a directory for the index
  document inside it;
* a place that is not at or below the root is denied, whatever is there;
* only regular files are given out, text with its content, others with their
  size.

Nothing is remembered between two requests.
-/

namespace Docroot

/-- What is served, and how. -/
structure Site where
  /-- The directory that is served, as it was configured. -/
  root : Path
  /-- The document that stands for a directory. -/
  index : String
  /-- The extensions of text files, in any case and with or without dots in
      front. -/
  textExtensions : List String

/-- A file that a request stands for, at a place without links in the root. -/
inductive Asset where
  /-- A text file and its text. -/
  | text (place : Location) (content : String)
  /-- Any other file and its size in bytes. -/
  | binary (place : Location) (size : Nat)
  deriving DecidableEq

/-- Where the file is. -/
def Asset.place : Asset → Location
  | text place _ => place
  | binary place _ => place

/-- Why a request stands for no file. -/
inductive Failure where
  /-- It leads out of the root, or might. -/
  | accessDenied (request : String)
  /-- There is no regular file where it leads. -/
  | notFound (request : String)
  /-- The root, or a file in it, cannot be read. -/
  | unreadable (path : String) (fault : Fault)
  deriving DecidableEq

namespace Failure

/-- The three kinds of failure. -/
inductive Kind where
  /-- Something outside the root was asked for. -/
  | accessDenied
  /-- Something missing was asked for. -/
  | notFound
  /-- Something could not be read. -/
  | unreadable
  deriving DecidableEq

/-- The kind of a failure, without what was asked for. -/
def kind : Failure → Kind
  | accessDenied _ => .accessDenied
  | notFound _ => .notFound
  | unreadable _ _ => .unreadable

/-- What whoever made the request is told; it names no path. -/
def Kind.message : Kind → String
  | accessDenied => "Access denied"
  | notFound => "File not found"
  | unreadable => "Failed to read file"

/-- What whoever runs the site is told. -/
def message : Failure → String
  | accessDenied request =>
    "access denied: " ++ Text.quoted request ++ " resolves outside the static root"
  | notFound request => "not found: " ++ Text.quoted request
  | unreadable path fault => "failed to read " ++ Text.quoted path ++ ": " ++ fault.message

end Failure

namespace Site

/-- The directory that is served unless another is configured. -/
def defaultRoot : String := "dist"

/-- The document that stands for a directory unless another is configured. -/
def defaultIndex : String := "index.html"

/-- The extensions of text files unless others are configured. -/
def defaultTextExtensions : List String :=
  ["html", "htm", "css", "js", "mjs", "cjs", "json", "map", "txt", "xml", "svg", "webmanifest"]

/-- An extension as it is compared: without dots in front, ASCII letters small. -/
def normalizeExtension (extension : String) : String :=
  String.ofList (Text.lowerAscii (extension.toList.dropWhile (· == '.')))

variable (site : Site)

/-- Files with this extension are text. The empty extension is never one of
    them. -/
def hasTextExtension (extension : String) : Bool :=
  let normal := normalizeExtension extension
  !normal.isEmpty && site.textExtensions.any fun known => normalizeExtension known == normal

/-- Files under this name are text. -/
def isText (name? : Option Name) : Bool :=
  (name?.bind Name.extension?).any site.hasTextExtension

variable (d : Disk)

/-- The place of the root on a disk. -/
def home : Except Fault Location := d.canonicalize site.root

/-- What is at the end of a walk, if that is in the root. -/
def inspect (root : Location) (request : String) (walked : Except Refusal Location) :
    Except Failure (Location × Entry) :=
  match walked with
  | .error _ => .error (.accessDenied request)
  | .ok place =>
    if !root.isWithin place then .error (.accessDenied request)
    else match d.statusAt place with
      | .ok entry => .ok (place, entry)
      | .error .notFound => .error (.notFound request)
      | .error .notDirectory => .error (.notFound request)
      | .error fault => .error (.unreadable place.text fault)

/-- The walk to the index document from a directory. -/
def walkToIndex (directory : Location) : Except Refusal Location :=
  d.walkPath directory ⟨site.index⟩

/-- The walk that some moves from the root stand for; no moves stand for the
    index document. -/
def walkTo (root : Location) (steps : List Step) : Except Refusal Location :=
  if steps.isEmpty then site.walkToIndex d root else d.walkFrom root steps

/-- What a request leads to, the index document in place of a directory. -/
def locate (root : Location) (request : String) (steps : List Step) :
    Except Failure (Location × Entry) :=
  inspect d root request (site.walkTo d root steps) >>= fun (place, entry) =>
    match entry with
    | .directory => inspect d root request (site.walkToIndex d place)
    | _ => .ok (place, entry)

/-- The file that stands at a place. -/
def assetAt (request : String) (place : Location) : Entry → Except Failure Asset
  | .file content =>
    if site.isText place.getLast? then
      match content.text? with
      | some text => .ok (.text place text)
      | none => .error (.unreadable place.text .notUtf8)
    else .ok (.binary place content.size)
  | _ => .error (.notFound request)

/-- The file that a request stands for. -/
def resolve (request : String) : Except Failure Asset :=
  match Request.sanitize request with
  | .error _ => .error (.accessDenied request)
  | .ok steps =>
    match site.home d with
    | .error fault => .error (.unreadable site.root.text fault)
    | .ok root =>
      site.locate d root request steps >>= fun (place, entry) => site.assetAt request place entry

/-- A path as it is seen from the root, if it is at or below it. -/
def relative? (p : Path) : Option Path :=
  match site.home d with
  | .ok root => root.path.relativeTo? p
  | .error _ => none

end Site

end Docroot
