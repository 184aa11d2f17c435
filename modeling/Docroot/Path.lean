import Docroot.Name

/-!
# Paths

A `Path` is a text that names a place by way of directories. What it means is
in its components:

* repeated slashes and a slash at the end vanish;
* `.` vanishes unless it comes first in a relative path;
* `..` stays, since what it leads to is only known on a disk.

Two paths are compared by their components (`Path.isWithin`), never by their
text: `/srv/app-evil` is not within `/srv/app`.

A `Location` is a place reached from the top of the tree by names alone. It is
what a path becomes once every link and every `..` has been resolved.
-/

namespace Docroot

/-- A move of a walk: up to the parent, or down to an entry. -/
inductive Step where
  /-- To the parent directory. -/
  | up
  /-- To the entry of this name. -/
  | name (n : Name)
  deriving DecidableEq

/-- One component of a path. -/
inductive Component where
  /-- The top of the tree. -/
  | root
  /-- The directory itself, written `.`. -/
  | here
  /-- The parent or an entry. -/
  | step (s : Step)
  deriving DecidableEq

namespace Step

/-- The move as it is written. -/
def text : Step → String
  | up => ".."
  | name n => n.text

/-- The move that a piece between two separators stands for; the empty piece
    and `.` stand for none. -/
def ofPiece? (piece : List Char) : Option Step :=
  if piece = ['.', '.'] then some up
  else (Name.ofText? (String.ofList piece)).map name

/-- The parent comes before every entry, entries are ordered by name. -/
def order : Step → Step → Ordering
  | up, up => .eq
  | up, name _ => .lt
  | name _, up => .gt
  | name a, name b => a.order b

/-- The relative path that takes these moves one after the other. -/
def textOf (steps : List Step) : String :=
  String.ofList (Text.join ['/'] (steps.map (·.text.toList)))

/-- The order of paths: move by move, a path before those it is the start of. -/
def orderOf : List Step → List Step → Ordering
  | [], [] => .eq
  | [], _ :: _ => .lt
  | _ :: _, [] => .gt
  | a :: as, b :: bs => (a.order b).then (orderOf as bs)

end Step

namespace Component

/-- The component that a piece between two slashes stands for; the empty piece
    stands for none. -/
def ofPiece? (piece : List Char) : Option Component :=
  if piece = ['.'] then some here else (Step.ofPiece? piece).map step

/-- The move that the component asks for, if it asks for one. -/
def step? : Component → Option Step
  | step s => some s
  | _ => none

end Component

/-! ## Paths as texts -/

/-- A path as it is written. -/
structure Path where
  /-- The text of the path. -/
  text : String
  deriving DecidableEq

namespace Path

/-- The path starts at the top of the tree. -/
def isAbsolute (p : Path) : Bool := p.text.toList.head? == some '/'

/-- The text between the slashes. -/
def pieces (p : Path) : List (List Char) := Text.pieces (· == '/') p.text.toList

/-- What stands between the slashes, each `.` included. -/
def segments (p : Path) : List Component := p.pieces.filterMap Component.ofPiece?

/-- The components of the path. -/
def components (p : Path) : List Component :=
  if p.isAbsolute then .root :: p.segments.filter (· != .here)
  else match p.segments with
    | .here :: rest => .here :: rest.filter (· != .here)
    | rest => rest.filter (· != .here)

/-- The moves that the path asks for, wherever it starts. -/
def steps (p : Path) : List Step := p.segments.filterMap Component.step?

/-- What a system call goes through: the segments, started at the top for an
    absolute path and ended by `.` if a slash ends the text, since only a
    directory can be written with one. -/
def route (p : Path) : List Component :=
  (if p.isAbsolute then [.root] else []) ++ p.segments ++
    (if p.text.toList.getLast? == some '/' then [.here] else [])

/-- The name that the path ends in, if it ends in one. -/
def fileName? (p : Path) : Option Name :=
  match p.components.getLast? with
  | some (.step (.name n)) => some n
  | _ => none

/-- The path is the base or below it, compared component by component. -/
def isWithin (base p : Path) : Bool := base.components.isPrefixOf p.components

/-- The piece asks for nothing: it is empty or `.`. -/
def isIdle (piece : List Char) : Bool := piece.isEmpty || piece == ['.']

/-- Drops as many pieces that ask for something as `count` says, and all idle
    ones before, between and directly behind them. -/
def dropPieces : Nat → List (List Char) → List (List Char)
  | _, [] => []
  | 0, p :: ps => if isIdle p then dropPieces 0 ps else p :: ps
  | count + 1, p :: ps => if isIdle p then dropPieces (count + 1) ps else dropPieces count ps

/-- What is left of the path, as it is written, behind the components of the
    base; nothing if the path is not within an absolute base. Idle pieces at
    either end of it are dropped. -/
def relativeTo? (base p : Path) : Option Path :=
  if base.isAbsolute && base.isWithin p then
    let rest := dropPieces base.steps.length p.pieces
    some ⟨String.ofList (Text.join ['/'] (rest.reverse.dropWhile isIdle).reverse)⟩
  else none

end Path

/-! ## Locations -/

/-- A place in the tree: the names on the way down from its top. -/
abbrev Location := List Name

namespace Location

/-- The absolute path of the place. -/
def text (place : Location) : String :=
  String.ofList ('/' :: Text.join ['/'] (place.map (·.text.toList)))

/-- The absolute path of the place. -/
def path (place : Location) : Path := ⟨place.text⟩

/-- The length in bytes of the names and of a slash before each. -/
def bytes (place : Location) : Nat := place.foldr (fun n total => n.bytes + 1 + total) 0

/-- The directory that holds the place; the top holds itself. -/
def parent (place : Location) : Location := place.dropLast

/-- The place is the base or below it. -/
def isWithin (base place : Location) : Bool := base.isPrefixOf place

/-- The names that lead from the base to the place, if it is below it. -/
def below? (base place : Location) : Option (List Name) :=
  if isWithin base place then some (place.drop base.length) else none

end Location

/-- The moves of a path from the top of the tree behind those that lead to a
    place, if it starts with these. -/
def Step.below? (base : Location) (steps : List Step) : Option (List Step) :=
  if (base.map .name).isPrefixOf steps then some (steps.drop base.length) else none

end Docroot
