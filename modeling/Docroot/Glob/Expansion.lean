import Docroot.Glob.Pattern
import Docroot.Disk.Lookup

/-!
# The paths that a pattern selects

`Pattern.expand` lists the paths below a directory that a pattern stands for:

* a part taken as written is looked up, and selects what is there, a link that
  leads nowhere included;
* a part with wildcards selects from the entries of the directory reached so
  far, and `.` and `..` only if it starts with a dot;
* `**` selects every directory below the one reached so far, links to
  directories included; a circle of links is gone round until the system follows
  no more links or finds the path too long. If parts follow it, the first of
  them is compared with the names of all entries below.

The paths are sorted component by component, so that the order in which a
directory lists its entries does not matter.
-/

namespace Docroot.Glob

/-- A path below the directory in which a pattern is expanded. -/
structure Trail where
  /-- The components of the path. -/
  components : List Component
  /-- It leads to a directory. -/
  isDirectory : Bool
  deriving DecidableEq

namespace Trail

variable (d : Disk) (base : Location)

/-- The length of a component with the slash before it. -/
def componentBytes : Component → Nat
  | .root => 0
  | .here => 2
  | .step s => s.text.utf8ByteSize + 1

/-- The length of a path with a slash before each component. -/
def pathBytes (components : List Component) : Nat :=
  components.foldr (fun c total => componentBytes c + total) 0

/-- The place that a path below the base leads to. -/
def lookup (rule : Lookup) (components : List Component) : Except Fault Location :=
  if maxPathBytes ≤ base.bytes + pathBytes components then .error .nameTooLong
  else d.follow rule maxLinks [] (base.map (fun n => .step (.name n)) ++ components)

/-- The path below the base leads to a directory. -/
def leadsToDirectory (components : List Component) : Bool :=
  match lookup d base .status components with
  | .ok place => d.isDirectory place
  | .error _ => false

/-- The path below the base leads to something, or to a link. -/
def isThere (components : List Component) : Bool :=
  (lookup d base .status components).toBool || (lookup d base .linkStatus components).toBool

/-- The trail of a path, by what it leads to. -/
def ofComponents (components : List Component) : Trail :=
  ⟨components, leadsToDirectory d base components⟩

/-- The trail with one more component. -/
def extend (trail : Trail) (c : Component) : Trail :=
  ofComponents d base (trail.components ++ [c])

/-- The trail to an entry of the directory at a place, which the trail leads
    to. -/
def entryTrail (trail : Trail) (place : Location) (n : Name) : Trail :=
  let components := trail.components ++ [.step (.name n)]
  match d.entryAt? (place ++ [n]) with
  | some .directory => ⟨components, true⟩
  | some (.link _) => ofComponents d base components
  | _ => ⟨components, false⟩

/-- The entries of the directory that the trail leads to, each with its name;
    nothing if the directory cannot be listed. -/
def listing? (trail : Trail) : Option (List (Name × Trail)) :=
  if trail.isDirectory then
    match lookup d base .status trail.components with
    | .ok place => some ((d.names place).map fun n => (n, trail.entryTrail d base place n))
    | .error _ => none
  else none

/-- The entries of the directory that the trail leads to. -/
def entries (trail : Trail) : List (Name × Trail) := (trail.listing? d base).getD []

/-- Every entry below the trail, down to a depth. -/
def below : Nat → Trail → List (Name × Trail)
  | 0, _ => []
  | depth + 1, trail =>
    (trail.entries d base).flatMap fun (n, entry) => (n, entry) :: below depth entry

/-- The deepest that a path can lead: every level takes at least two bytes of
    its length. -/
def maxDepth : Nat := maxPathBytes

/-- The moves of the path, by which it is compared and resolved. -/
def steps (trail : Trail) : List Step := trail.components.filterMap Component.step?

end Trail

namespace Pattern

variable (d : Disk) (base : Location)

/-- The trails to `.` and `..` that a part selects in the directory that a trail
    leads to. -/
def dotTrails (part : Part) (trail : Trail) : List Trail :=
  if part.startsWithDot && (trail.listing? d base).isSome then
    ([(".", .here), ("..", .step .up)].filter fun (piece, _) => part.matchesPiece piece).map
      fun (_, c) => trail.extend d base c
  else []

/-- The trails that the parts select from a trail on. -/
def select : List Part → Trail → List Trail
  | [], trail => [trail]
  | .same :: parts, trail =>
    if Trail.leadsToDirectory d base trail.components then select parts trail else []
  | .exact (.step (.name n)) :: parts, trail =>
    let next := trail.components ++ [.step (.name n)]
    if Trail.isThere d base next then select parts (Trail.ofComponents d base next) else []
  | .exact c :: parts, trail =>
    if trail.isDirectory then select parts (trail.extend d base c) else []
  | .wild tokens :: parts, trail =>
    let named := (trail.entries d base).filter fun (n, _) => (Part.wild tokens).matchesName n
    (named.map (·.2) ++ dotTrails d base (.wild tokens) trail).flatMap (select parts)
  | .anyDepth :: .anyDepth :: parts, trail => select (.anyDepth :: parts) trail
  | [.anyDepth], trail =>
    ((trail.below d base Trail.maxDepth).map (·.2)).filter (·.isDirectory)
  | .anyDepth :: part :: parts, trail =>
    let named := (trail.below d base Trail.maxDepth).filter fun (n, _) => part.matchesName n
    (named.map (·.2)).flatMap (select parts)

/-- The paths below the base that the pattern stands for, as moves from the
    base, in their order. -/
def expand (pattern : Pattern) : List (List Step) :=
  let start := Trail.ofComponents d base []
  let selected := (select d base pattern.parts start).filter fun trail =>
    !pattern.directoriesOnly || trail.isDirectory
  (selected.map Trail.steps).mergeSort fun a b => Step.orderOf a b != .gt

end Pattern

end Docroot.Glob
