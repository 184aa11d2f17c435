import Docroot.Disk.Lookup
import Docroot.Request

/-!
# Walking below a base

Where a request leads, found one move at a time from a base directory, so that
every link on the way is resolved before the next move is made:

* `..` goes to the parent of the place reached;
* a name that is no link, be it there or missing, is gone to as it is, so that
  the walk has an end also where nothing exists;
* a link that leads somewhere is gone through to the place without links behind
  it;
* a link that leads nowhere still has a target, whose moves are made in place of
  the link; this is done at most 40 times;
* a link that leads in a circle, or cannot be followed for another reason than
  that something is missing, refuses the request.

The walk may leave the base. Whether it did is judged at its end, by
`Location.isWithin`.
-/

namespace Docroot

namespace Path

/-- Where the moves of a link's target start, for a link in the directory
    `parent`. -/
def anchor (target : Path) (parent : Location) : Location :=
  if target.isAbsolute then [] else parent

end Path

namespace Disk

variable (d : Disk)

/-- Makes moves from a place until the first link that leads nowhere; what
    happens there is `onDangling`, given the directory of the link, its target,
    and the moves left. -/
def advance (onDangling : Location → Path → List Step → Except Refusal Location) :
    Location → List Step → Except Refusal Location
  | place, [] => .ok place
  | place, .up :: rest => advance onDangling place.parent rest
  | place, .name n :: rest =>
    let next := place ++ [n]
    match d.linkTarget? next with
    | none => advance onDangling next rest
    | some target =>
      match d.canonicalizeAt next with
      | .ok resolved => advance onDangling resolved rest
      | .error .notFound => onDangling place target rest
      | .error _ => .error .unresolvableLink

/-- Makes moves from a place, following at most so many links that lead
    nowhere. -/
def walk : Nat → Location → List Step → Except Refusal Location
  | 0 => d.advance fun _ _ _ => .error .unresolvableLink
  | hops + 1 => d.advance fun place target rest =>
      walk hops (target.anchor place) (target.steps ++ rest)

/-- The links that lead nowhere that one walk follows. -/
def maxHops : Nat := 40

/-- Where some moves lead from a base. -/
def walkFrom (base : Location) (steps : List Step) : Except Refusal Location :=
  d.walk maxHops base steps

/-- Where a relative path leads from a base. -/
def walkPath (base : Location) (p : Path) : Except Refusal Location :=
  if p.isAbsolute then .error .absolutePath else d.walkFrom base p.steps

end Disk

end Docroot
