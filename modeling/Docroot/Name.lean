import Docroot.Text.Pieces

/-!
# File names

A `Name` is what one entry of a directory can be called: a text that is not
empty, has no slash, and is neither `.` nor `..`. Those two are no names but
moves, and the empty text names nothing, so a list of names is a place in the
tree and needs no further check.

A disk stores only names of at most 255 bytes without a NUL character
(`Name.isStorable`); a request may use any name.

Names are texts, written in UTF-8. A system can also store names that are not,
as it can store any bytes; those are left out, so no disk here has an entry, and
no link a target, that is not a text.
-/

namespace Docroot

/-- The text can stand for an entry of a directory. -/
def IsFileName (text : String) : Prop :=
  text ≠ "" ∧ text ≠ "." ∧ text ≠ ".." ∧ '/' ∉ text.toList

instance (text : String) : Decidable (IsFileName text) := by
  unfold IsFileName; infer_instance

/-- The name of a directory entry, as far as it is a text in UTF-8. -/
structure Name where
  /-- The name as it is written. -/
  text : String
  /-- It is a name, and not a move or a longer path. -/
  isFileName : IsFileName text
  deriving DecidableEq

namespace Name

/-- The longest name, in bytes, that a disk stores. -/
def maxBytes : Nat := 255

/-- The name a text is, if it is one. -/
def ofText? (text : String) : Option Name :=
  if h : IsFileName text then some ⟨text, h⟩ else none

/-- The length of the name in bytes. -/
def bytes (n : Name) : Nat := n.text.utf8ByteSize

/-- The name contains a NUL character, which no call to the system can pass. -/
def hasNul (n : Name) : Bool := n.text.toList.contains '\x00'

/-- An entry of a directory can have this name. -/
def isStorable (n : Name) : Bool := n.bytes ≤ maxBytes && !n.hasNul

/-- What follows the last dot of the name, unless that dot is its first
    character: `app.css` has the extension `css`, `a.` the empty one, and
    `.css` none. -/
def extension? (n : Name) : Option String :=
  let reversed := n.text.toList.reverse
  match reversed.dropWhile (· != '.') with
  | _ :: _ :: _ => some (String.ofList (reversed.takeWhile (· != '.')).reverse)
  | _ => none

/-- Names are ordered as their bytes are, which is the order of their code
    points. -/
def order (a b : Name) : Ordering := compare a.text b.text

end Name

end Docroot
