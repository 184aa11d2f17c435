/-!
# Cutting and replacing text

Texts are lists of characters here, so that every function is a recursion on
the text.

* `pieces` cuts a text at each separator and keeps the empty pieces;
* `join` puts pieces together again with a separator between them;
* `replaceAll` replaces every occurrence of a pattern, from left to right and
  without overlap;
* `splitAtFirst` cuts a text just before the first occurrence of a pattern.
-/

namespace Docroot.Text

/-- The pieces of a text between the separators, empty ones included. A text
    without separators is one piece. -/
def pieces (separates : Char → Bool) : List Char → List (List Char)
  | [] => [[]]
  | c :: cs =>
    if separates c then [] :: pieces separates cs
    else match pieces separates cs with
      | [] => [[c]]
      | p :: ps => (c :: p) :: ps

/-- The pieces with the separator between neighbours. -/
def join (separator : List Char) : List (List Char) → List Char
  | [] => []
  | [p] => p
  | p :: q :: ps => p ++ separator ++ join separator (q :: ps)

/-- Replaces every occurrence of the pattern once the next `skip` characters,
    which belong to an occurrence already replaced, have been dropped. -/
def replaceAfter (pattern replacement : List Char) : Nat → List Char → List Char
  | _, [] => []
  | skip + 1, _ :: cs => replaceAfter pattern replacement skip cs
  | 0, c :: cs =>
    if pattern.isPrefixOf (c :: cs) then
      replacement ++ replaceAfter pattern replacement (pattern.length - 1) cs
    else c :: replaceAfter pattern replacement 0 cs

/-- Replaces every occurrence of a nonempty pattern: the leftmost one first, the
    next one looked for behind it. -/
def replaceAll (pattern replacement text : List Char) : List Char :=
  replaceAfter pattern replacement 0 text

/-- The text before the first occurrence of the pattern, and the text from that
    occurrence on; nothing if the pattern does not occur. -/
def splitAtFirst (pattern : List Char) : List Char → Option (List Char × List Char)
  | [] => if pattern.isEmpty then some ([], []) else none
  | c :: cs =>
    if pattern.isPrefixOf (c :: cs) then some ([], c :: cs)
    else (splitAtFirst pattern cs).map fun (before, after) => (c :: before, after)

/-- The text with ASCII capitals made small, all else as it is. -/
def lowerAscii (text : List Char) : List Char :=
  text.map Char.toLower

end Docroot.Text
