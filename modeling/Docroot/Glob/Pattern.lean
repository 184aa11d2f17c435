import Docroot.Path

/-!
# Patterns for file names

A pattern selects files below a directory. It is cut at the slashes, and each
part stands for one component of a path:

* `*` stands for any run of characters, `?` for one character, also for a dot in
  front;
* `[abc]` and `[a-z]` stand for one character of a class, `[!abc]` for one that
  is not in it; a `]` that comes first belongs to the class;
* `**` alone in a part stands for any number of directories;
* a part without these is taken as it is written.

Case matters, and there is no escape character. A pattern is invalid if a class
is not closed or empty, if three or more stars follow each other, or if two
stars have a neighbour in their part.
-/

namespace Docroot.Glob

/-- A range of characters, both ends included; a single character is a range
    from itself to itself. -/
abbrev Range := Char × Char

/-- The character is in one of the ranges. -/
def inRanges (ranges : List Range) (c : Char) : Bool :=
  ranges.any fun (first, last) => first ≤ c && c ≤ last

/-- What one piece of a part stands for. -/
inductive Token where
  /-- The character itself. -/
  | char (c : Char)
  /-- Any one character. -/
  | any
  /-- Any run of characters. -/
  | run
  /-- One character of a class. -/
  | within (ranges : List Range)
  /-- One character outside a class. -/
  | outside (ranges : List Range)
  deriving DecidableEq

/-- The token stands for this one character. -/
def Token.accepts : Token → Char → Bool
  | char a, c => a = c
  | any, _ => true
  | run, _ => false
  | within ranges, c => inRanges ranges c
  | outside ranges, c => !inRanges ranges c

/-- The text or one of its ends has the property. -/
def anySuffix (holds : List Char → Bool) : List Char → Bool
  | [] => holds []
  | c :: text => holds (c :: text) || anySuffix holds text

/-- The tokens stand for this text. -/
def matchesText : List Token → List Char → Bool
  | [], text => text.isEmpty
  | .run :: tokens, text => anySuffix (matchesText tokens) text
  | _ :: _, [] => false
  | token :: tokens, c :: text => token.accepts c && matchesText tokens text

/-- The ranges that the inside of a class lists. -/
def rangesOf : List Char → List Range
  | first :: '-' :: last :: rest => (first, last) :: rangesOf rest
  | c :: rest => (c, c) :: rangesOf rest
  | [] => []

/-- The inside of a class, and what follows the bracket that closes it. The
    first character belongs to the class whatever it is. -/
def classAndRest? : List Char → Option (List Char × List Char)
  | [] => none
  | first :: rest =>
    match rest.dropWhile (· != ']') with
    | _ :: behind => some (first :: rest.takeWhile (· != ']'), behind)
    | [] => none

/-- The tokens of a part; none if it is invalid. At most `budget` tokens are
    read, and every token takes a character. -/
def tokensWithin : Nat → List Char → Option (List Token)
  | _, [] => some []
  | 0, _ :: _ => none
  | budget + 1, '?' :: rest => (tokensWithin budget rest).map (.any :: ·)
  | _ + 1, '*' :: '*' :: _ => none
  | budget + 1, '*' :: rest => (tokensWithin budget rest).map (.run :: ·)
  | budget + 1, '[' :: '!' :: rest =>
    (classAndRest? rest).bind fun (inside, behind) =>
      (tokensWithin budget behind).map (.outside (rangesOf inside) :: ·)
  | budget + 1, '[' :: rest =>
    (classAndRest? rest).bind fun (inside, behind) =>
      (tokensWithin budget behind).map (.within (rangesOf inside) :: ·)
  | budget + 1, c :: rest => (tokensWithin budget rest).map (.char c :: ·)

/-- The tokens of a part; none if it is invalid. -/
def tokens? (part : List Char) : Option (List Token) := tokensWithin part.length part

/-- What one part of a pattern stands for. -/
inductive Part where
  /-- Any number of directories. -/
  | anyDepth
  /-- The directory reached so far, which must be one; written as nothing. -/
  | same
  /-- The component as it is written. -/
  | exact (c : Component)
  /-- The entries whose names the tokens stand for. -/
  | wild (tokens : List Token)
  deriving DecidableEq

namespace Part

/-- The token stands for itself. -/
def isLiteral : Token → Bool
  | .char _ => true
  | _ => false

/-- Reads one part; none if it is invalid. -/
def ofPiece? (piece : List Char) : Option Part :=
  if piece = ['*', '*'] then some anyDepth
  else (tokens? piece).map fun tokens =>
    if tokens.all isLiteral then
      match Component.ofPiece? piece with
      | some c => exact c
      | none => same
    else wild tokens

/-- The part stands for an entry of this name. -/
def matchesName : Part → Name → Bool
  | anyDepth, _ => true
  | same, _ => false
  | exact c, n => c = .step (.name n)
  | wild tokens, n => matchesText tokens n.text.toList

/-- The part can stand for `.` and `..`: it has wildcards, but a dot in
    front. -/
def startsWithDot : Part → Bool
  | wild (.char '.' :: _) => true
  | _ => false

/-- The part stands for this component. -/
def matchesPiece (part : Part) (piece : String) : Bool :=
  match part with
  | wild tokens => matchesText tokens piece.toList
  | _ => false

end Part

/-- A pattern for the paths below a directory. -/
structure Pattern where
  /-- What the components stand for. -/
  parts : List Part
  /-- Only directories are selected. -/
  directoriesOnly : Bool
  deriving DecidableEq

/-- Reads a pattern, in which slashes at the start mean nothing and one at the
    end selects directories. The empty pattern stands for the directory
    itself. -/
def Pattern.ofText? (text : String) : Option Pattern :=
  let pieces := Text.pieces (· == '/') (text.toList.dropWhile (· == '/'))
  let closed := pieces.getLast? == some []
  ((if closed then pieces.dropLast else pieces).mapM Part.ofPiece?).map (⟨·, closed⟩)

/-- The character stands for something else than itself in a part. -/
def isSpecial (c : Char) : Bool := c == '?' || c == '*' || c == '[' || c == ']'

/-- The text with each character that stands for something else in a class of its
    own. -/
def escapeChars (text : List Char) : List Char :=
  text.flatMap fun c => if isSpecial c then ['[', c, ']'] else [c]

/-- The pattern that stands for just this path. -/
def escape (path : String) : String := String.ofList (escapeChars path.toList)

end Docroot.Glob
