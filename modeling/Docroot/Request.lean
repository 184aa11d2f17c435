import Docroot.Path

/-!
# Requests

What a client sends, and the moves it asks for. A request is a text in which
both `/` and `\` separate; `Request.sanitize` turns it into the list of moves
that it asks for from the root, or refuses it:

* a NUL character is refused;
* so is a request that starts with a separator or a drive letter, also behind
  a leading `./`;
* empty pieces and `.` ask for nothing;
* `..` is kept, since whether it leaves the root depends on the links on the
  way.

A request made over HTTP is a target (`Request.ofTarget?`): it is cut at the
first `?` or `#`, its percent-encoded bytes are decoded once, and its leading
slashes are dropped. It is no request if the bytes are not UTF-8.
-/

namespace Docroot

/-- Why a request is refused. -/
inductive Refusal where
  /-- It contains a NUL character. -/
  | nulByte
  /-- It does not start at the root that is served. -/
  | absolutePath
  /-- It leads out of the root. -/
  | escapesRoot
  /-- It passes through a link whose target cannot be found out. -/
  | unresolvableLink
  deriving DecidableEq

/-- The sentence that tells the reason. -/
def Refusal.message : Refusal → String
  | nulByte => "Path contains null bytes"
  | absolutePath => "Absolute paths are not allowed"
  | escapesRoot => "Path escapes the base directory"
  | unresolvableLink => "Path passes through a symlink that cannot be resolved"

/-- The reason as a key in a record. -/
def Refusal.key : Refusal → String
  | nulByte => "null_byte"
  | absolutePath => "absolute_path"
  | escapesRoot => "escapes_base"
  | unresolvableLink => "unresolvable_link"

namespace Request

/-- Both kinds of slash separate the pieces of a request. -/
def isSeparator (c : Char) : Bool := c == '/' || c == '\\'

/-- The character is an ASCII letter. -/
def isDriveLetter (c : Char) : Bool := c.isAlpha

/-- The piece starts with a drive letter and a colon. -/
def startsWithDrive : List Char → Bool
  | c :: ':' :: _ => isDriveLetter c
  | _ => false

/-- The pieces of the request that ask for something. -/
def pieces (raw : String) : List (List Char) :=
  (Text.pieces isSeparator raw.toList).filter fun piece => !Path.isIdle piece

/-- The request does not start at the root that is served. -/
def isAbsolute (raw : String) : Bool :=
  raw.toList.head?.any isSeparator || (pieces raw).head?.any startsWithDrive

/-- The moves that a request asks for, from the root. -/
def sanitize (raw : String) : Except Refusal (List Step) :=
  if raw.toList.contains '\x00' then .error .nulByte
  else if isAbsolute raw then .error .absolutePath
  else .ok ((pieces raw).filterMap Step.ofPiece?)

/-! ## Targets -/

/-- The value of a hexadecimal digit in either case. -/
def hexValue? (c : Char) : Option UInt8 :=
  if c.isDigit then some (UInt8.ofNat (c.toNat - '0'.toNat))
  else if 'a' ≤ c ∧ c ≤ 'f' then some (UInt8.ofNat (c.toNat - 'a'.toNat + 10))
  else if 'A' ≤ c ∧ c ≤ 'F' then some (UInt8.ofNat (c.toNat - 'A'.toNat + 10))
  else none

/-- The byte that two hexadecimal digits stand for. -/
def hexByte? (high low : Char) : Option UInt8 :=
  match hexValue? high, hexValue? low with
  | some h, some l => some (16 * h + l)
  | _, _ => none

/-- The bytes of a text in which `%` and two hexadecimal digits stand for a
    byte. Every other character, a `%` without two digits among them, stands for
    itself. -/
def percentDecode : List Char → List UInt8
  | '%' :: high :: low :: rest =>
    match hexByte? high low with
    | some byte => byte :: percentDecode rest
    | none => String.utf8EncodeChar '%' ++ percentDecode (high :: low :: rest)
  | c :: rest => String.utf8EncodeChar c ++ percentDecode rest
  | [] => []

/-- The character ends the path of a target. -/
def endsPath (c : Char) : Bool := c == '?' || c == '#'

/-- The request that a target stands for. -/
def ofTarget? (target : String) : Option String :=
  let path := target.toList.takeWhile fun c => !endsPath c
  (String.fromUTF8? (percentDecode path).toByteArray).map fun decoded =>
    String.ofList (decoded.toList.dropWhile (· == '/'))

end Request

end Docroot
