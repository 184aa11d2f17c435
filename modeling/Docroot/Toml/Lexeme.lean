import Docroot.Request
import Docroot.Toml.Value

/-!
# The smallest parts of a TOML document

White space and comments, strings, keys, numbers and dates. Every reader takes
the characters that are left and gives back what it read with the characters
behind it, or nothing if the document is invalid.

A string between single quotes is taken as it is written; between double quotes
a backslash starts an escape. Three quotes enclose a text of several lines, in
which a line break directly behind them is dropped, as is a backslash at the end
of a line with all white space behind it.
-/

namespace Docroot.Toml

/-- A reader of the characters that are left. -/
abbrev Reader (α : Type) := List Char → Option (α × List Char)

/-! ## White space and comments -/

/-- White space inside a line. -/
def isBlank (c : Char) : Bool := c == ' ' || c == '\t'

/-- A character that can stand in a comment or a string. -/
def isShown (c : Char) : Bool := c == '\t' || (0x20 ≤ c.toNat && c != '\x7f')

/-- Skips white space inside a line. -/
def skipBlank (text : List Char) : List Char := text.dropWhile isBlank

/-- Skips white space, line breaks and comments; the flag says that a comment is
    open. -/
def skipLines : Bool → List Char → Option (List Char)
  | _, [] => some []
  | _, '\n' :: rest => skipLines false rest
  | _, '\r' :: '\n' :: rest => skipLines false rest
  | true, c :: rest => if isShown c then skipLines true rest else none
  | false, c :: rest =>
    if isBlank c then skipLines false rest
    else if c = '#' then skipLines true rest
    else some (c :: rest)

/-- Reads the rest of a line, which can only hold white space and a comment. -/
def endOfLine (text : List Char) : Option (List Char) :=
  let behind := match skipBlank text with
    | '#' :: comment => comment.dropWhile isShown
    | rest => rest
  match behind with
  | [] => some []
  | '\n' :: rest => some rest
  | '\r' :: '\n' :: rest => some rest
  | _ => none

/-! ## Strings -/

/-- How far the reading of an escape has come. -/
inductive Escape where
  /-- No escape is open. -/
  | closed
  /-- The backslash has been read. -/
  | opened
  /-- So many hexadecimal digits are missing behind a value. -/
  | digits (missing value : Nat)
  /-- A backslash and white space have been read, and a line must end. -/
  | lineEnd
  /-- White space and line breaks are skipped. -/
  | skipping

/-- The character that a letter behind a backslash stands for. -/
def escaped? : Char → Option Char
  | 'b' => some '\x08'
  | 't' => some '\t'
  | 'n' => some '\n'
  | 'f' => some '\x0c'
  | 'r' => some '\r'
  | 'e' => some '\x1b'
  | '"' => some '"'
  | '\\' => some '\\'
  | _ => none

/-- The number of hexadecimal digits that follow a letter behind a backslash. -/
def escapeDigits? : Char → Option Nat
  | 'x' => some 2
  | 'u' => some 4
  | 'U' => some 8
  | _ => none

/-- The character with this code point, if it is one. -/
def charOfCode? (code : Nat) : Option Char :=
  if code.isValidChar then some (Char.ofNat code) else none

/-- Reads on with one more character in front. -/
def withChar (c : Char) (rest : Option (List Char × List Char)) :
    Option (List Char × List Char) :=
  rest.map fun (text, behind) => (c :: text, behind)

/-- Reads a string between double quotes, up to the quote that closes it. -/
def basicString : Escape → Reader (List Char)
  | _, [] => none
  | .closed, c :: rest =>
    if c = '"' then some ([], rest)
    else if c = '\\' then basicString .opened rest
    else if isShown c then withChar c (basicString .closed rest)
    else none
  | .opened, c :: rest =>
    match escaped? c, escapeDigits? c with
    | some x, _ => withChar x (basicString .closed rest)
    | none, some count => basicString (.digits count 0) rest
    | none, none => none
  | .digits missing value, c :: rest =>
    match Request.hexValue? c with
    | none => none
    | some digit =>
      let code := 16 * value + digit.toNat
      if 1 < missing then basicString (.digits (missing - 1) code) rest
      else match charOfCode? code with
        | some x => withChar x (basicString .closed rest)
        | none => none
  | .lineEnd, _ :: _ => none
  | .skipping, _ :: _ => none

/-- The end of a text of several lines, behind the quotes that close it: up to
    two more quotes belong to the text. -/
def closing (quote : Char) : List Char → List Char × List Char
  | a :: b :: rest =>
    if a = quote then if b = quote then ([quote, quote], rest) else ([quote], b :: rest)
    else ([], a :: b :: rest)
  | [a] => if a = quote then ([quote], []) else ([], [a])
  | [] => ([], [])

/-- Reads a text of several lines between double quotes, up to the quotes that
    close it. -/
def basicLines : Escape → Reader (List Char)
  | _, [] => none
  | .closed, '"' :: '"' :: '"' :: rest => some (closing '"' rest)
  | .closed, '\r' :: '\n' :: rest =>
    withChar '\r' (withChar '\n' (basicLines .closed rest))
  | .closed, c :: rest =>
    if c = '\\' then basicLines .opened rest
    else if isShown c || c = '\n' then withChar c (basicLines .closed rest)
    else none
  | .opened, '\r' :: '\n' :: rest => basicLines .skipping rest
  | .opened, c :: rest =>
    if c = '\n' then basicLines .skipping rest
    else if isBlank c then basicLines .lineEnd rest
    else match escaped? c, escapeDigits? c with
      | some x, _ => withChar x (basicLines .closed rest)
      | none, some count => basicLines (.digits count 0) rest
      | none, none => none
  | .digits missing value, c :: rest =>
    match Request.hexValue? c with
    | none => none
    | some digit =>
      let code := 16 * value + digit.toNat
      if 1 < missing then basicLines (.digits (missing - 1) code) rest
      else match charOfCode? code with
        | some x => withChar x (basicLines .closed rest)
        | none => none
  | .lineEnd, '\r' :: '\n' :: rest => basicLines .skipping rest
  | .lineEnd, c :: rest =>
    if c = '\n' then basicLines .skipping rest
    else if isBlank c then basicLines .lineEnd rest
    else none
  | .skipping, '\r' :: '\n' :: rest => basicLines .skipping rest
  | .skipping, '"' :: '"' :: '"' :: rest => some (closing '"' rest)
  | .skipping, c :: rest =>
    if c = '\n' || isBlank c then basicLines .skipping rest
    else if c = '\\' then basicLines .opened rest
    else if isShown c then withChar c (basicLines .closed rest)
    else none

/-- Reads a string between single quotes, up to the quote that closes it. -/
def literalString : Reader (List Char)
  | [] => none
  | c :: rest =>
    if c = '\'' then some ([], rest)
    else if isShown c then withChar c (literalString rest)
    else none

/-- Reads a text of several lines between single quotes, up to the quotes that
    close it. -/
def literalLines : Reader (List Char)
  | [] => none
  | '\'' :: '\'' :: '\'' :: rest => some (closing '\'' rest)
  | '\r' :: '\n' :: rest => withChar '\r' (withChar '\n' (literalLines rest))
  | c :: rest =>
    if isShown c || c = '\n' then withChar c (literalLines rest) else none

/-- Drops a line break at the start of a text of several lines. -/
def dropLineBreak : List Char → List Char
  | '\n' :: rest => rest
  | '\r' :: '\n' :: rest => rest
  | text => text

/-- Reads a string in any notation. -/
def string : Reader String := fun text =>
  (match text with
    | '"' :: '"' :: '"' :: rest => basicLines .closed (dropLineBreak rest)
    | '"' :: rest => basicString .closed rest
    | '\'' :: '\'' :: '\'' :: rest => literalLines (dropLineBreak rest)
    | '\'' :: rest => literalString rest
    | _ => none).map fun (chars, behind) => (String.ofList chars, behind)

/-! ## Keys -/

/-- A character of a key without quotes. -/
def isKeyChar (c : Char) : Bool := c.isAlphanum || c == '_' || c == '-'

/-- Reads one key. -/
def simpleKey : Reader String
  | '"' :: rest => (basicString .closed rest).map fun (k, behind) => (String.ofList k, behind)
  | '\'' :: rest => (literalString rest).map fun (k, behind) => (String.ofList k, behind)
  | text =>
    let key := text.takeWhile isKeyChar
    if key.isEmpty then none else some (String.ofList key, text.dropWhile isKeyChar)

/-- Reads a key and the keys behind it that dots join to it; at most `budget`
    keys are read, and every key takes a character. -/
def dottedKeyWithin : Nat → Reader (List String)
  | 0, _ => none
  | budget + 1, text =>
    match simpleKey (skipBlank text) with
    | none => none
    | some (key, behind) =>
      match skipBlank behind with
      | '.' :: rest =>
        (dottedKeyWithin budget rest).map fun (keys, behind) => (key :: keys, behind)
      | rest => some ([key], rest)

/-- Reads keys joined by dots. -/
def dottedKey : Reader (List String) := fun text => dottedKeyWithin (text.length + 1) text

/-! ## Numbers and dates -/

/-- The text is digits with single underscores between them. -/
def areDigits (isDigit : Char → Bool) (text : List Char) : Bool :=
  (Text.pieces (· == '_') text).all fun digits => !digits.isEmpty && digits.all isDigit

/-- The text without a sign at its start. -/
def dropSign : List Char → List Char
  | '+' :: rest => rest
  | '-' :: rest => rest
  | text => text

/-- The text is a decimal number without a sign or a needless zero. -/
def isDecimal (text : List Char) : Bool :=
  areDigits Char.isDigit text && (text == ['0'] || text.head? != some '0')

/-- The digit of a number with this base. -/
def isHexDigit (c : Char) : Bool := (Request.hexValue? c).isSome

/-- The text is an integer. -/
def isInteger : List Char → Bool
  | '0' :: 'x' :: digits => areDigits isHexDigit digits
  | '0' :: 'o' :: digits => areDigits (fun c => '0' ≤ c && c ≤ '7') digits
  | '0' :: 'b' :: digits => areDigits (fun c => c == '0' || c == '1') digits
  | text => isDecimal (dropSign text)

/-- The text is a float. -/
def isFloat (text : List Char) : Bool :=
  let unsigned := dropSign text
  unsigned == "inf".toList || unsigned == "nan".toList ||
    match Text.pieces (fun c => c == 'e' || c == 'E') unsigned with
    | [mantissa] =>
      match Text.pieces (· == '.') mantissa with
      | [whole, fraction] => isDecimal whole && areDigits Char.isDigit fraction
      | _ => false
    | [mantissa, exponent] =>
      areDigits Char.isDigit (dropSign exponent) &&
        match Text.pieces (· == '.') mantissa with
        | [whole] => isDecimal whole
        | [whole, fraction] => isDecimal whole && areDigits Char.isDigit fraction
        | _ => false
    | _ => false

/-- The value of a text of decimal digits. -/
def decimalValue (digits : List Char) : Nat :=
  digits.foldl (fun value c => 10 * value + (c.toNat - '0'.toNat)) 0

/-- The value of two digits, if they are within bounds. -/
def twoDigits? (low high : Nat) (a b : Char) : Option Nat :=
  let value := decimalValue [a, b]
  if a.isDigit && b.isDigit && low ≤ value && value ≤ high then some value else none

/-- The days of a month. -/
def daysIn (year month : Nat) : Nat :=
  if month = 2 then
    if year % 4 = 0 && (year % 100 != 0 || year % 400 = 0) then 29 else 28
  else if month = 4 || month = 6 || month = 9 || month = 11 then 30 else 31

/-- Reads a date, and gives what is behind it. -/
def afterDate? : List Char → Option (List Char)
  | y₁ :: y₂ :: y₃ :: y₄ :: '-' :: m₁ :: m₂ :: '-' :: d₁ :: d₂ :: rest =>
    if [y₁, y₂, y₃, y₄].all Char.isDigit then
      (twoDigits? 1 12 m₁ m₂).bind fun month =>
        (twoDigits? 1 (daysIn (decimalValue [y₁, y₂, y₃, y₄]) month) d₁ d₂).map fun _ => rest
    else none
  | _ => none

/-- Reads a fraction of a second, if there is one. -/
def afterFraction? : List Char → Option (List Char)
  | '.' :: rest =>
    if (rest.takeWhile Char.isDigit).isEmpty then none else some (rest.dropWhile Char.isDigit)
  | rest => some rest

/-- Reads a time of day, whose seconds may be left out. -/
def afterTime? : List Char → Option (List Char)
  | h₁ :: h₂ :: ':' :: m₁ :: m₂ :: rest =>
    (twoDigits? 0 23 h₁ h₂).bind fun _ => (twoDigits? 0 59 m₁ m₂).bind fun _ =>
      match rest with
      | ':' :: s₁ :: s₂ :: behind => (twoDigits? 0 60 s₁ s₂).bind fun _ => afterFraction? behind
      | _ => some rest
  | _ => none

/-- The text is an offset from universal time, or nothing. -/
def isOffset : List Char → Bool
  | [] => true
  | ['Z'] => true
  | ['z'] => true
  | sign :: h₁ :: h₂ :: ':' :: m₁ :: m₂ :: [] =>
    (sign == '+' || sign == '-') && (twoDigits? 0 23 h₁ h₂).isSome && (twoDigits? 0 59 m₁ m₂).isSome
  | _ => false

/-- The text is a date, a time, or both. -/
def isMoment (text : List Char) : Bool :=
  match afterDate? text with
  | some [] => true
  | some (separator :: rest) =>
    (separator == 'T' || separator == 't' || separator == ' ') && (afterTime? rest).any isOffset
  | none => afterTime? text == some []

/-- The character ends a number, a date or a word. -/
def endsWord (c : Char) : Bool :=
  isBlank c || c == ',' || c == ']' || c == '\x7d' || c == '#' || c == '\n' || c == '\r'

/-- The word at the start of a text; a date and the time behind a space are one
    word. -/
def word (text : List Char) : List Char × List Char :=
  let first := text.takeWhile fun c => !endsWord c
  match afterDate? first, text.dropWhile fun c => !endsWord c with
  | some [], ' ' :: rest =>
    let second := rest.takeWhile fun c => !endsWord c
    if second.head?.any Char.isDigit then
      (first ++ ' ' :: second, rest.dropWhile fun c => !endsWord c)
    else (first, ' ' :: rest)
  | _, rest => (first, rest)

/-- The value that a word stands for. -/
def ofWord? (text : List Char) : Option Value :=
  if text = "true".toList then some (.boolean true)
  else if text = "false".toList then some (.boolean false)
  else if isInteger text || isFloat text then some (.number (String.ofList text))
  else if isMoment text then some (.moment (String.ofList text))
  else none

end Docroot.Toml
