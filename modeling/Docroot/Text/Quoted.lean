import Docroot.Text.Printable

/-!
# Quoted text

How a request or a path is shown in a message: between double quotes, with a
backslash before a quote and a backslash, short escapes for tab, line feed,
carriage return and NUL, and `\u` with the hexadecimal code point for every
other character that is not printable. So a message stays on one line and what
it quotes can be read back.
-/

namespace Docroot.Text

/-- One character of a quoted text. -/
def quoteChar (c : Char) : List Char :=
  if c = '"' then ['\\', '"']
  else if c = '\\' then ['\\', '\\']
  else if c = '\t' then ['\\', 't']
  else if c = '\n' then ['\\', 'n']
  else if c = '\r' then ['\\', 'r']
  else if c = '\x00' then ['\\', '0']
  else if isPrintable c then [c]
  else '\\' :: 'u' :: '\x7b' :: Nat.toDigits 16 c.toNat ++ ['\x7d']

/-- The text between quotes, with what could mislead escaped. -/
def quoted (text : String) : String :=
  String.ofList ('"' :: text.toList.flatMap quoteChar ++ ['"'])

end Docroot.Text
