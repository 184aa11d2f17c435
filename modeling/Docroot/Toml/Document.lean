import Docroot.Toml.Definition
import Docroot.Toml.Lexeme

/-!
# Reading TOML documents

A document is a sequence of lines: definitions of values under keys, and headers
that say in which table the definitions below them belong. `read?` gives the
table that a document defines, or nothing if it is no TOML 1.1.

An array may go over several lines and end in a comma, and so may a table given
as a value. A byte order mark at the start of a document is skipped.
-/

namespace Docroot.Toml

mutual

/-- Reads a value. Values nest at most `depth` deep. -/
def valueWithin : Nat → Reader Value
  | 0, _ => none
  | depth + 1, text =>
    match text with
    | '[' :: rest =>
      (skipLines false rest).bind fun rest =>
        (itemsWithin depth rest).map fun (items, behind) => (.array items, behind)
    | '\x7b' :: rest =>
      (skipLines false rest).bind fun rest =>
        (fieldsWithin depth .empty rest).map fun (item, behind) => (item.toValue, behind)
    | c :: _ =>
      if c = '"' || c = '\'' then (string text).map fun (s, behind) => (.string s, behind)
      else
        let (first, behind) := word text
        (ofWord? first).map fun v => (v, behind)
    | [] => none

/-- Reads the items of an array, up to the bracket that closes it. -/
def itemsWithin : Nat → Reader (List Value)
  | 0, _ => none
  | depth + 1, text =>
    match text with
    | ']' :: behind => some ([], behind)
    | _ =>
      (valueWithin depth text).bind fun (item, rest) =>
        (skipLines false rest).bind fun rest =>
          match rest with
          | ',' :: rest =>
            (skipLines false rest).bind fun rest =>
              (itemsWithin depth rest).map fun (items, behind) => (item :: items, behind)
          | ']' :: behind => some ([item], behind)
          | _ => none

/-- Reads the fields of a table given as a value, up to the brace that closes
    it, into the fields read before. -/
def fieldsWithin : Nat → Item → Reader Item
  | 0, _, _ => none
  | depth + 1, item, text =>
    match text with
    | '\x7d' :: behind => some (item, behind)
    | _ =>
      (definitionWithin depth item text).bind fun (item, rest) =>
        (skipLines false rest).bind fun rest =>
          match rest with
          | ',' :: rest =>
            (skipLines false rest).bind fun rest => fieldsWithin depth item rest
          | '\x7d' :: behind => some (item, behind)
          | _ => none

/-- Reads keys, an equals sign and a value, and defines it in the table. -/
def definitionWithin : Nat → Item → Reader Item
  | 0, _, _ => none
  | depth + 1, item, text =>
    (dottedKey text).bind fun (keys, rest) =>
      match skipBlank rest with
      | '=' :: rest =>
        (valueWithin depth (skipBlank rest)).bind fun (v, behind) =>
          (item.defineDotted keys v).map fun item => (item, behind)
      | _ => none

end

/-- Reads a header: whether it opens one of many tables, and the keys in it. -/
def header : Reader (Bool × List String)
  | '[' :: '[' :: rest =>
    (dottedKey rest).bind fun (keys, rest) =>
      match rest with
      | ']' :: ']' :: behind => some ((true, keys), behind)
      | _ => none
  | '[' :: rest =>
    (dottedKey rest).bind fun (keys, rest) =>
      match rest with
      | ']' :: behind => some ((false, keys), behind)
      | _ => none
  | _ => none

/-- Reads the lines of a document, of which there are fewer than `budget`.
    `place` is the last header, and `top` what has been defined. -/
def linesWithin : Nat → List String → Item → List Char → Option Item
  | 0, _, _, _ => none
  | budget + 1, place, top, text =>
    match skipBlank text with
    | [] => some top
    | '[' :: rest =>
      (header ('[' :: rest)).bind fun ((isOneOfMany, keys), behind) =>
        (endOfLine behind).bind fun behind =>
          (top.openHeader isOneOfMany keys).bind fun top => linesWithin budget keys top behind
    | c :: rest =>
      if c = '#' || c = '\n' || c = '\r' then
        (endOfLine (c :: rest)).bind fun behind => linesWithin budget place top behind
      else
        (dottedKey (c :: rest)).bind fun (keys, rest) =>
          match skipBlank rest with
          | '=' :: rest =>
            (valueWithin (text.length + 1) (skipBlank rest)).bind fun (v, behind) =>
              (endOfLine behind).bind fun behind =>
                (top.change false (Item.defineDotted keys v) place).bind fun top =>
                  linesWithin budget place top behind
          | _ => none

/-- The text without a byte order mark at its start. -/
def dropMark : List Char → List Char
  | '\ufeff' :: rest => rest
  | text => text

/-- The table that a document defines. -/
def read? (text : String) : Option (List (String × Value)) :=
  let chars := dropMark text.toList
  match (linesWithin (chars.length + 1) [] .empty chars).map Item.toValue with
  | some (.table entries) => some entries
  | _ => none

end Docroot.Toml
