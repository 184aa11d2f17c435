import Docroot.Toml.Value

/-!
# Defining TOML tables

How the tables of a document come about, definition by definition. A table is
made in one of three ways: by a header of its own, on the way to a table deeper
down, or by a key with dots. Which way decides what may still be added to it:

* a key is defined once;
* a header opens a table that is new, or has so far only been passed through by
  headers;
* keys with dots add only to tables that keys with dots made;
* nothing is added to a table or an array given as a value.
-/

namespace Docroot.Toml

/-- What a key stands for while a document is read. -/
inductive Item where
  /-- A value, to which nothing can be added. -/
  | value (v : Value)
  /-- A table. It is implicit if no header has opened it, and dotted if a key
      with dots made it. -/
  | table (isImplicit isDotted : Bool) (entries : List (String × Item))
  /-- Tables opened one after the other under the same header. -/
  | tables (elements : List Item)

namespace Item

/-- A table in which nothing has been defined. -/
def empty : Item := .table false false []

/-- The entries with an item under a key. -/
def setEntry (key : String) (item : Item) (entries : List (String × Item)) :
    List (String × Item) :=
  if (entries.lookup key).isSome then
    entries.map fun entry => if entry.1 = key then (key, item) else entry
  else entries ++ [(key, item)]

/-- Changes the item that some keys lead to. `isDotted` says whether the keys
    are those in front of a value or those of a header; tables that are missing
    are made accordingly. -/
def change (isDotted : Bool) (act : Item → Option Item) : List String → Item → Option Item
  | [], item => act item
  | key :: keys, .table isImplicit dotted entries =>
    let put (item : Item) := Item.table isImplicit dotted (setEntry key item entries)
    match entries.lookup key with
    | none => (change isDotted act keys (.table true isDotted [])).map put
    | some (.value _) => none
    | some (.table innerImplicit innerDotted inner) =>
      if isDotted && !innerImplicit then none
      else (change isDotted act keys (.table innerImplicit innerDotted inner)).map put
    | some (.tables elements) =>
      match elements.getLast? with
      | none => none
      | some last =>
        (change isDotted act keys last).map fun item =>
          put (.tables (elements.dropLast ++ [item]))
  | _ :: _, _ => none

/-- Defines a value under a key of a table; the table must have been made as the
    keys in front of this one say. -/
def define (isBehindDot : Bool) (key : String) (v : Value) : Item → Option Item
  | .table isImplicit isDotted entries =>
    if isDotted != isBehindDot || (entries.lookup key).isSome then none
    else some (.table isImplicit isDotted (entries ++ [(key, .value v)]))
  | _ => none

/-- Defines a value under keys joined by dots. -/
def defineDotted (keys : List String) (v : Value) (item : Item) : Option Item :=
  match keys.getLast? with
  | none => none
  | some key => change true (define (1 < keys.length) key v) keys.dropLast item

/-- Opens the table of a header inside the table that holds it. -/
def openTable (key : String) : Item → Option Item
  | .table isImplicit isDotted entries =>
    let put (item : Item) := Item.table isImplicit isDotted (setEntry key item entries)
    match entries.lookup key with
    | none => some (put .empty)
    | some (.table true false inner) => some (put (.table false false inner))
    | some _ => none
  | _ => none

/-- Opens one more table under a header inside the table that holds it. -/
def appendTable (key : String) : Item → Option Item
  | .table isImplicit isDotted entries =>
    let put (item : Item) := Item.table isImplicit isDotted (setEntry key item entries)
    match entries.lookup key with
    | none => some (put (.tables [.empty]))
    | some (.tables elements) => some (put (.tables (elements ++ [.empty])))
    | some _ => none
  | _ => none

/-- Opens what a header names: one table, or one more of several. -/
def openHeader (isOneOfMany : Bool) (keys : List String) (item : Item) : Option Item :=
  match keys.getLast? with
  | none => none
  | some key =>
    change false (if isOneOfMany then appendTable key else openTable key) keys.dropLast item

end Item

mutual

/-- The value that has been defined. -/
def Item.toValue : Item → Value
  | .value v => v
  | .table _ _ entries => .table (Item.entryValues entries)
  | .tables elements => .array (Item.elementValues elements)

/-- The values under the keys of a table. -/
def Item.entryValues : List (String × Item) → List (String × Value)
  | [] => []
  | (key, item) :: rest => (key, item.toValue) :: Item.entryValues rest

/-- The values of several tables. -/
def Item.elementValues : List Item → List Value
  | [] => []
  | item :: rest => item.toValue :: Item.elementValues rest

end

end Docroot.Toml
