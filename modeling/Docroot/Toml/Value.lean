/-!
# TOML values

The values that a TOML document can hold. Numbers and dates are kept as they
are written. The entries of a table come in the order in which they were
defined, each key once.
-/

namespace Docroot.Toml

/-- A TOML value. -/
inductive Value where
  /-- A text in any of the four notations. -/
  | string (text : String)
  /-- `true` or `false`. -/
  | boolean (value : Bool)
  /-- An integer or a float, as it is written. -/
  | number (text : String)
  /-- A date, a time, or both, as it is written. -/
  | moment (text : String)
  /-- Values in their order. -/
  | array (items : List Value)
  /-- Values under keys. -/
  | table (entries : List (String × Value))

end Docroot.Toml
