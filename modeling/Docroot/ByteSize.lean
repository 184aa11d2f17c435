/-!
# Sizes for people

A number of bytes is shown in the largest of the units byte, KB, MB and GB that
it reaches, each 1024 times the one before. The number is first rounded to 53
significant bits, which changes nothing below 2 ^ 53, then divided by the unit
and rounded to the decimals of that unit; in both roundings a tie goes to the
even neighbour.
-/

namespace Docroot.ByteSize

/-- The quotient rounded to the nearest number, a tie to the even one. -/
def roundDiv (n d : Nat) : Nat :=
  let q := n / d
  let twice := 2 * (n % d)
  if twice < d then q
  else if d < twice then q + 1
  else if q % 2 = 0 then q else q + 1

/-- The number rounded to its `bits` most significant binary digits, a tie to
    the even neighbour. -/
def roundToBits (bits n : Nat) : Nat :=
  let scale := Nat.pow 2 (n.log2 + 1 - bits)
  roundDiv n scale * scale

/-- A unit of size and how amounts of it are written. -/
structure Scale where
  /-- The number of bytes in one unit. -/
  bytes : Nat
  /-- The decimals shown. -/
  decimals : Nat
  /-- The name of the unit. -/
  name : String

/-- The units above the single byte, the largest first. -/
def scales : List Scale :=
  [⟨Nat.pow 2 30, 2, "GB"⟩, ⟨Nat.pow 2 20, 1, "MB"⟩, ⟨Nat.pow 2 10, 1, "KB"⟩]

/-- The binary digits that are kept of a number of bytes before it is divided. -/
def significantBits : Nat := 53

/-- How many units of the last decimal the amount is shown as. -/
def Scale.count (scale : Scale) (bytes : Nat) : Nat :=
  roundDiv (roundToBits significantBits bytes * Nat.pow 10 scale.decimals) scale.bytes

/-- A decimal number, given in units of its last decimal. -/
def decimalText (decimals count : Nat) : String :=
  let fraction := toString (count % Nat.pow 10 decimals)
  toString (count / Nat.pow 10 decimals) ++ "." ++
    String.ofList (List.replicate (decimals - fraction.length) '0') ++ fraction

/-- The largest unit that the number reaches. -/
def scaleOf? (bytes : Nat) : Option Scale := scales.find? (·.bytes ≤ bytes)

/-- The number of bytes as it is shown. -/
def format (bytes : Nat) : String :=
  match scaleOf? bytes with
  | some scale => decimalText scale.decimals (scale.count bytes) ++ " " ++ scale.name
  | none => toString bytes ++ " bytes"

end Docroot.ByteSize
