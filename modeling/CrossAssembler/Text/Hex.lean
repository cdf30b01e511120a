/-!
# Hexadecimal text

Addresses and values are written in base 16 with capital letters. A negative number carries its
sign in front of the digits, and a field width counts that sign: `wide 4 (-5)` is `-005`.
-/

namespace CrossAssembler.Hex

/-- The digits of a natural number in base 16, capital letters, without leading zeros. -/
def digits (n : Nat) : List Char :=
  (Nat.toDigits 16 n).map Char.toUpper

/-- The sign in front of a number: a minus for a negative one, nothing otherwise. -/
def sign (v : Int) : List Char :=
  if v < 0 then ['-'] else []

/-- An integer in base 16, sign first. -/
def plain (v : Int) : String :=
  String.ofList (sign v ++ digits v.natAbs)

/-- An integer in base 16, filled with zeros between sign and digits to at least `width`
characters. -/
def wide (width : Nat) (v : Int) : String :=
  let fill := width - (sign v).length - (digits v.natAbs).length
  String.ofList (sign v ++ List.replicate fill '0' ++ digits v.natAbs)

/-- An address: a dollar sign and at least four places. -/
def address (v : Int) : String :=
  "$" ++ wide 4 v

end CrossAssembler.Hex
