/- Whole numbers in decimal. -/

namespace CausalDoc.Text

/-- The number written by a row of decimal digits. -/
def decimalValue (digits : List Char) : Nat :=
  digits.foldl (fun n d => n * 10 + (d.toNat - '0'.toNat)) 0

/-- Reads a number below `limit`: decimal digits, at least one, with or without a plus sign in
front. Leading zeros are allowed. -/
def readDecimal? (limit : Nat) (cs : List Char) : Option Nat :=
  let digits :=
    match cs with
    | '+' :: ds => ds
    | ds => ds
  if !digits.isEmpty && digits.all Char.isDigit && decimalValue digits < limit then
    some (decimalValue digits)
  else none

end CausalDoc.Text
