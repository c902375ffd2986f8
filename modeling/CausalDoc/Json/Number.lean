import CausalDoc.Json.Basic

/- Numbers of JSON texts.

   A literal is read into a significand that fits 64 bits and a power of ten.
   Digits that no longer fit are dropped, those before the point counting towards
   the power. The double is the significand, rounded, multiplied or divided once by
   a rounded power of ten. -/

namespace CausalDoc

namespace JsonNumber

/-- A literal on its way to a double: `significand * 10 ^ exponent`. -/
structure Scaled where
  /-- The digits read so far. -/
  significand : Nat
  /-- The power of ten. -/
  exponent : Int

/-- The literal as a double. A quotient that has come down to zero stays zero; a product that
is too large is refused. -/
def Scaled.toFloat? (s : Scaled) : Option Float :=
  divide 4 (Float.ofNat s.significand) s.exponent
where
  /-- Divides by the largest power of ten until the rest of the exponent is in range. -/
  divide : Nat → Float → Int → Option Float
    | 0, f, _ => some f
    | n + 1, f, e =>
      if e.natAbs ≤ 308 then
        let power := Float.ofScientific 1 false e.natAbs
        if 0 ≤ e then
          let product := f * power
          if product.isInf then none else some product
        else some (f / power)
      else if f == 0 then some f
      else if 0 ≤ e then none
      else divide n (f / Float.ofScientific 1 false 308) (e + 308)

/-- Takes digits into the significand while it fits 64 bits. Gives the significand, the number
of digits taken, and the rest. -/
def takeDigits (significand taken : Nat) : List Char → Nat × Nat × List Char
  | [] => (significand, taken, [])
  | c :: cs =>
    let next := significand * 10 + (c.toNat - '0'.toNat)
    if c.isDigit && next < 0x10000000000000000 then takeDigits next (taken + 1) cs
    else (significand, taken, c :: cs)

/-- Reads an exponent: a sign or none, and at least one digit. -/
def readExponent? (cs : List Char) : Option (Int × List Char) :=
  let (negative, cs) :=
    match cs with
    | '+' :: ds => (false, ds)
    | '-' :: ds => (true, ds)
    | ds => (false, ds)
  match cs.takeWhile Char.isDigit with
  | [] => none
  | digits =>
    let size := digits.foldl (fun n d => n * 10 + (d.toNat - '0'.toNat)) 0
    some (if negative then -(size : Int) else size, cs.dropWhile Char.isDigit)

/-- Reads fraction and exponent behind the integer part. The flag tells that the literal has to
be a double. -/
def readTail? (s : Scaled) (isFloat : Bool) (cs : List Char) :
    Option (Scaled × Bool × List Char) := do
  let (s, isFloat, cs) ←
    match cs with
    | '.' :: ds =>
      if (ds.takeWhile Char.isDigit).isEmpty then none
      else
        let (significand, taken, _) := takeDigits s.significand 0 ds
        some (⟨significand, s.exponent - taken⟩, true, ds.dropWhile Char.isDigit)
    | _ => some (s, isFloat, cs)
  match cs with
  | 'e' :: ds | 'E' :: ds =>
    let (e, rest) ← readExponent? ds
    return (⟨s.significand, s.exponent + e⟩, true, rest)
  | _ => return (s, isFloat, cs)

/-- Reads a number and gives the rest of the text. Minus zero is a double. -/
def read? (cs : List Char) : Option (JsonNumber × List Char) := do
  let (negative, cs) :=
    match cs with
    | '-' :: ds => (true, ds)
    | ds => (false, ds)
  let (whole, isLong, rest) ←
    match cs with
    | '0' :: ds =>
      match ds with
      | d :: _ => if d.isDigit then none else some (⟨0, 0⟩, false, ds)
      | [] => some (⟨0, 0⟩, false, ds)
    | c :: _ =>
      if c.isDigit then
        let (significand, _, ds) := takeDigits 0 0 cs
        let dropped := (ds.takeWhile Char.isDigit).length
        some ((⟨significand, dropped⟩ : Scaled), dropped != 0, ds.dropWhile Char.isDigit)
      else none
    | [] => none
  let (scaled, isFloat, rest) ← readTail? whole isLong rest
  let n := scaled.significand
  if !isFloat && !negative then
    return (integer n, rest)
  else if !isFloat && 0 < n && n ≤ 0x8000000000000000 then
    return (integer (-(n : Int)), rest)
  else
    let f ← scaled.toFloat?
    let d : Double := ⟨f.toBits⟩
    return (float (if negative then d.negate else d), rest)

end JsonNumber

end CausalDoc
