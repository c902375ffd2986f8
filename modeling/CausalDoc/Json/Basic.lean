import CausalDoc.Value.Double

/- JSON documents. -/

namespace CausalDoc

/-- A number of a JSON document. A number written with neither fraction nor exponent is an
integer as far as 64 bits reach, signed or unsigned; any other is a double. -/
inductive JsonNumber where
  /-- An integer. -/
  | integer (n : Int)
  /-- A finite double. -/
  | float (d : Double)
  deriving DecidableEq, Repr, Inhabited

/-- A JSON document. The members of an object stand in ascending order of their names. -/
inductive Json where
  /-- The literal `null`. -/
  | null
  /-- The literal `true` or `false`. -/
  | bool (b : Bool)
  /-- A number. -/
  | number (n : JsonNumber)
  /-- A text. -/
  | string (s : String)
  /-- An array. -/
  | array (items : List Json)
  /-- An object. -/
  | object (members : List (String × Json))
  deriving Repr, Inhabited

end CausalDoc
