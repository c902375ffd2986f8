import CausalDoc.Json.Basic
import CausalDoc.Value.Basic

/- Values as JSON documents, and back.

   JSON knows neither references nor infinities: a reference becomes its written
   form and a double that is not finite becomes `null`. Everything else comes back
   unchanged, and integers stay apart from doubles. -/

namespace CausalDoc

namespace Value

mutual

/-- The value as a JSON document. -/
def toJson : Value → Json
  | null => .null
  | bool b => .bool b
  | int n => .number (.integer n.toInt)
  | double d => if d.isFinite then .number (.float d) else .null
  | string s => .string s
  | list items => .array (itemsToJson items)
  | map fields => .object (fieldsToJson fields)
  | container id => .string (toString id)

def itemsToJson : List Value → List Json
  | [] => []
  | v :: vs => toJson v :: itemsToJson vs

def fieldsToJson : List (String × Value) → List (String × Json)
  | [] => []
  | (k, v) :: vs => (k, toJson v) :: fieldsToJson vs

end

/-- The value of a JSON number: an integer if it fits 64 bits with a sign, else a double. -/
def ofJsonNumber : JsonNumber → Value
  | .integer n =>
    if -0x8000000000000000 ≤ n ∧ n < 0x8000000000000000 then int (Int64.ofInt n)
    else double (Double.ofNat n.toNat)
  | .float d => double d

mutual

def ofJson : Json → Value
  | .null => null
  | .bool b => bool b
  | .number n => ofJsonNumber n
  | .string s => string s
  | .array items => list (itemsOfJson items)
  | .object members => map (fieldsOfJson members)

def itemsOfJson : List Json → List Value
  | [] => []
  | j :: js => ofJson j :: itemsOfJson js

def fieldsOfJson : List (String × Json) → List (String × Value)
  | [] => []
  | (k, j) :: js => (k, ofJson j) :: fieldsOfJson js

end

end Value

end CausalDoc
