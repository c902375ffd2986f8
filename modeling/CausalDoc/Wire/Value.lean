import CausalDoc.Value.Basic
import CausalDoc.Wire.Primitive

/- Container names and values in the byte format.

   An alternative is written as its number, then its parts. Values nest, and a
   reader that goes into a nested value has read its number and length before, so
   the length of the input bounds the nesting (`readValueWithin`). The fields of a
   map are written in key order; they are read in any order, and of two fields with
   one key the later stays. -/

namespace CausalDoc.Wire

/-! ## Names -/

def writeAtomId (id : AtomId) : Bytes := writeVarint id.peer ++ writeVarint id.counter

def readAtomId : Reader AtomId := do
  let peer ← readLong
  let counter ← readWord
  return ⟨peer, counter⟩

def writeKind (kind : ContainerKind) : Bytes := writeVarint kind.rank

def readKind : Reader ContainerKind := do
  match ← readWord with
  | 0 => return .list
  | 1 => return .map
  | 2 => return .text
  | _ => throw .variant

def writeContainerId : ContainerId → Bytes
  | .root name kind => 0 :: writeText name ++ writeKind kind
  | .created creator kind => 1 :: writeAtomId creator ++ writeKind kind

def readContainerId : Reader ContainerId := do
  match ← readWord with
  | 0 =>
    let name ← readText
    let kind ← readKind
    return .root name kind
  | 1 =>
    let creator ← readAtomId
    let kind ← readKind
    return .created creator kind
  | _ => throw .variant

/-! ## Values -/

mutual

def writeValue : Value → Bytes
  | .null => [0]
  | .bool b => 1 :: writeBool b
  | .int n => 2 :: writeInteger n
  | .double d => 3 :: writeDouble d
  | .string s => 4 :: writeText s
  | .list items => 5 :: writeVarint items.length ++ writeValues items
  | .map fields => 6 :: writeVarint fields.length ++ writeFields fields
  | .container id => 7 :: writeContainerId id

def writeValues : List Value → Bytes
  | [] => []
  | v :: vs => writeValue v ++ writeValues vs

def writeFields : List (String × Value) → Bytes
  | [] => []
  | (k, v) :: fs => writeText k ++ writeValue v ++ writeFields fs

end

def readField (read : Reader Value) : Reader (String × Value) := do
  let key ← readText
  let value ← read
  return (key, value)

/-- Reads a value that nests less than `depth` deep. -/
def readValueWithin : Nat → Reader Value
  | 0 => throw .endOfInput
  | depth + 1 => do
    match ← readWord with
    | 0 => return .null
    | 1 => return .bool (← readBool)
    | 2 => return .int (← readInteger)
    | 3 => return .double (← readDouble)
    | 4 => return .string (← readText)
    | 5 => return .list (← readSequence (readValueWithin depth))
    | 6 => return .ofFields (← readSequence (readField (readValueWithin depth)))
    | 7 => return .container (← readContainerId)
    | _ => throw .variant

def readValue : Reader Value := fun input => readValueWithin input.length input

end CausalDoc.Wire
