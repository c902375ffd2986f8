import CausalDoc.Operation.Basic
import CausalDoc.Wire.Value

/- Operations in the byte format: their parts in the order of the structure. -/

namespace CausalDoc.Wire

def writeInserted : Inserted → Bytes
  | .values vs => 0 :: writeSequence writeValue vs
  | .text s => 1 :: writeText s

def readInserted : Reader Inserted := do
  match ← readWord with
  | 0 => return .values (← readSequence readValue)
  | 1 => return .text (← readText)
  | _ => throw .variant

def writeSlot : Slot → Bytes
  | .after anchor => 0 :: writeOption writeAtomId anchor
  | .key name => 1 :: writeText name

def readSlot : Reader Slot := do
  match ← readWord with
  | 0 => return .after (← readOption readAtomId)
  | 1 => return .key (← readText)
  | _ => throw .variant

def writeAction : Action → Bytes
  | .insert anchor content => 0 :: writeOption writeAtomId anchor ++ writeInserted content
  | .delete targets => 1 :: writeSequence writeAtomId targets
  | .setField key value => 2 :: writeText key ++ writeOption writeValue value
  | .create slot kind => 3 :: writeSlot slot ++ writeKind kind

def readAction : Reader Action := do
  match ← readWord with
  | 0 =>
    let anchor ← readOption readAtomId
    let content ← readInserted
    return .insert anchor content
  | 1 => return .delete (← readSequence readAtomId)
  | 2 =>
    let key ← readText
    let value ← readOption readValue
    return .setField key value
  | 3 =>
    let slot ← readSlot
    let kind ← readKind
    return .create slot kind
  | _ => throw .variant

def writeOperation (op : Operation) : Bytes :=
  writeAtomId op.id ++ writeVarint op.lamport ++ writeSequence writeAtomId op.deps ++
    writeContainerId op.container ++ writeVarint op.timestamp ++ writeAction op.action

def readOperation : Reader Operation := do
  let id ← readAtomId
  let lamport ← readWord
  let deps ← readSequence readAtomId
  let container ← readContainerId
  let timestamp ← readLong
  let action ← readAction
  return ⟨id, lamport, deps, container, timestamp, action⟩

end CausalDoc.Wire
