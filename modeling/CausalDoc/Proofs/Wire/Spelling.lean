import CausalDoc.Wire.Operation
import Mathlib.Control.Monad.Writer

/- What the format leaves open.

   Batches can be spelt in more than one way. A number can be given in more groups than it
   needs, and the fields of a map can stand in any order, some of them under one key. Nothing
   else is open: each of the readers below reads what the one without `trace` in its name
   reads, and notes every number with the groups that it was spelt in and every map with its
   keys as they stood. -/

namespace CausalDoc.Wire

variable {α : Type}

/-- The groups of seven bits spell the number, lowest first. -/
inductive Numeral : Nat → Bytes → Prop where
  /-- A clear top bit ends the number. -/
  | last {b : UInt8} (h : b.toNat < 128) : Numeral b.toNat [b]
  /-- A set top bit announces another group. -/
  | more {b : UInt8} {n : Nat} {groups : Bytes} (h : 128 ≤ b.toNat) (hn : Numeral n groups) :
    Numeral (b.toNat - 128 + 128 * n) (b :: groups)

/-- A place where the format leaves something open, and what stood there. -/
inductive Choice where
  /-- A number, in these groups. -/
  | number (n : Nat) (groups : Bytes)
  /-- The fields of a map, under these keys. -/
  | fields (keys : List String)

/-- No spelling of the number is shorter; every key of the map is below the next one. -/
def Choice.Canonical : Choice → Prop
  | .number n groups => ∀ groups', Numeral n groups' → groups.length ≤ groups'.length
  | .fields keys => keys.Pairwise fun k k' => compare k k' = .lt

/-- Reads a value off the start of the input and notes what was open. -/
abbrev Tracer (α : Type) := WriterT (List Choice) Reader α

/-! ## Building blocks -/

/-- Notes the groups that a number was read from. -/
def traceVarint (top groups : Nat) : Tracer Nat := WriterT.mk fun input =>
  match readVarint top groups input with
  | .ok (n, rest) => .ok ((n, [.number n (input.take (input.length - rest.length))]), rest)
  | .error fault => .error fault

def traceWord : Tracer Nat := traceVarint 15 5

def traceLong : Tracer Nat := traceVarint 1 10

def traceInteger : Tracer Int64 := do return unzigzag (← traceLong)

def traceDouble : Tracer Double := do return ⟨(ofLittleEndian (← readBytes 8)).toUInt64⟩

def traceBool : Tracer Bool := do
  match (← readByte).toNat with
  | 0 => return false
  | 1 => return true
  | _ => throw .bool

def traceText : Tracer String := do
  let length ← traceLong
  let bytes ← readBytes length
  match String.fromUTF8? ⟨bytes.toArray⟩ with
  | some s => return s
  | none => throw .utf8

def traceOption (trace : Tracer α) : Tracer (Option α) := do
  match (← readByte).toNat with
  | 0 => return none
  | 1 => return some (← trace)
  | _ => throw .option

def traceItems (trace : Tracer α) : Nat → Tracer (List α)
  | 0 => return []
  | n + 1 => do
    let item ← trace
    let items ← traceItems trace n
    return item :: items

def traceSequence (trace : Tracer α) : Tracer (List α) := do
  let length ← traceLong
  traceItems trace length

/-! ## Names and values -/

def traceAtomId : Tracer AtomId := do
  let peer ← traceLong
  let counter ← traceWord
  return ⟨peer, counter⟩

def traceKind : Tracer ContainerKind := do
  match ← traceWord with
  | 0 => return .list
  | 1 => return .map
  | 2 => return .text
  | _ => throw .variant

def traceContainerId : Tracer ContainerId := do
  match ← traceWord with
  | 0 =>
    let name ← traceText
    let kind ← traceKind
    return .root name kind
  | 1 =>
    let creator ← traceAtomId
    let kind ← traceKind
    return .created creator kind
  | _ => throw .variant

def traceField (trace : Tracer Value) : Tracer (String × Value) := do
  let key ← traceText
  let value ← trace
  return (key, value)

/-- Notes the keys of a map as they stand, those that are written over included. -/
def traceMap (trace : Tracer Value) : Tracer Value := do
  let fields ← traceSequence (traceField trace)
  tell [.fields (fields.map Prod.fst)]
  return .ofFields fields

/-- A value that nests less than `depth` deep. -/
def traceValue : Nat → Tracer Value
  | 0 => throw .endOfInput
  | depth + 1 => do
    match ← traceWord with
    | 0 => return .null
    | 1 => return .bool (← traceBool)
    | 2 => return .int (← traceInteger)
    | 3 => return .double (← traceDouble)
    | 4 => return .string (← traceText)
    | 5 => return .list (← traceSequence (traceValue depth))
    | 6 => traceMap (traceValue depth)
    | 7 => return .container (← traceContainerId)
    | _ => throw .variant

/-! ## Operations -/

def traceInserted (depth : Nat) : Tracer Inserted := do
  match ← traceWord with
  | 0 => return .values (← traceSequence (traceValue depth))
  | 1 => return .text (← traceText)
  | _ => throw .variant

def traceSlot : Tracer Slot := do
  match ← traceWord with
  | 0 => return .after (← traceOption traceAtomId)
  | 1 => return .key (← traceText)
  | _ => throw .variant

def traceAction (depth : Nat) : Tracer Action := do
  match ← traceWord with
  | 0 =>
    let anchor ← traceOption traceAtomId
    let content ← traceInserted depth
    return .insert anchor content
  | 1 => return .delete (← traceSequence traceAtomId)
  | 2 =>
    let key ← traceText
    let value ← traceOption (traceValue depth)
    return .setField key value
  | 3 =>
    let slot ← traceSlot
    let kind ← traceKind
    return .create slot kind
  | _ => throw .variant

def traceOperation (depth : Nat) : Tracer Operation := do
  let id ← traceAtomId
  let lamport ← traceWord
  let deps ← traceSequence traceAtomId
  let container ← traceContainerId
  let timestamp ← traceLong
  let action ← traceAction depth
  return ⟨id, lamport, deps, container, timestamp, action⟩

/-- Reads the operations of a payload; no value in it nests deeper than the payload has bytes. -/
def tracePayload (payload : Bytes) :
    Except Fault ((List Operation × List Choice) × Bytes) :=
  (traceSequence (traceOperation payload.length)).run payload

end CausalDoc.Wire
