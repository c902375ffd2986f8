import CausalDoc.Operation.Flaw
import CausalDoc.Wire.Operation

/- Batches: what replicas send each other.

   A batch is a header of three bytes (a mark, the revision of the format, the kind
   of batch) and a payload, the sequence of its operations. Decoding is all or
   nothing: no operation is handed on before the whole batch has been read to its
   last byte and every operation in it has been found sound. -/

namespace CausalDoc

open Wire

/-- What a batch was made as. Both kinds are imported alike. -/
inductive BatchKind where
  /-- The operations that a given version lacks. -/
  | updates
  /-- The whole history. -/
  | snapshot
  deriving DecidableEq, Repr

namespace BatchKind

def toByte : BatchKind → UInt8
  | updates => 1
  | snapshot => 2

def ofByte? (b : UInt8) : Option BatchKind :=
  if b = 1 then some updates else if b = 2 then some snapshot else none

end BatchKind

/-- Operations on their way from one replica to another. -/
structure Batch where
  /-- What the batch was made as. -/
  kind : BatchKind
  /-- The operations, every one after those it depends on. -/
  operations : List Operation
  deriving DecidableEq, Repr

/-- Why bytes are not a batch. -/
inductive DecodeError where
  /-- The header is incomplete. -/
  | tooShort
  /-- The first byte is not the mark of a batch. -/
  | invalidMagic (byte : UInt8)
  /-- The revision of the format is not known. -/
  | unsupportedVersion (version : UInt8)
  /-- The kind of batch is not known. -/
  | unknownKind (byte : UInt8)
  /-- The payload cannot be read. -/
  | payload (fault : Fault)
  /-- Bytes are left over. -/
  | trailingBytes (count : Nat)
  /-- An operation has a flaw. -/
  | invalidOperation (id : AtomId) (flaw : Flaw)
  deriving DecidableEq, Repr

def DecodeError.message : DecodeError → String
  | tooShort => "data too short for batch header"
  | invalidMagic b =>
    let digits := (Nat.toDigits 16 b.toNat).map Char.toUpper
    "invalid magic byte: 0x" ++ String.ofList (List.replicate (2 - digits.length) '0' ++ digits)
  | unsupportedVersion v => s!"unsupported batch format version {v}"
  | unknownKind b => s!"unknown batch kind {b}"
  | payload fault => "payload decode failed: " ++ fault.message
  | trailingBytes n => s!"{n} trailing bytes after payload"
  | invalidOperation id flaw => s!"invalid operation {id}: {flaw.message}"

namespace Batch

/-- The byte that every batch starts with. -/
def magic : UInt8 := 0xCD

/-- The revision of the format. -/
def formatVersion : UInt8 := 1

/-- Whether bytes start like a batch. -/
def isBatch (bytes : Bytes) : Bool := bytes.head? = some magic

/-- Writes header and payload. -/
def encode (batch : Batch) : Bytes :=
  magic :: formatVersion :: batch.kind.toByte :: writeSequence writeOperation batch.operations

/-- Reads the operations of a payload, which has to end with the last of them. -/
def decodePayload (payload : Bytes) : Except DecodeError (List Operation) :=
  match readSequence readOperation payload with
  | .error fault => .error (.payload fault)
  | .ok (operations, rest) =>
    if rest.isEmpty then .ok operations else .error (.trailingBytes rest.length)

/-- The first operation with a flaw, as an error. -/
def flaw? (operations : List Operation) : Option DecodeError :=
  operations.findSome? fun op => op.flaw?.map (.invalidOperation op.id)

def decode (bytes : Bytes) : Except DecodeError Batch :=
  match bytes with
  | mark :: version :: kind :: payload =>
    if mark ≠ magic then .error (.invalidMagic mark)
    else if version = 0 ∨ formatVersion < version then .error (.unsupportedVersion version)
    else
      match BatchKind.ofByte? kind with
      | none => .error (.unknownKind kind)
      | some kind =>
        match decodePayload payload with
        | .error e => .error e
        | .ok operations =>
          match flaw? operations with
          | some e => .error e
          | none => .ok ⟨kind, operations⟩
  | _ => .error .tooShort

def same (a b : Batch) : Bool :=
  a.kind = b.kind && a.operations.length = b.operations.length &&
    (a.operations.zip b.operations).all fun p => p.1.same p.2

end Batch

end CausalDoc
