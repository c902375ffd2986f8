import CausalDoc.Value.Double

/- The building blocks of the byte format.

   Whole numbers are written in groups of seven bits, least significant group
   first, a set top bit announcing another group (`writeVarint`). Writing uses as
   few groups as possible; reading also takes longer forms, up to a number of groups
   and a largest last group that depend on the width of the number. Signed numbers
   are folded onto the natural ones (`zigzag`), and everything of variable size is
   preceded by its length.

   A reader consumes the start of its input and hands on the rest. Each `readX`
   takes back what `writeX` wrote, whatever follows. -/

namespace CausalDoc.Wire

/-- A string of bytes. -/
abbrev Bytes := List UInt8

/-- Why a payload cannot be read. -/
inductive Fault where
  /-- The input ends too early. -/
  | endOfInput
  /-- A number has too many groups, or too large a last group. -/
  | varint
  /-- A truth value is neither 0 nor 1. -/
  | bool
  /-- The mark of an optional part is neither 0 nor 1. -/
  | option
  /-- A text is not valid UTF-8. -/
  | utf8
  /-- An alternative is chosen that does not exist. -/
  | variant
  deriving DecidableEq, Repr

def Fault.message : Fault → String
  | endOfInput => "Hit the end of buffer, expected more data"
  | varint => "Found a varint that didn't terminate. Is the usize too big for this platform?"
  | bool => "Found a bool that wasn't 0 or 1"
  | option => "Found an Option discriminant that wasn't 0 or 1"
  | utf8 => "Tried to parse invalid utf-8"
  | variant => "Serde Deserialization Error"

/-- Reads a value off the start of the input. -/
abbrev Reader (α : Type) := StateT Bytes (Except Fault) α

/-! ## Bytes and numbers -/

def readByte : Reader UInt8 := fun input =>
  match input with
  | [] => .error .endOfInput
  | b :: rest => .ok (b, rest)

def readBytes (n : Nat) : Reader Bytes := fun input =>
  if n ≤ input.length then .ok (input.take n, input.drop n) else .error .endOfInput

/-- Writes a number in as few groups as possible. -/
def writeVarint (n : Nat) : Bytes :=
  if n < 128 then [n.toUInt8] else (n % 128 + 128).toUInt8 :: writeVarint (n / 128)

/-- Reads a number of at most the given number of groups, whose last possible group is at most
`top`. -/
def readVarint (top : Nat) : Nat → Reader Nat
  | 0 => throw .varint
  | groups + 1 => do
    let b ← readByte
    if b.toNat < 128 then
      if groups = 0 ∧ top < b.toNat then throw .varint else return b.toNat
    else
      let high ← readVarint top groups
      return b.toNat - 128 + 128 * high

/-- Reads a number of 32 bits. -/
def readWord : Reader Nat := readVarint 15 5

/-- Reads a number of 64 bits. -/
def readLong : Reader Nat := readVarint 1 10

/-- Folds the signed numbers onto the natural ones: 0, -1, 1, -2, … become 0, 1, 2, 3, … -/
def zigzag (n : Int64) : Nat :=
  if 0 ≤ n.toInt then 2 * n.toInt.toNat else 2 * (-n.toInt).toNat - 1

/-- Unfolds a natural number to a signed one. -/
def unzigzag (m : Nat) : Int64 :=
  Int64.ofInt (if m % 2 = 0 then (m / 2 : Nat) else -((m / 2 : Nat) + 1 : Int))

def writeInteger (n : Int64) : Bytes := writeVarint (zigzag n)

def readInteger : Reader Int64 := do return unzigzag (← readLong)

/-- Writes the `count` lowest bytes of a number, lowest first. -/
def littleEndian (n : Nat) : Nat → Bytes
  | 0 => []
  | count + 1 => (n % 256).toUInt8 :: littleEndian (n / 256) count

/-- The number with the given bytes, lowest first. -/
def ofLittleEndian : Bytes → Nat
  | [] => 0
  | b :: rest => b.toNat + 256 * ofLittleEndian rest

def writeDouble (d : Double) : Bytes := littleEndian d.bits.toNat 8

def readDouble : Reader Double := do return ⟨(ofLittleEndian (← readBytes 8)).toUInt64⟩

def writeBool (b : Bool) : Bytes := [if b then 1 else 0]

def readBool : Reader Bool := do
  match (← readByte).toNat with
  | 0 => return false
  | 1 => return true
  | _ => throw .bool

/-! ## Composite parts -/

/-- Writes a text: its length in bytes, then its bytes. -/
def writeText (s : String) : Bytes := writeVarint s.toUTF8.size ++ s.toUTF8.data.toList

def readText : Reader String := do
  let length ← readLong
  let bytes ← readBytes length
  match String.fromUTF8? ⟨bytes.toArray⟩ with
  | some s => return s
  | none => throw .utf8

/-- Writes an optional part: a mark, then the part if there is one. -/
def writeOption {α : Type} (write : α → Bytes) : Option α → Bytes
  | none => [0]
  | some a => 1 :: write a

def readOption {α : Type} (read : Reader α) : Reader (Option α) := do
  match (← readByte).toNat with
  | 0 => return none
  | 1 => return some (← read)
  | _ => throw .option

/-- Writes a sequence: its length, then its items. -/
def writeSequence {α : Type} (write : α → Bytes) (items : List α) : Bytes :=
  writeVarint items.length ++ items.flatMap write

def readItems {α : Type} (read : Reader α) : Nat → Reader (List α)
  | 0 => return []
  | n + 1 => do
    let item ← read
    let items ← readItems read n
    return item :: items

def readSequence {α : Type} (read : Reader α) : Reader (List α) := do
  let length ← readLong
  readItems read length

end CausalDoc.Wire
