import CausalDoc.Operation.Basic
import CausalDoc.Ordered.Map

/- The fields of a replicated map: for each field name the write with the latest stamp.

   A removal is a write of no value and follows the same rule, so the outcome
   depends on the writes alone and not on the order in which they arrive. -/

namespace CausalDoc

/-- The winning write of a field. -/
structure Field where
  /-- What was written; nothing for a removal. -/
  value : Option Value
  /-- The stamp of the write. -/
  stamp : Stamp
  /-- The operation that wrote. -/
  writer : AtomId
  deriving DecidableEq, Repr

/-- The fields of a replicated map. -/
structure Fields where
  /-- The winning write of every field that was ever written, by field name. -/
  winners : OrderedMap String Field
  deriving DecidableEq, Repr, Inhabited

namespace Fields

def empty : Fields := ⟨.empty⟩

/-- Takes a write; it wins over an earlier stamp only. -/
def write (fields : Fields) (key : String) (field : Field) : Fields :=
  match fields.winners.get? key with
  | some current =>
    if current.stamp < field.stamp then ⟨fields.winners.insert key field⟩ else fields
  | none => ⟨fields.winners.insert key field⟩

/-- The value of a field. -/
def get? (fields : Fields) (key : String) : Option Value :=
  (fields.winners.get? key).bind Field.value

/-- The operation that wrote the present value of a field, or removed it. -/
def winner? (fields : Fields) (key : String) : Option AtomId :=
  (fields.winners.get? key).map Field.writer

/-- The fields that have a value, in the order of their names. -/
def toList (fields : Fields) : List (String × Value) :=
  fields.winners.entries.filterMap fun e => e.2.value.map fun v => (e.1, v)

/-- The names of the fields that have a value, ascending. -/
def keys (fields : Fields) : List String := fields.toList.map (·.1)

def size (fields : Fields) : Nat := fields.toList.length

end Fields

end CausalDoc
