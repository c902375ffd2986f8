import CausalDoc.Text.Quoted
import CausalDoc.Wire.Batch

/- What can go wrong when a document is used. -/

namespace CausalDoc

/-- A refused request. -/
inductive DocumentError where
  /-- A batch is malformed, or a new operation has a flaw. -/
  | decode (error : DecodeError)
  /-- No container has this name. -/
  | unknownContainer (id : ContainerId)
  /-- A container of one kind was asked for under the name of another. -/
  | wrongKind (expected found : ContainerKind)
  /-- A position, or the end of a range, lies outside the visible sequence. -/
  | indexOutOfBounds (index length : Nat)
  /-- An operation does not continue its peer's history. -/
  | outOfOrder (id : AtomId) (expected : Nat)
  /-- A reference to a container was to be written as a plain value. -/
  | containerValue
  /-- Frontiers name an atom that is not known. -/
  | unknownFrontier (id : AtomId)
  /-- A text does not name a container. -/
  | invalidContainerId (text : String)
  deriving DecidableEq, Repr

def DocumentError.message : DocumentError → String
  | decode e => e.message
  | unknownContainer id => s!"unknown container {id}"
  | wrongKind expected found => s!"expected a {expected} container, found {found}"
  | indexOutOfBounds index length => s!"index {index} out of bounds for length {length}"
  | outOfOrder id expected =>
    s!"operation {id} does not extend the log (next counter is {expected})"
  | containerValue => "container references cannot be written as values"
  | unknownFrontier id => s!"frontiers include unknown operation {id}"
  | invalidContainerId text => "invalid container id: " ++ Text.quoted text

/-- Reads the written form of a kind. -/
def ContainerKind.parse (s : String) : Except DocumentError ContainerKind :=
  match read? s with
  | some kind => .ok kind
  | none => .error (.invalidContainerId s)

/-- Reads the written form of a container's name. -/
def ContainerId.parse (s : String) : Except DocumentError ContainerId :=
  match read? s with
  | some id => .ok id
  | none => .error (.invalidContainerId s)

end CausalDoc
