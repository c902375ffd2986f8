import CausalDoc.Container.Fields
import CausalDoc.Sequence

/- The state of a container.

   A list is a sequence of values, a text a sequence of characters, a map a set of
   fields. `canApply` tells whether all that an operation refers to is there;
   operations meant for another kind of container have no effect. A reference to a
   nested container is a value like any other here; the nested content is kept
   elsewhere. -/

namespace CausalDoc

inductive ContainerState where
  /-- A list. -/
  | list (elements : Sequence Value)
  /-- A map. -/
  | map (fields : Fields)
  /-- A text. -/
  | text (elements : Sequence Char)
  deriving DecidableEq, Repr

namespace ContainerState

def new : ContainerKind → ContainerState
  | .list => list .empty
  | .map => map .empty
  | .text => text .empty

def kind : ContainerState → ContainerKind
  | list _ => .list
  | map _ => .map
  | text _ => .text

def list? : ContainerState → Option (Sequence Value)
  | list elements => some elements
  | _ => none

def map? : ContainerState → Option Fields
  | map fields => some fields
  | _ => none

def text? : ContainerState → Option (Sequence Char)
  | text elements => some elements
  | _ => none

/-- Whether all that an operation refers to is there. A deletion may name elements that are
not. -/
def canApply (state : ContainerState) (op : Operation) : Bool :=
  match state, op.action with
  | list s, .insert anchor _ => s.hasAnchor anchor
  | list s, .create (.after anchor) _ => s.hasAnchor anchor
  | list _, .delete _ => true
  | map _, .setField .. => true
  | map _, .create (.key _) _ => true
  | text s, .insert anchor _ => s.hasAnchor anchor
  | text _, .delete _ => true
  | _, _ => false

def apply (state : ContainerState) (op : Operation) : ContainerState :=
  match state, op.action with
  | list s, .insert anchor (.values vs) => list (s.insertRun op.id op.stamp anchor vs)
  | list s, .create (.after anchor) kind =>
    list (s.insert op.id op.stamp anchor (.container (.created op.id kind)))
  | list s, .delete targets => list (s.deleteAll targets)
  | map f, .setField key value => map (f.write key ⟨value, op.stamp, op.id⟩)
  | map f, .create (.key key) kind =>
    map (f.write key ⟨some (.container (.created op.id kind)), op.stamp, op.id⟩)
  | text s, .insert anchor (.text t) => text (s.insertRun op.id op.stamp anchor t.toList)
  | text s, .delete targets => text (s.deleteAll targets)
  | state, _ => state

end ContainerState

end CausalDoc
