import CausalDoc.Container.State
import CausalDoc.Error

/- All containers of a document.

   Containers do not hold each other: a nested container is referred to by name and
   looked up here. A root comes into being when it is first written to, every other
   container when the operation that creates it is applied. -/

namespace CausalDoc

/-- The containers of a document, by name. -/
structure Registry where
  /-- The states. -/
  states : OrderedMap ContainerId ContainerState
  deriving DecidableEq, Repr, Inhabited

namespace Registry

def empty : Registry := ⟨.empty⟩

def get? (registry : Registry) (id : ContainerId) : Option ContainerState :=
  registry.states.get? id

/-- Whether a name can be used: it is registered, or it is the name of a root. -/
def isResolvable (registry : Registry) (id : ContainerId) : Bool :=
  id.isRoot || registry.states.contains id

/-- Registers a new container, unless there is one of that name. -/
def register (registry : Registry) (id : ContainerId) : Registry :=
  match registry.get? id with
  | some _ => registry
  | none => ⟨registry.states.insert id (.new id.kind)⟩

/-- The state of a container that is to be written to; a root is created if need be. -/
def resolve (registry : Registry) (id : ContainerId) :
    Except DocumentError (Registry × ContainerState) :=
  match registry.get? id with
  | some state => .ok (registry, state)
  | none =>
    if id.isRoot then .ok (registry.register id, .new id.kind)
    else .error (.unknownContainer id)

def set (registry : Registry) (id : ContainerId) (state : ContainerState) : Registry :=
  ⟨registry.states.insert id state⟩

/-- The roots that exist, ascending. -/
def roots (registry : Registry) : List ContainerId :=
  registry.states.keys.filter ContainerId.isRoot

def size (registry : Registry) : Nat := registry.states.size

def isEmpty (registry : Registry) : Bool := registry.states.isEmpty

end Registry

end CausalDoc
