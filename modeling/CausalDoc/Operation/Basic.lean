import CausalDoc.Value.Basic

/- Operations: the unit of history that replicas exchange.

   An operation occupies one or more atoms. Inserting `n` values, or a text of `n`
   characters, is one operation of `n` atoms with consecutive counters and
   consecutive Lamport times, each atom anchored right after the one before it;
   every other operation is a single atom.

   `suffix` cuts the atoms below a counter off. Its first atom is anchored to the
   atom before it, where it was anchored all along, so a suffix says the same about
   its atoms as the whole operation does. -/

namespace CausalDoc

/-- What an insertion puts into a sequence. -/
inductive Inserted where
  /-- Values of a list, an atom each. -/
  | values (values : List Value)
  /-- A text, an atom for each character. -/
  | text (text : String)
  deriving DecidableEq, Repr

/-- Where a new container is put inside its parent. -/
inductive Slot where
  /-- In a list, right after an element, or at the head. -/
  | after (anchor : Option AtomId)
  /-- In a map, under a field name. -/
  | key (name : String)
  deriving DecidableEq, Repr

/-- What an operation does to its container. -/
inductive Action where
  /-- Inserts right after an element, or at the head. -/
  | insert (anchor : Option AtomId) (content : Inserted)
  /-- Removes elements, given by the atoms that inserted them. -/
  | delete (targets : List AtomId)
  /-- Writes a field of a map; writing no value removes the field. -/
  | setField (key : String) (value : Option Value)
  /-- Creates a container, named by the operation, and puts a reference to it. -/
  | create (slot : Slot) (kind : ContainerKind)
  deriving DecidableEq, Repr

/-- An operation. -/
structure Operation where
  /-- The first atom. -/
  id : AtomId
  /-- The Lamport time of the first atom. -/
  lamport : Nat
  /-- The frontiers of its creator when it was created. -/
  deps : List AtomId
  /-- The container it changes. -/
  container : ContainerId
  /-- Wall-clock milliseconds at its creation. Nothing is decided by it. -/
  timestamp : Nat
  /-- What it does. -/
  action : Action
  deriving DecidableEq, Repr

/-! ## Inserted content -/

namespace Inserted

/-- The number of atoms. -/
def length : Inserted → Nat
  | values vs => vs.length
  | text s => s.toList.length

/-- The content without its first `n` atoms. -/
def drop (n : Nat) : Inserted → Inserted
  | values vs => values (vs.drop n)
  | text s => text (String.ofList (s.toList.drop n))

/-- Equality that takes doubles as numbers. -/
def same : Inserted → Inserted → Bool
  | values a, values b => Value.itemsAgree Double.same a b
  | text a, text b => a = b
  | _, _ => false

end Inserted

/-! ## Actions -/

namespace Action

def length : Action → Nat
  | insert _ content => content.length
  | _ => 1

/-- Whether a plain value in the action holds a reference to a container. -/
def holdsContainer : Action → Bool
  | insert _ (.values vs) => Value.itemsHoldContainer vs
  | setField _ (some v) => v.holdsContainer
  | _ => false

def same : Action → Action → Bool
  | insert a c, insert b d => a = b && c.same d
  | setField k (some v), setField l (some w) => k = l && v.same w
  | a, b => a = b

end Action

/-! ## Operations -/

namespace Operation

def length (op : Operation) : Nat := op.action.length

/-- The counter after the last atom. -/
def stop (op : Operation) : Nat := op.id.counter + op.length

def lastId (op : Operation) : AtomId := op.id.forward (op.length - 1)

/-- The stamp of the first atom. -/
def stamp (op : Operation) : Stamp := ⟨op.lamport, op.id.peer⟩

/-- Whether an atom belongs to the operation. -/
def covers (op : Operation) (id : AtomId) : Bool :=
  id.peer = op.id.peer && op.id.counter ≤ id.counter && id.counter < op.stop

/-- The container that the operation creates. -/
def created? (op : Operation) : Option ContainerId :=
  match op.action with
  | .create _ kind => some (.created op.id kind)
  | _ => none

/-- Every atom that has to be known before the operation can be applied: those it lists, its
predecessor of the same peer, and the creation of its container. -/
def dependencies (op : Operation) : List AtomId :=
  op.deps ++ op.id.previous?.toList ++ op.container.creator?.toList

/-- The part of the operation from `counter` on. Only an insertion has parts; the first atom
left is anchored to the atom before it. -/
def suffix (op : Operation) (counter : Nat) : Operation :=
  let skipped := counter - op.id.counter
  if skipped = 0 then op
  else
    { op with
      id := op.id.forward skipped
      lamport := op.lamport + skipped
      action :=
        match op.action with
        | .insert _ content => .insert (some (op.id.forward (skipped - 1))) (content.drop skipped)
        | action => action }

def same (a b : Operation) : Bool :=
  a.id = b.id && a.lamport = b.lamport && a.deps = b.deps && a.container = b.container &&
    a.timestamp = b.timestamp && a.action.same b.action

end Operation

end CausalDoc
