import CausalDoc.Atom
import CausalDoc.Ordered.Map

/- Replicated sequences, which lists and texts are made of.

   An element is named by the atom that inserted it and stands in a tree: its parent
   is the element it was inserted right after, or the head. The order of the sequence
   walks this tree depth first, among the children of one parent from the latest
   stamp to the earliest, so the newest of several insertions at one place comes
   first. The order depends on the elements alone and not on how they arrived.

   The walk is not repeated for every insertion. The order is kept as a list, and
   a run of new elements is spliced in at the one place where the walk meets it:
   behind the parent, or behind the last descendant of the sibling before it.
   Deleted elements stay where they are, so that an insertion anchored to them keeps
   a place. -/

namespace CausalDoc

structure Element (α : Type) where
  /-- What was inserted. -/
  value : α
  /-- The stamp of the inserting atom. -/
  stamp : Stamp
  /-- Whether it has been deleted. -/
  deleted : Bool
  deriving DecidableEq, Repr

/-- A replicated sequence. -/
structure Sequence (α : Type) where
  /-- The elements, deleted ones included. -/
  elements : OrderedMap AtomId (Element α)
  /-- The children of each parent, the latest stamp first; no parent stands for the head. -/
  children : OrderedMap (Option AtomId) (List AtomId)
  /-- The order of the sequence, deleted elements included. -/
  order : List AtomId
  /-- The number of elements that are not deleted. -/
  visible : Nat
  deriving DecidableEq, Repr

namespace Sequence

variable {α : Type}

def empty : Sequence α := ⟨.empty, .empty, [], 0⟩

instance : Inhabited (Sequence α) := ⟨empty⟩

/-! ## Places -/

/-- Whether an element is there, deleted or not. -/
def contains (s : Sequence α) (id : AtomId) : Bool := s.elements.contains id

/-- Whether something can be inserted after `anchor`. -/
def hasAnchor (s : Sequence α) (anchor : Option AtomId) : Bool := anchor.all s.contains

/-- The children of an element or of the head. -/
def childrenOf (s : Sequence α) (parent : Option AtomId) : List AtomId :=
  (s.children.get? parent).getD []

/-- The place of an element in the order. -/
def position (s : Sequence α) (id : AtomId) : Nat := s.order.findIdx fun x => x = id

/-- Follows the last child at most `depth` times. -/
def lastDescendantWithin (s : Sequence α) : Nat → AtomId → AtomId
  | 0, id => id
  | depth + 1, id =>
    match (s.childrenOf (some id)).getLast? with
    | some last => s.lastDescendantWithin depth last
    | none => id

/-- The element that ends the subtree of `id`; the number of elements bounds its depth. -/
def lastDescendant (s : Sequence α) (id : AtomId) : AtomId :=
  s.lastDescendantWithin s.elements.size id

def isLater (s : Sequence α) (stamp : Stamp) (id : AtomId) : Bool :=
  (s.elements.get? id).any fun e => stamp < e.stamp

/-- The siblings that stand before a new child of `parent`: those with a later stamp. -/
def laterSiblings (s : Sequence α) (parent : Option AtomId) (stamp : Stamp) : List AtomId :=
  (s.childrenOf parent).takeWhile (s.isLater stamp)

/-- Where in the order a new child of `parent` belongs. -/
def placeFor (s : Sequence α) (parent : Option AtomId) (stamp : Stamp) : Nat :=
  match (s.laterSiblings parent stamp).getLast? with
  | some sibling => s.position (s.lastDescendant sibling) + 1
  | none =>
    match parent with
    | some p => s.position p + 1
    | none => 0

/-! ## Insertion -/

/-- Adds an element to the tree, with the given children of its parent. -/
def addElement (s : Sequence α) (id : AtomId) (stamp : Stamp) (value : α)
    (parent : Option AtomId) (siblings : List AtomId) : Sequence α :=
  { s with
    elements := s.elements.insert id ⟨value, stamp, false⟩
    children := s.children.insert parent siblings
    visible := s.visible + 1 }

def splice (s : Sequence α) (place : Nat) (ids : List AtomId) : Sequence α :=
  { s with order := s.order.take place ++ ids ++ s.order.drop place }

/-- A run of insertions under way: `fresh` lists elements that are in the tree already and will
go into the order at `place`. -/
structure Run (α : Type) where
  /-- The sequence so far. -/
  sequence : Sequence α
  /-- What the next element is anchored to. -/
  parent : Option AtomId
  /-- The elements still to go into the order. -/
  fresh : List AtomId
  /-- Where they go. -/
  place : Nat

def Run.flush (run : Run α) : Sequence α := run.sequence.splice run.place run.fresh

/-- Takes the next element of a run. A known element only becomes the anchor of the following
one. A new element behind a new one is its only child and comes right after it. -/
def Run.next (run : Run α) (id : AtomId) (stamp : Stamp) (value : α) : Run α :=
  if run.sequence.contains id then ⟨run.flush, some id, [], run.place⟩
  else if run.fresh.isEmpty then
    let s := run.sequence
    let before := s.laterSiblings run.parent stamp
    let siblings := before ++ id :: (s.childrenOf run.parent).drop before.length
    ⟨s.addElement id stamp value run.parent siblings, some id, [id],
      s.placeFor run.parent stamp⟩
  else
    ⟨run.sequence.addElement id stamp value run.parent [id], some id, run.fresh ++ [id],
      run.place⟩

/-- Takes all elements of a run, the first with name `id` and stamp `stamp`. -/
def Run.extend (run : Run α) (id : AtomId) (stamp : Stamp) : List α → Run α
  | [] => run
  | value :: values => (run.next id stamp value).extend (id.forward 1) (stamp.forward 1) values

/-- Inserts a run: elements with consecutive names and stamps, the first after `parent` and each
other after the one before it. Elements that are known already stay as they are. -/
def insertRun (s : Sequence α) (id : AtomId) (stamp : Stamp) (parent : Option AtomId)
    (values : List α) : Sequence α :=
  (Run.extend ⟨s, parent, [], 0⟩ id stamp values).flush

/-- Inserts one element after `parent`. -/
def insert (s : Sequence α) (id : AtomId) (stamp : Stamp) (parent : Option AtomId)
    (value : α) : Sequence α :=
  s.insertRun id stamp parent [value]

/-! ## Deletion -/

def delete (s : Sequence α) (id : AtomId) : Sequence α :=
  match s.elements.get? id with
  | some e =>
    if e.deleted then s
    else
      { s with
        elements := s.elements.insert id { e with deleted := true }
        visible := s.visible - 1 }
  | none => s

def deleteAll (s : Sequence α) (ids : List AtomId) : Sequence α := ids.foldl delete s

/-! ## Reading -/

/-- The value of an element that is not deleted. -/
def value? (s : Sequence α) (id : AtomId) : Option α :=
  match s.elements.get? id with
  | some e => if e.deleted then none else some e.value
  | none => none

/-- The elements that are not deleted, in order. -/
def visibleIds (s : Sequence α) : List AtomId := s.order.filter fun id => (s.value? id).isSome

/-- The values that are not deleted, in order. -/
def toList (s : Sequence α) : List α := s.order.filterMap s.value?

def length (s : Sequence α) : Nat := s.visible

def idAt? (s : Sequence α) (index : Nat) : Option AtomId := s.visibleIds[index]?

def get? (s : Sequence α) (index : Nat) : Option α := (s.idAt? index).bind s.value?

/-- The `count` visible elements from an index on. -/
def idsInRange (s : Sequence α) (index count : Nat) : List AtomId :=
  (s.visibleIds.drop index).take count

/-- What an insertion at a visible index is anchored to: the element to the left. -/
def anchorFor (s : Sequence α) (index : Nat) : Option AtomId :=
  if index = 0 then none else s.idAt? (index - 1)

end Sequence

end CausalDoc
