import CausalDoc.Operation.Basic

/- What can be wrong with an operation by itself.

   Every operation that comes from outside, and every one made here, is searched
   for flaws before it has any effect. `flaw?` names the first one in a fixed order;
   an operation without a flaw is called sound. -/

namespace CausalDoc

/-- A reason to refuse an operation. -/
inductive Flaw where
  /-- It inserts nothing. -/
  | emptyInsert
  /-- It inserts more atoms than counters exist. -/
  | insertTooLong
  /-- Its counters or Lamport times would leave 32 bits. -/
  | counterOverflow
  /-- It lists one of its own atoms, or a later one of its peer, as a dependency. -/
  | dependsOnFuture
  /-- A plain value of it holds a reference to a container. -/
  | strayReference
  /-- It inserts values elsewhere than into a list, or text elsewhere than into a text. -/
  | insertKind
  /-- It deletes nothing. -/
  | emptyDelete
  /-- It deletes elements of a map. -/
  | deleteOnMap
  /-- It writes a field of something that is not a map. -/
  | fieldOutsideMap
  /-- It puts a container where its parent has no such slot. -/
  | slotKind
  deriving DecidableEq, Repr

def Flaw.message : Flaw → String
  | emptyInsert => "empty insert"
  | insertTooLong => "insert too long"
  | counterOverflow => "counter overflow"
  | dependsOnFuture => "depends on itself or its future"
  | strayReference => "container reference outside a container slot"
  | insertKind => "insert content does not match container kind"
  | emptyDelete => "empty delete"
  | deleteOnMap => "sequence delete on a map"
  | fieldOutsideMap => "field write on a non-map container"
  | slotKind => "container slot does not match parent kind"

/-- What is wrong with an action on a container of some kind. -/
def Action.flaw? (action : Action) (kind : ContainerKind) : Option Flaw :=
  match action with
  | .insert _ content =>
    match content, kind with
    | .values _, .list | .text _, .text => none
    | _, _ => some .insertKind
  | .delete targets =>
    if targets.isEmpty then some .emptyDelete
    else if kind = .map then some .deleteOnMap
    else none
  | .setField .. => if kind = .map then none else some .fieldOutsideMap
  | .create slot _ =>
    match slot, kind with
    | .after _, .list | .key _, .map => none
    | _, _ => some .slotKind

/-- The first thing that is wrong with an operation. Counters and Lamport times have 32 bits, and
so have the ones right behind the operation. -/
def Operation.flaw? (op : Operation) : Option Flaw :=
  if op.length = 0 then some .emptyInsert
  else if 0x100000000 ≤ op.length then some .insertTooLong
  else if 0x100000000 ≤ op.id.counter + op.length ∨ 0x100000000 ≤ op.lamport + op.length then
    some .counterOverflow
  else if op.deps.any fun d => d.peer = op.id.peer && op.id.counter ≤ d.counter then
    some .dependsOnFuture
  else if op.action.holdsContainer then some .strayReference
  else op.action.flaw? op.container.kind

/-- An operation without a flaw. -/
abbrev Operation.Sound (op : Operation) : Prop := op.flaw? = none

end CausalDoc
