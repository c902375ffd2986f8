import CausalDoc.Document.Basic

/- Local edits.

   An edit speaks of visible positions and field names. It is first turned into an
   action that speaks of atoms (`Edit.action?`), which fails on a position outside
   the sequence and may find that there is nothing to do. The action then becomes a
   new operation with the next counter, the next Lamport time and the frontiers as
   dependencies, is searched for flaws, applied and logged (`Document.commit`). -/

namespace CausalDoc

/-- A change that a user asks for. -/
inductive Edit where
  /-- Insert values into a list at an index. -/
  | insertValues (index : Nat) (values : List Value)
  /-- Insert a text at an index. -/
  | insertText (index : Nat) (text : String)
  /-- Create a container in a list at an index. -/
  | insertContainer (index : Nat) (kind : ContainerKind)
  /-- Delete elements of a list or a text from an index on. -/
  | deleteRange (index count : Nat)
  /-- Write a field of a map; no value removes it. -/
  | setField (key : String) (value : Option Value)
  /-- Create a container in a field of a map. -/
  | setContainer (key : String) (kind : ContainerKind)
  deriving DecidableEq, Repr

/-! ## Positions -/

namespace ContainerState

def length : ContainerState → Nat
  | list s => s.length
  | text s => s.length
  | map _ => 0

/-- What an insertion at a visible index is anchored to. -/
def anchorFor (state : ContainerState) (index : Nat) : Option AtomId :=
  match state with
  | list s => s.anchorFor index
  | text s => s.anchorFor index
  | map _ => none

def idsInRange (state : ContainerState) (index count : Nat) : List AtomId :=
  match state with
  | list s => s.idsInRange index count
  | text s => s.idsInRange index count
  | map _ => []

end ContainerState

namespace Edit

/-- The largest index there is; longer ranges are reported as ending there. -/
def lastIndex : Nat := 0xFFFFFFFFFFFFFFFF

/-- The action that the edit amounts to on a container in the given state, or nothing when there
is nothing to insert or delete. -/
def action? (state : ContainerState) : Edit → Except DocumentError (Option Action)
  | insertValues index values =>
    if state.length < index then .error (.indexOutOfBounds index state.length)
    else if values.isEmpty then .ok none
    else .ok (some (.insert (state.anchorFor index) (.values values)))
  | insertText index text =>
    if state.length < index then .error (.indexOutOfBounds index state.length)
    else if text.isEmpty then .ok none
    else .ok (some (.insert (state.anchorFor index) (.text text)))
  | insertContainer index kind =>
    if state.length < index then .error (.indexOutOfBounds index state.length)
    else .ok (some (.create (.after (state.anchorFor index)) kind))
  | deleteRange index count =>
    if state.length < index + count then
      .error (.indexOutOfBounds (min (index + count) lastIndex) state.length)
    else if count = 0 then .ok none
    else .ok (some (.delete (state.idsInRange index count)))
  | setField key value => .ok (some (.setField key value))
  | setContainer key kind => .ok (some (.create (.key key) kind))

end Edit

namespace Document

/-- The new operation that carries an action out, when the wall clock shows `wallTime`. -/
def draft (doc : Document) (container : ContainerId) (action : Action) (wallTime : Nat) :
    Operation where
  id := doc.log.nextId doc.peer
  lamport := doc.log.clock.nextLamport
  deps := doc.log.frontiers.toList
  container := container
  timestamp := if doc.config.recordTimestamps then doc.log.clock.now wallTime else 0
  action := action

/-- Registers the container that an operation creates, if it creates one. -/
def registerCreated (registry : Registry) (op : Operation) : Registry :=
  match op.created? with
  | some child => registry.register child
  | none => registry

/-- Carries an action out as a new operation, and gives the first atom of it. -/
def commit (doc : Document) (container : ContainerId) (action : Action) (wallTime : Nat) :
    Outcome AtomId :=
  if action.holdsContainer then doc.fail .containerValue
  else
    let op := doc.draft container action wallTime
    match op.flaw? with
    | some flaw => doc.fail (.decode (.invalidOperation op.id flaw))
    | none =>
      match doc.registry.resolve container with
      | .error e => doc.fail e
      | .ok (registry, state) =>
        let changed :=
          { doc with registry := registerCreated (registry.set container (state.apply op)) op }
        match doc.log.append op with
        | .error e => changed.fail e
        | .ok log =>
          let after := { changed with log }
          ⟨after, .ok op.id, after.notify .edited [container] doc.version, []⟩

/-- The state of a container; that of a new one before anything was written to it. -/
def stateAt (doc : Document) (id : ContainerId) : ContainerState :=
  (doc.registry.get? id).getD (.new id.kind)

/-- Makes an edit, and gives the first atom of the operation if one was needed. -/
def edit (doc : Document) (container : ContainerId) (edit : Edit) (wallTime : Nat) :
    Outcome (Option AtomId) :=
  match edit.action? (doc.stateAt container) with
  | .error e => doc.fail e
  | .ok none => doc.unchanged none
  | .ok (some action) => (doc.commit container action wallTime).map some

def push (doc : Document) (container : ContainerId) (value : Value) (wallTime : Nat) :
    Outcome (Option AtomId) :=
  doc.edit container (.insertValues (doc.stateAt container).length [value]) wallTime

end Document

end CausalDoc
