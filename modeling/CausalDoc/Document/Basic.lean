import CausalDoc.Container.Registry
import CausalDoc.Log.Basic
import CausalDoc.Pending

/- Documents: one replica with all it holds.

   A document is a value. Whatever changes it gives the changed document together
   with what else came of it: a result or an error, the events delivered to
   subscribers, and the warnings (`Outcome`). The document of an outcome is the
   document afterwards also when there was an error. -/

namespace CausalDoc

/-! ## Configuration -/

/-- How a document is set up. -/
structure Config where
  /-- The peer that the document writes as; nothing to be given a fresh one. -/
  peer : Option Nat
  /-- Whether local operations record the wall clock. Otherwise their timestamp is 0. -/
  recordTimestamps : Bool
  /-- The number of parked operations above which a warning is due. -/
  pendingThreshold : Nat
  deriving DecidableEq, Repr

/-- The usual set-up. -/
def Config.standard : Config := ⟨none, true, 1024⟩

/-! ## Events -/

/-- What caused a change. -/
inductive Origin where
  /-- An edit made on this document. -/
  | edited
  /-- Operations received from elsewhere. -/
  | received
  deriving DecidableEq, Repr

/-- What a subscriber is told about a change. -/
structure Event where
  /-- What caused it. -/
  origin : Origin
  /-- The containers touched, ascending. -/
  containers : List ContainerId
  /-- The version before the change. -/
  before : VersionVector
  /-- The version after it. -/
  after : VersionVector
  deriving DecidableEq, Repr

/-- Those who want to be told, in the order in which they came. -/
structure Subscribers where
  /-- The number the next one gets. -/
  next : Nat
  /-- The present ones. -/
  present : List Nat
  deriving DecidableEq, Repr, Inhabited

namespace Subscribers

def none : Subscribers := ⟨0, []⟩

/-- Lets one more in and gives its number. -/
def add (subscribers : Subscribers) : Nat × Subscribers :=
  (subscribers.next, ⟨subscribers.next + 1, subscribers.present ++ [subscribers.next]⟩)

/-- Lets one go; tells whether it was there. -/
def remove (subscribers : Subscribers) (number : Nat) : Bool × Subscribers :=
  (subscribers.present.contains number,
    { subscribers with present := subscribers.present.filter (· != number) })

end Subscribers

/-- An event on its way to a subscriber. -/
structure Delivery where
  /-- The subscriber. -/
  subscriber : Nat
  /-- The event. -/
  event : Event
  deriving DecidableEq, Repr

/-! ## Warnings -/

/-- What may deserve attention though it is no error. -/
inductive Warning where
  /-- An operation was dropped because its Lamport time is not above a dependency's. -/
  | notNewer (id : AtomId) (lamport : Nat) (dependency : AtomId)
  /-- An operation was parked because nothing creates its container. -/
  | unknownContainer (id : AtomId) (container : ContainerId)
  /-- An operation refers to something its container does not hold. -/
  | noEffect (id : AtomId) (container : ContainerId)
  /-- More operations are parked than the threshold allows. -/
  | pendingGrew (pending threshold : Nat)
  /-- A merge was given up. -/
  | mergeFailed (error : DocumentError)
  deriving DecidableEq, Repr

def Warning.message : Warning → String
  | notNewer .. => "operation is not newer than its dependency"
  | unknownContainer .. => "operation targets an unknown container"
  | noEffect .. => "operation has no effect on its container"
  | pendingGrew .. => "pending buffer grew past threshold"
  | mergeFailed _ => "merge failed"

/-! ## Documents -/

/-- A replica of a structured document. -/
structure Document where
  /-- The peer it writes as. -/
  peer : Nat
  /-- How it was set up. -/
  config : Config
  /-- The applied operations. -/
  log : Log
  /-- The containers. -/
  registry : Registry
  /-- The operations that cannot be applied yet. -/
  pending : Pending
  /-- Those who are told about changes. -/
  subscribers : Subscribers
  deriving DecidableEq, Repr

/-- What comes of a step. -/
structure Outcome (α : Type) where
  /-- The document afterwards. -/
  document : Document
  /-- The result, or why there is none. -/
  result : Except DocumentError α
  /-- The events delivered, in order. -/
  deliveries : List Delivery
  /-- The warnings, in order. -/
  warnings : List Warning

def Outcome.map {α β : Type} (f : α → β) (outcome : Outcome α) : Outcome β :=
  ⟨outcome.document, outcome.result.map f, outcome.deliveries, outcome.warnings⟩

namespace Document

/-- An empty document. It writes as the configured peer, or else as `freshPeer`. -/
def new (config : Config) (freshPeer : Nat) : Document :=
  ⟨config.peer.getD freshPeer, config, .empty, .empty, .empty, .none⟩

def version (doc : Document) : VersionVector := doc.log.version

def fail {α : Type} (doc : Document) (error : DocumentError) : Outcome α :=
  ⟨doc, .error error, [], []⟩

def unchanged {α : Type} (doc : Document) (result : α) : Outcome α := ⟨doc, .ok result, [], []⟩

/-- Tells all subscribers about a change since the version `before`. -/
def notify (doc : Document) (origin : Origin) (containers : List ContainerId)
    (before : VersionVector) : List Delivery :=
  doc.subscribers.present.map fun s => ⟨s, ⟨origin, containers, before, doc.version⟩⟩

/-- Lets a subscriber in and gives its number. -/
def subscribe (doc : Document) : Outcome Nat :=
  let (number, subscribers) := doc.subscribers.add
  unchanged { doc with subscribers } number

/-- Lets a subscriber go; tells whether it was there. -/
def unsubscribe (doc : Document) (number : Nat) : Outcome Bool :=
  let (found, subscribers) := doc.subscribers.remove number
  unchanged { doc with subscribers } found

/-- The elements of a list; none before anything was written to it. -/
def listAt (doc : Document) (id : ContainerId) : Sequence Value :=
  ((doc.registry.get? id).bind ContainerState.list?).getD .empty

/-- The fields of a map; none before anything was written to it. -/
def mapAt (doc : Document) (id : ContainerId) : Fields :=
  ((doc.registry.get? id).bind ContainerState.map?).getD .empty

/-- The elements of a text; none before anything was written to it. -/
def textAt (doc : Document) (id : ContainerId) : Sequence Char :=
  ((doc.registry.get? id).bind ContainerState.text?).getD .empty

/-- Whether a container can be used as one of a given kind. -/
def check (doc : Document) (id : ContainerId) (kind : ContainerKind) :
    Except DocumentError Unit :=
  if id.kind ≠ kind then .error (.wrongKind kind id.kind)
  else if doc.registry.isResolvable id then .ok ()
  else .error (.unknownContainer id)

end Document

end CausalDoc
