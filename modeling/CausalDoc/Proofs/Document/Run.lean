import CausalDoc.Proofs.Document.Turns
import CausalDoc.Proofs.Store.Growth

/- What a document goes through.

   A document is asked for edits, is given byte strings, and lets subscribers in and out
   (`Request`). It applies the one operation that an edit makes, or what is performed while a
   batch is worked off (`Document.applied`). A request either applies nothing and changes
   nothing, or the store takes what it applies, each operation in its turn, and all
   subscribers are told the same (`Lawful.effect`). Any number of requests leaves the
   document lawful (`Lawful.after`). So whatever is asked of a document,
   what it knows is never lost or changed (`Reachable.only_grows`). -/

namespace CausalDoc

/-- What can be asked of a document. -/
inductive Request where
  /-- An edit, made when the wall clock shows `wallTime`. -/
  | edit (container : ContainerId) (edit : Edit) (wallTime : Nat)
  /-- Bytes to be received. -/
  | receive (bytes : Wire.Bytes)
  /-- To let a subscriber in. -/
  | subscribe
  /-- To let the subscriber with this number go. -/
  | unsubscribe (number : Nat)

/-- What an edit asks for has its width. Bytes may be any. -/
def Request.Writable : Request → Prop
  | .edit _ change wallTime => change.Writable ∧ wallTime < 0x10000000000000000
  | _ => True

namespace Document

def next (doc : Document) : Request → Document
  | .edit container edit wallTime => (doc.edit container edit wallTime).document
  | .receive bytes => (doc.receive bytes).document
  | .subscribe => doc.subscribe.document
  | .unsubscribe number => (doc.unsubscribe number).document

def deliveries (doc : Document) : Request → List Delivery
  | .edit container edit wallTime => (doc.edit container edit wallTime).deliveries
  | .receive bytes => (doc.receive bytes).deliveries
  | .subscribe => doc.subscribe.deliveries
  | .unsubscribe number => (doc.unsubscribe number).deliveries

/-- The request was an edit that made an operation, or a batch of which something was applied. -/
def Progresses (doc : Document) : Request → Prop
  | .edit container edit wallTime =>
    ∃ id, (doc.edit container edit wallTime).result = .ok (some id)
  | .receive bytes => ∃ status, (doc.receive bytes).result = .ok status ∧ 0 < status.applied
  | .subscribe | .unsubscribe _ => False

/-- The operations that a request applies, in the order in which they are applied. -/
def applied (doc : Document) : Request → List Operation
  | .edit container edit wallTime =>
    match edit.action? (doc.stateAt container), (doc.edit container edit wallTime).result with
    | .ok (some action), .ok (some _) => [doc.draft container action wallTime]
    | _, _ => []
  | .receive bytes =>
    match Batch.decode bytes with
    | .ok batch => doc.performed batch.operations
    | .error _ => []
  | .subscribe | .unsubscribe _ => []

def after (doc : Document) (requests : List Request) : Document := requests.foldl next doc

theorem after_cons (doc : Document) (request : Request) (requests : List Request) :
    doc.after (request :: requests) = (doc.next request).after requests := rfl

variable {doc : Document} {request : Request} {requests : List Request}

theorem subscribers_next (h : doc.Lawful) (request : Request) :
    (doc.next request).subscribers =
      match request with
      | .subscribe => doc.subscribers.add.2
      | .unsubscribe number => (doc.subscribers.remove number).2
      | _ => doc.subscribers := by
  cases request with
  | edit container edit wallTime =>
    unfold next
    dsimp only
    rcases edit_outcome h.store container edit wallTime with
      ⟨result, hedit, -⟩ | ⟨action, -, -, -, hedit⟩
    · rw [hedit]
    · rw [hedit]
      rfl
  | receive bytes =>
    have hkept : ∀ {d : Document} {op : Operation}, (d.advance op).1.subscribers = d.subscribers := by
      intro d op
      unfold advance
      split <;> rfl
    exact receive_invariant (P := fun d _ => d.subscribers = doc.subscribers) doc bytes
      (fun _ _ _ hd => hkept.trans hd) (fun _ _ => rfl) fun _ _ => rfl
  | subscribe | unsubscribe number => rfl

/-- What a request can do. -/
inductive Effect (doc : Document) (request : Request) : Prop where
  /-- It applies nothing, leaves the store, and tells nobody. -/
  | idle : ¬ doc.Progresses request → doc.applied request = [] →
      (doc.next request).store = doc.store → doc.deliveries request = [] → Effect doc request
  /-- It makes progress: the store takes what it applies, and all subscribers are told the same. -/
  | progress (origin : Origin) (containers : List ContainerId) :
      doc.Progresses request → doc.applied request ≠ [] →
      doc.store.AdmitsAll (doc.applied request) →
      (doc.next request).store = doc.store.absorbAll (doc.applied request) →
      (origin = .received ↔ ∃ bytes, request = .receive bytes) →
      (containers.Pairwise fun a b => compare a b = .lt) →
      (∀ id, id ∈ containers ↔ ∃ op ∈ doc.applied request, op.container = id) →
      (doc.deliveries request = doc.subscribers.present.map fun s =>
        ⟨s, ⟨origin, containers, doc.version, (doc.next request).version⟩⟩) →
      Effect doc request

namespace Lawful

theorem next (h : doc.Lawful) (hw : request.Writable) : (doc.next request).Lawful := by
  cases request with
  | edit container edit wallTime => exact h.edit container hw.1 hw.2
  | receive bytes => exact h.receive bytes
  | subscribe | unsubscribe number => exact ⟨h.peer, h.advances, h.stored, h.pending, h.parked⟩

theorem after (h : doc.Lawful) (hw : ∀ request ∈ requests, request.Writable) :
    (doc.after requests).Lawful := by
  induction requests generalizing doc with
  | nil => exact h
  | cons request requests ih =>
    exact ih (h.next (hw request List.mem_cons_self)) fun r hr => hw r (List.mem_cons_of_mem _ hr)

theorem effect_edit (h : doc.Lawful) (container : ContainerId) (edit : Edit) (wallTime : Nat) :
    doc.Effect (.edit container edit wallTime) := by
  rcases edit_outcome h.store container edit wallTime with
    ⟨result, hedit, hnone⟩ | ⟨action, haction, hadmits, -, hedit⟩
  · refine .idle ?_ ?_ (congrArg (fun outcome => outcome.document.store) hedit)
      (congrArg Outcome.deliveries hedit)
    · intro hprogress
      obtain ⟨id, hid⟩ := hprogress
      rw [hedit] at hid
      exact hnone id hid
    · unfold applied
      dsimp only
      rw [hedit]
      split
      · next hsome => exact absurd hsome (hnone _)
      · rfl
  · have happlied : doc.applied (.edit container edit wallTime) =
        [doc.draft container action wallTime] := by
      unfold applied
      dsimp only
      rw [hedit, haction]
    refine .progress .edited [container] ⟨_, congrArg Outcome.result hedit⟩ ?_ ?_ ?_ (by simp)
      (List.pairwise_singleton _ _) ?_ ?_
    · rw [happlied]
      exact List.cons_ne_nil _ _
    · rw [happlied]
      exact ⟨hadmits, trivial⟩
    · rw [happlied]
      exact congrArg (fun outcome => outcome.document.store) hedit
    · intro id
      rw [happlied, List.mem_singleton]
      refine ⟨fun heq => ⟨_, List.mem_singleton_self _, heq.symm⟩, fun hgiven => ?_⟩
      obtain ⟨op, hop, rfl⟩ := hgiven
      rw [List.mem_singleton.1 hop]
      rfl
    · rw [deliveries, Document.next, hedit]
      rfl

theorem effect_receive (h : doc.Lawful) (bytes : Wire.Bytes) : doc.Effect (.receive bytes) := by
  cases hdecode : Batch.decode bytes with
  | error cause =>
    have hreceive : doc.receive bytes = doc.fail (.decode cause) := by
      rw [Document.receive, hdecode]
    refine .idle ?_ ?_ (congrArg (fun outcome => outcome.document.store) hreceive)
      (congrArg Outcome.deliveries hreceive)
    · intro hprogress
      obtain ⟨status, hstatus, -⟩ := hprogress
      rw [hreceive] at hstatus
      cases hstatus
    · unfold applied
      dsimp only
      rw [hdecode]
  | ok batch =>
    obtain ⟨last, -, hdrain⟩ := Intake.exists_turns (Intake.start doc) batch.operations
    obtain ⟨hdocument, hresult, hdeliveries⟩ := receive_result hdecode hdrain
    have haccounts := (Intake.start doc).accounts_drain batch.operations
    rw [hdrain] at haccounts
    have happlied : doc.applied (.receive bytes) = doc.performed batch.operations := by
      unfold applied
      dsimp only
      rw [hdecode]
    have hcount : last.status.applied = (doc.applied (.receive bytes)).length := by
      rw [happlied]
      exact haccounts.applied.trans (Nat.zero_add _)
    have hstore : (doc.next (.receive bytes)).store =
        doc.store.absorbAll (doc.applied (.receive bytes)) := by
      rw [happlied]
      exact (congrArg Document.store hdocument).trans haccounts.store
    -- what was only parked or known already does not count as progress
    by_cases hpos : 0 < last.status.applied
    · refine .progress .received last.touched.toList ⟨_, hresult, hpos⟩ ?_ ?_ hstore ?_
        last.touched.ascending ?_ ?_
      · rwa [hcount, List.length_pos_iff] at hpos
      · rw [happlied]
        exact h.admits_performed (Batch.decode_sound hdecode)
      · exact ⟨fun _ => ⟨bytes, rfl⟩, fun _ => rfl⟩
      · intro id
        rw [happlied, OrderedSet.mem_toList, haccounts.touched id]
        exact or_iff_right (OrderedSet.not_mem_empty id)
      · have hnext : doc.next (.receive bytes) = last.document := hdocument
        rw [deliveries, hdeliveries, if_pos hpos, notify, ← hnext, subscribers_next h]
    · have hnone : doc.applied (.receive bytes) = [] := List.length_eq_zero_iff.1 (by omega)
      rw [hnone] at hstore
      refine .idle ?_ hnone hstore (by rw [deliveries, hdeliveries, if_neg hpos])
      intro hprogress
      obtain ⟨status, hstatus, hsome⟩ := hprogress
      rw [hresult] at hstatus
      cases hstatus
      exact hpos hsome

theorem effect (h : doc.Lawful) : ∀ request : Request, doc.Effect request
  | .edit container edit wallTime => h.effect_edit container edit wallTime
  | .receive bytes => h.effect_receive bytes
  | .subscribe | .unsubscribe _ => .idle False.elim rfl rfl rfl

/-- The store takes what a request applies, and nothing else. -/
theorem store_next (h : doc.Lawful) (request : Request) :
    doc.store.AdmitsAll (doc.applied request) ∧
      (doc.next request).store = doc.store.absorbAll (doc.applied request) := by
  cases h.effect request with
  | idle _ hnone hstore _ =>
    rw [hnone]
    exact ⟨trivial, hstore⟩
  | progress _ _ _ _ hadmits hstore => exact ⟨hadmits, hstore⟩

/-- Requests only add to the store. -/
theorem advances_after (h : doc.Lawful) (hw : ∀ request ∈ requests, request.Writable) :
    doc.store.Advances (doc.after requests).store := by
  induction requests generalizing doc with
  | nil => exact .refl
  | cons request requests ih =>
    obtain ⟨hadmits, hstore⟩ := h.store_next request
    have hfirst : doc.store.Advances (doc.next request).store := by
      rw [hstore]
      exact hadmits.advances
    exact hfirst.trans (ih (h.next (hw request List.mem_cons_self))
      fun r hr => hw r (List.mem_cons_of_mem _ hr))

end Lawful

/-- Whatever is asked of a reachable document, what it knows only grows.

The version does not shrink, and every stored atom keeps its operation and its Lamport time. A
registered container stays registered and keeps its kind; every element of a sequence stays, with its
value, its stamp and its parent, and once deleted it stays deleted; a field that was written is won
by the same write or by one with a later stamp. -/
theorem Reachable.only_grows (h : doc.Reachable) (hw : ∀ request ∈ requests, request.Writable) :
    doc.store.Grows (doc.after requests).store :=
  (h.lawful.advances_after hw).grows h.lawful.store

/-- Two letters that peer 1 typed. -/
def typed : Document :=
  ((new Config.standard 1).edit (.root "t" .text) (.insertText 0 "ab") 5).document

/-- Peer 1 in another history, where it typed three other letters. -/
def forged : Operation :=
  ⟨⟨1, 0⟩, 0, [], .root "t" .text, 0, .insert none (.text "xyz")⟩

/-- The other history comes, the first letter is deleted, and the other history comes again. -/
def contested : List Request :=
  [.receive (Batch.mk .updates [forged]).encode, .edit (.root "t" .text) (.deleteRange 0 1) 5,
    .receive (Batch.mk .updates [forged]).encode]

/-- The third letter of the other history is new, but the two that are there stay as they are, and the
first one stays deleted. -/
theorem only_grows_contested :
    typed.store.Grows (typed.after contested).store ∧
      (typed.textAt (.root "t" .text)).toList = ['a', 'b'] ∧
      ((typed.after contested).textAt (.root "t" .text)).toList = ['b', 'z'] := by
  have h : typed.Reachable := .edit _ _ _ (.new Config.standard 1 (by decide)) trivial (by decide)
  refine ⟨Reachable.only_grows h fun request hrequest => ?_, by decide +kernel, by decide +kernel⟩
  simp only [contested, List.mem_cons, List.not_mem_nil, or_false] at hrequest
  rcases hrequest with rfl | rfl | rfl
  · trivial
  · exact ⟨trivial, by decide⟩
  · trivial

end Document

end CausalDoc
