import CausalDoc.Proofs.Document.Refusal
import CausalDoc.Proofs.Store.InTurn
import CausalDoc.Proofs.Store.Stamps

/- What an edit that is made does.

   An edit is carried out as an operation that speaks of atoms and stamps, and yet it does
   to the visible content what its positions and field names say (`Edit.Shows`): the new
   Lamport time is above all that the document holds, also above what was forged or
   deleted, so new elements come right behind their anchor and a new write wins. Beyond
   that one operation is logged, it is the one frontier, and nothing else changes
   (`Reachable.makes_edit`). -/

namespace CausalDoc

/-- The field has the value, and the other fields are as they were. -/
structure Fields.Updated (f g : Fields) (key : String) (value : Option Value) : Prop where
  value : g.get? key = value
  others : ∀ k, k ≠ key → g.winners.get? k = f.winners.get? k

namespace Edit

/-- The container that the edit creates when its operation is called `id`. -/
def created? (id : AtomId) : Edit → Option ContainerId
  | insertContainer _ kind | setContainer _ kind => some (.created id kind)
  | insertValues .. | insertText .. | deleteRange .. | setField .. => none

/-- What the edit says about the content before and after it, when its operation is called `id`. -/
def Shows (id : AtomId) : Edit → ContainerState → ContainerState → Prop
  | insertValues index values, .list s, .list t =>
    s.Spliced t index 0 (Sequence.numbered id values)
  | insertText index text, .text s, .text t =>
    s.Spliced t index 0 (Sequence.numbered id text.toList)
  | insertContainer index kind, .list s, .list t =>
    s.Spliced t index 0 [(id, .container (.created id kind))]
  | deleteRange index count, .list s, .list t => s.Spliced t index count []
  | deleteRange index count, .text s, .text t => s.Spliced t index count []
  | setField key value, .map f, .map g => f.Updated g key value
  | setContainer key kind, .map f, .map g =>
    f.Updated g key (some (.container (.created id kind)))
  | _, _, _ => False

end Edit

/-! ## One container -/

theorem Sequence.Tidy.spliced_take {α : Type} {read : Operation → Option (Insertion α)}
    (hread : Reading read) {s : Sequence α} (h : s.Tidy) {op : Operation} {index : Nat}
    {values : List α} (hop : read op = some ⟨s.anchorFor index, values⟩) (hindex : index ≤ s.length)
    (hbelow : ∀ a e, s.elements.get? a = some e → e.stamp.lamport < op.lamport)
    (hnew : ∀ a, op.covers a = true → s.contains a = false) :
    s.Spliced (s.take op (read op)) index 0 (numbered op.id values) := by
  have hfresh : s.Fresh op.id values.length := by
    intro n hn
    rw [hread.length hop] at hn
    exact hnew _ (Operation.covers_forward hn)
  have holder : s.Older op.stamp := fun a e hget => Stamp.lt_of_lamport_lt (hbelow a e hget)
  rw [hop, Sequence.take, if_pos (h.hasAnchor_anchorFor hindex)]
  exact h.spliced_insertRun hindex holder values hfresh

theorem Fields.updated_take {f : Fields} {op : Operation} {key : String} {value : Option Value}
    (hop : op.fieldWrite? = some (key, value))
    (hbelow : ∀ k field, f.winners.get? k = some field → field.stamp.lamport < op.lamport) :
    f.Updated (f.take op) key value := by
  have hget : ∀ k, (f.take op).winners.get? k =
      if k = key then some ⟨value, op.stamp, op.id⟩ else f.winners.get? k := by
    intro k
    rw [take, hop]
    refine (get?_write f key _ k).trans (if_congr (and_iff_left ?_) rfl rfl)
    exact fun current hcurrent => Stamp.lt_of_lamport_lt (hbelow key current hcurrent)
  refine ⟨?_, fun k hk => ?_⟩
  · rw [get?, hget, if_pos rfl]
    rfl
  · rw [hget, if_neg hk]

namespace Edit.Makes

variable {edit : Edit} {state : ContainerState} {op : Operation}

theorem created?_eq (h : edit.Makes state op.action) : op.created? = edit.created? op.id := by
  unfold Operation.created?
  generalize op.action = action at h
  cases h <;> rfl

/-- A container that takes the newest operation shows what the edit says. -/
theorem shows_take (h : edit.Makes state op.action) (htidy : state.Tidy)
    (hfits : op.action.flaw? state.kind = none) (hbelow : state.Below op.lamport)
    (hnew : ∀ a, op.covers a = true → state.holds a = false) :
    edit.Shows op.id state (state.take op) := by
  -- a container takes only the actions of its kind, the others do not fit
  cases state with
  | list s =>
    rw [ContainerState.take_list s hfits]
    generalize haction : op.action = action at h hfits
    cases h with
    | @insertValues index values hindex _ =>
      have hop : op.listInsertion? = some ⟨s.anchorFor index, values⟩ := by
        rw [Operation.listInsertion?, haction]
        rfl
      exact Sequence.Tidy.spliced_take reading_list htidy hop hindex hbelow hnew
    | @insertContainer index kind hindex =>
      have hop : op.listInsertion? =
          some ⟨s.anchorFor index, [.container (.created op.id kind)]⟩ := by
        rw [Operation.listInsertion?, haction]
        rfl
      exact Sequence.Tidy.spliced_take reading_list htidy hop hindex hbelow hnew
    | @deleteRange index count hrange _ =>
      have hop : s.take op op.listInsertion? = s.deleteAll (s.idsInRange index count) := by
        rw [Operation.listInsertion?, haction, Sequence.take, Operation.targets, haction]
        rfl
      rw [hop]
      exact Sequence.Tidy.spliced_deleteAll htidy hrange
    | insertText _ _ | setField | setContainer => cases hfits
  | text s =>
    rw [ContainerState.take_text s hfits]
    generalize haction : op.action = action at h hfits
    cases h with
    | @insertText index text hindex _ =>
      have hop : op.textInsertion? = some ⟨s.anchorFor index, text.toList⟩ := by
        rw [Operation.textInsertion?, haction]
        rfl
      exact Sequence.Tidy.spliced_take reading_text htidy hop hindex hbelow hnew
    | @deleteRange index count hrange _ =>
      have hop : s.take op op.textInsertion? = s.deleteAll (s.idsInRange index count) := by
        rw [Operation.textInsertion?, haction, Sequence.take, Operation.targets, haction]
        rfl
      rw [hop]
      exact Sequence.Tidy.spliced_deleteAll htidy hrange
    | insertValues _ _ | insertContainer _ | setField | setContainer => cases hfits
  | map f =>
    rw [ContainerState.take_map f hfits]
    generalize haction : op.action = action at h hfits
    cases h with
    | setField =>
      exact Fields.updated_take (by rw [Operation.fieldWrite?, haction]) hbelow
    | setContainer =>
      exact Fields.updated_take (by rw [Operation.fieldWrite?, haction]) hbelow
    | insertValues _ _ | insertText _ _ | insertContainer _ | deleteRange _ _ => cases hfits

end Edit.Makes

/-! ## The document -/

namespace Document

variable {doc : Document} {container : ContainerId} {edit : Edit} {id : AtomId} {wallTime : Nat}

/-- What an edit did that made the operation called `id`. -/
structure Made (doc : Document) (container : ContainerId) (edit : Edit) (id : AtomId)
    (after : Document) : Prop where
  /-- The name is the next one of the peer. -/
  name : id = doc.log.nextId doc.peer
  /-- The container shows what the edit says. -/
  shows : edit.Shows id (doc.stateAt container) (after.stateAt container)
  /-- What the edit creates was not there, and is there now, empty. -/
  created : ∀ child, edit.created? id = some child →
    doc.registry.get? child = none ∧ after.check child child.kind = .ok () ∧
      after.registry.get? child = some (.new child.kind)
  /-- One operation was appended to the log. -/
  logged : ∃ op : Operation, op.id = id ∧ op.container = container ∧ op.length = edit.atoms ∧
    doc.log.append op = .ok after.log
  once : after.log.operationCount = doc.log.operationCount + 1
  /-- Its last atom is the one frontier. -/
  frontier : after.log.frontiers.toList = [id.forward (edit.atoms - 1)]
  /-- The other containers are as they were. -/
  others : ∀ other, doc.registry.states.contains other = true → other ≠ container →
    after.registry.get? other = doc.registry.get? other

theorem Lawful.made_write (h : doc.Lawful) {op : Operation} (ha : doc.store.Admits op)
    (hmakes : edit.Makes (doc.stateAt op.container) op.action)
    (hname : op.id = doc.log.nextId doc.peer) (hlamport : op.lamport = doc.log.clock.nextLamport)
    (hdeps : op.deps = doc.log.frontiers.toList) :
    doc.Made op.container edit op.id (doc.write op) := by
  have hcoherent := h.store
  have hne := ha.created?_ne hcoherent.log
  have hlength : op.length = edit.atoms := hmakes.length_eq
  have hget : ∀ other, (doc.registry.absorb op).get? other =
      if other = op.container then some ((doc.registry.stateOf other).take op)
      else if op.created? = some other then some (doc.registry.stateOf other)
      else doc.registry.get? other := Registry.get?_absorb hne
  refine ⟨hname, ?_, fun child hchild => ?_, ⟨op, rfl, rfl, hlength, ?_⟩, ?_, ?_, ?_⟩
  · have hafter : (doc.write op).stateAt op.container = (doc.stateAt op.container).take op := by
      refine (Registry.stateOf_absorb hne op.container).trans ?_
      rw [if_pos rfl]
      rfl
    -- nothing here is as new, so the operation stands right behind its anchor and wins its field
    have hbelow : (doc.stateAt op.container).Below op.lamport := by
      rw [hlamport]
      exact h.advances.below op.container
    rw [hafter]
    exact hmakes.shows_take (hcoherent.stateOf op.container).2.1 (hcoherent.fits ha) hbelow
      fun a hcovers => hcoherent.not_holds_new ha op.container hcovers
  · rw [← hmakes.created?_eq] at hchild
    have hnone : doc.registry.get? child = none := hcoherent.get?_created ha hchild
    have hthere : (doc.write op).registry.get? child = some (.new child.kind) := by
      have hother : child ≠ op.container := fun heq => hne (heq ▸ hchild)
      refine (hget child).trans ?_
      rw [if_neg hother, if_pos hchild, Registry.stateOf, hnone, Option.getD_none]
    refine ⟨hnone, check_iff.2 ⟨rfl, ?_⟩, hthere⟩
    exact Registry.isResolvable_iff.2 (.inr (OrderedMap.contains_iff.2 ⟨_, hthere⟩))
  · exact Log.append_eq ha.log.next
  · exact Log.operationCount_push doc.log op
  · rw [← hlength]
    show (doc.log.frontiers.advance op.deps op.lastId).toList = [op.lastId]
    rw [hdeps, Frontiers.toList_advance_toList]
  · intro other hregistered hother
    refine (hget other).trans ?_
    rw [if_neg hother, if_neg]
    -- a container that was there cannot be the one that the operation creates
    intro hchild
    obtain ⟨state, hstate⟩ := OrderedMap.contains_iff.1 hregistered
    have hnone : doc.registry.get? other = none := hcoherent.get?_created ha hchild
    rw [show doc.registry.get? other = some state from hstate] at hnone
    cases hnone

/-- Every edit that makes an operation does exactly what it says. -/
theorem Reachable.makes_edit (h : doc.Reachable) (container : ContainerId) (edit : Edit)
    (wallTime : Nat) (id : AtomId)
    (hmade : (doc.edit container edit wallTime).result = .ok (some id)) :
    doc.Made container edit id (doc.edit container edit wallTime).document := by
  rcases edit_outcome h.lawful.store container edit wallTime with
    ⟨result, hedit, hnone⟩ | ⟨action, haction, hadmits, -, hedit⟩
  · rw [hedit] at hmade
    exact absurd hmade (hnone id)
  · rw [hedit] at hmade ⊢
    cases hmade
    exact h.lawful.made_write hadmits (Edit.makes_of_action? haction) rfl rfl rfl

/-- A character typed between two others gets the name behind theirs. -/
theorem makes_edit_typed :
    let doc := ((new Config.standard 1).edit (.root "t" .text) (.insertText 0 "ab") 5).document
    let outcome := doc.edit (.root "t" .text) (.insertText 1 "x") 6
    outcome.result = .ok (some ⟨1, 2⟩) ∧
      (doc.textAt (.root "t" .text)).Spliced (outcome.document.textAt (.root "t" .text)) 1 0
        [(⟨1, 2⟩, 'x')] ∧
      outcome.document.log.frontiers.toList = [⟨1, 2⟩] ∧
      outcome.document.log.operationCount = 2 := by
  intro doc outcome
  have h : doc.Reachable := .edit _ _ _ (.new Config.standard 1 (by decide)) trivial (by decide)
  have hafter : outcome.document.Reachable := .edit _ _ _ h trivial (by decide)
  have hresult : outcome.result = .ok (some ⟨1, 2⟩) := by decide
  have hmade := Reachable.makes_edit h (.root "t" .text) (.insertText 1 "x") 6 ⟨1, 2⟩ hresult
  have hshows := hmade.shows
  rw [stateAt_text h.lawful.store rfl, stateAt_text hafter.lawful.store rfl] at hshows
  exact ⟨hresult, hshows, hmade.frontier, hmade.once⟩

end Document

end CausalDoc
