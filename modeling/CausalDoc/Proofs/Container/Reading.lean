import CausalDoc.Container.State
import CausalDoc.Proofs.Operation
import CausalDoc.Proofs.Sequence.Delete
import CausalDoc.Proofs.Sequence.Insert

/- What an operation says to its container.

   Lists and texts are sequences, and to a sequence an operation says one of two things:
   insert a run of elements behind an anchor, or delete elements. How an operation is
   read as an insertion differs between the two (`listInsertion?`, `textInsertion?`); all
   else is the same, so it is said once for any such `Reading`. To a map an operation
   says one thing: write a field. -/

namespace CausalDoc

/-- A run of new elements and what the first of them is anchored to. -/
structure Insertion (α : Type) where
  anchor : Option AtomId
  values : List α

namespace Operation

/-- What the operation inserts into a list. A new container is inserted as a reference. -/
def listInsertion? (op : Operation) : Option (Insertion Value) :=
  match op.action with
  | .insert anchor (.values vs) => some ⟨anchor, vs⟩
  | .create (.after anchor) kind => some ⟨anchor, [.container (.created op.id kind)]⟩
  | _ => none

/-- What the operation inserts into a text. -/
def textInsertion? (op : Operation) : Option (Insertion Char) :=
  match op.action with
  | .insert anchor (.text t) => some ⟨anchor, t.toList⟩
  | _ => none

/-- The field of a map that the operation writes, and the value. -/
def fieldWrite? (op : Operation) : Option (String × Option Value) :=
  match op.action with
  | .setField key value => some (key, value)
  | .create (.key key) kind => some (key, some (.container (.created op.id kind)))
  | _ => none

/-- What the operation is anchored to. -/
def anchor? (op : Operation) : Option AtomId :=
  match op.action with
  | .insert anchor _ => anchor
  | .create (.after anchor) _ => anchor
  | _ => none

/-- The elements that the operation deletes. -/
def targets (op : Operation) : List AtomId :=
  match op.action with
  | .delete ids => ids
  | _ => []

/-- The elements that the operation refers to. They need not be among its dependencies. -/
def named (op : Operation) : List AtomId := op.anchor?.toList ++ op.targets

end Operation

/-- `read` takes operations as insertions into a sequence: one element for each atom, behind the
operation's anchor. -/
structure Reading {α : Type} (read : Operation → Option (Insertion α)) : Prop where
  length : ∀ {op : Operation} {i : Insertion α}, read op = some i → i.values.length = op.length
  anchor : ∀ {op : Operation} {i : Insertion α}, read op = some i → op.anchor? = i.anchor
  targets : ∀ {op : Operation} {i : Insertion α}, read op = some i → op.targets = []

theorem reading_list : Reading Operation.listInsertion? := by
  have split : ∀ {op : Operation} {i : Insertion Value}, op.listInsertion? = some i →
      i.values.length = op.length ∧ op.anchor? = i.anchor ∧ op.targets = [] := by
    intro op i h
    unfold Operation.listInsertion? at h
    split at h
    · next anchor vs haction =>
      cases h
      simp [Operation.length, Operation.anchor?, Operation.targets, haction, Action.length,
        Inserted.length]
    · next anchor kind haction =>
      cases h
      simp [Operation.length, Operation.anchor?, Operation.targets, haction, Action.length]
    · cases h
  exact ⟨fun h => (split h).1, fun h => (split h).2.1, fun h => (split h).2.2⟩

theorem reading_text : Reading Operation.textInsertion? := by
  have split : ∀ {op : Operation} {i : Insertion Char}, op.textInsertion? = some i →
      i.values.length = op.length ∧ op.anchor? = i.anchor ∧ op.targets = [] := by
    intro op i h
    unfold Operation.textInsertion? at h
    split at h
    · next anchor t haction =>
      cases h
      simp [Operation.length, Operation.anchor?, Operation.targets, haction, Action.length,
        Inserted.length]
    · cases h
  exact ⟨fun h => (split h).1, fun h => (split h).2.1, fun h => (split h).2.2⟩

/-! ## Sequences -/

namespace Sequence

variable {α : Type} {s : Sequence α}

/-- What becomes of a sequence by an operation that is read as `insertion`. An insertion whose
anchor is not there has no effect. -/
def take (s : Sequence α) (op : Operation) (insertion : Option (Insertion α)) : Sequence α :=
  match insertion with
  | some i =>
    if s.hasAnchor i.anchor then s.insertRun op.id op.stamp i.anchor i.values else s
  | none => s.deleteAll op.targets

theorem Tidy.take (h : s.Tidy) (op : Operation) (insertion : Option (Insertion α)) :
    (s.take op insertion).Tidy := by
  unfold Sequence.take
  split
  · next i =>
    split
    · next hanchor => exact h.insertRun hanchor i.values
    · exact h
  · exact h.deleteAll op.targets

theorem contains_insertEach {id : AtomId} {stamp : Stamp} {parent : Option AtomId} {a : AtomId}
    (values : List α) (h : (s.insertEach id stamp parent values).contains a = true) :
    (∃ n < values.length, a = id.forward n) ∨ s.contains a = true := by
  obtain ⟨e, he⟩ := contains_iff.1 h
  rcases (get?_insertEach_iff values).1 he with he | ⟨-, n, v, hv, ha, -⟩
  · exact .inr (contains_iff.2 ⟨e, he⟩)
  · exact .inl ⟨n, (List.getElem?_eq_some_iff.1 hv).1, ha⟩

theorem Tidy.contains_take {read : Operation → Option (Insertion α)} (hread : Reading read)
    (h : s.Tidy) {op : Operation} {a : AtomId} (ha : (s.take op (read op)).contains a = true) :
    s.contains a = true ∨ op.covers a = true := by
  unfold Sequence.take at ha
  split at ha
  · next i hi =>
    split at ha
    · next hanchor =>
      rw [h.insertRun_eq_insertEach hanchor] at ha
      rcases contains_insertEach i.values ha with ⟨n, hn, rfl⟩ | ha
      · exact .inr (Operation.covers_forward (hread.length hi ▸ hn))
      · exact .inl ha
    · exact .inl ha
  · rw [contains_deleteAll] at ha
    exact .inl ha

end Sequence

/-! ## Maps -/

namespace Fields

/-- What becomes of a map by an operation. -/
def take (fields : Fields) (op : Operation) : Fields :=
  match op.fieldWrite? with
  | some (key, value) => fields.write key ⟨value, op.stamp, op.id⟩
  | none => fields

/-- A write gets through when no write of the field has a later stamp. -/
theorem get?_write (fields : Fields) (key : String) (field : Field) (k : String) :
    (fields.write key field).winners.get? k =
      if k = key ∧ ∀ current, fields.winners.get? key = some current → current.stamp < field.stamp
      then some field else fields.winners.get? k := by
  unfold write
  cases hget : fields.winners.get? key with
  | none => simp [OrderedMap.get?_insert]
  | some current =>
    by_cases hlt : current.stamp < field.stamp
    · simp [hlt, OrderedMap.get?_insert]
    · simp [hlt]

end Fields

/-! ## States -/

namespace ContainerState

variable {op : Operation}

/-- What becomes of a container by an operation: nothing, when something it refers to is not
there. -/
def take (state : ContainerState) (op : Operation) : ContainerState :=
  if state.canApply op then state.apply op else state

theorem take_list (s : Sequence Value) (hfits : op.action.flaw? .list = none) :
    (list s).take op = list (s.take op op.listInsertion?) := by
  cases haction : op.action with
  | insert anchor content =>
    rw [haction] at hfits
    cases content with
    | text t => cases hfits
    | values vs =>
      simp only [take, canApply, apply, Sequence.take, Operation.listInsertion?, haction]
      split <;> rfl
  | delete ids =>
    simp [take, canApply, apply, Sequence.take, Operation.listInsertion?, Operation.targets,
      haction]
  | setField key value =>
    rw [haction] at hfits
    cases hfits
  | create slot kind =>
    rw [haction] at hfits
    cases slot with
    | key name => cases hfits
    | after anchor =>
      simp only [take, canApply, apply, Sequence.take, Operation.listInsertion?, haction,
        Sequence.insert]
      split <;> rfl

theorem take_text (s : Sequence Char) (hfits : op.action.flaw? .text = none) :
    (text s).take op = text (s.take op op.textInsertion?) := by
  cases haction : op.action with
  | insert anchor content =>
    rw [haction] at hfits
    cases content with
    | values vs => cases hfits
    | text t =>
      simp only [take, canApply, apply, Sequence.take, Operation.textInsertion?, haction]
      split <;> rfl
  | delete ids =>
    simp [take, canApply, apply, Sequence.take, Operation.textInsertion?, Operation.targets,
      haction]
  | setField key value =>
    rw [haction] at hfits
    cases hfits
  | create slot kind =>
    rw [haction] at hfits
    cases slot <;> cases hfits

theorem take_map (f : Fields) (hfits : op.action.flaw? .map = none) :
    (map f).take op = map (f.take op) := by
  cases haction : op.action with
  | insert anchor content =>
    rw [haction] at hfits
    cases content <;> cases hfits
  | delete ids =>
    rw [haction] at hfits
    by_cases hids : ids.isEmpty <;> simp [Action.flaw?, hids] at hfits
  | setField key value =>
    simp [take, canApply, apply, Fields.take, Operation.fieldWrite?, haction]
  | create slot kind =>
    rw [haction] at hfits
    cases slot with
    | after anchor => cases hfits
    | key name => simp [take, canApply, apply, Fields.take, Operation.fieldWrite?, haction]

/-- Whether an element stands in the container, deleted or not. -/
def holds : ContainerState → AtomId → Bool
  | list s, id => s.contains id
  | text s, id => s.contains id
  | map _, _ => false

/-- The sequence of a list or a text is tidy. -/
def Tidy : ContainerState → Prop
  | list s => s.Tidy
  | text s => s.Tidy
  | map _ => True

@[simp] theorem kind_new (kind : ContainerKind) : (new kind).kind = kind := by
  cases kind <;> rfl

theorem tidy_new (kind : ContainerKind) : (new kind).Tidy := by
  cases kind with
  | map => trivial
  | list | text => exact Sequence.tidy_empty

theorem holds_new (kind : ContainerKind) (id : AtomId) : (new kind).holds id = false := by
  cases kind <;> rfl

theorem kind_take (state : ContainerState) (hfits : op.action.flaw? state.kind = none) :
    (state.take op).kind = state.kind := by
  cases state with
  | list s => rw [take_list s hfits]; rfl
  | text s => rw [take_text s hfits]; rfl
  | map f => rw [take_map f hfits]; rfl

theorem Tidy.take {state : ContainerState} (h : state.Tidy)
    (hfits : op.action.flaw? state.kind = none) : (state.take op).Tidy := by
  cases state with
  | list s =>
    rw [take_list s hfits]
    exact Sequence.Tidy.take h op _
  | text s =>
    rw [take_text s hfits]
    exact Sequence.Tidy.take h op _
  | map f =>
    rw [take_map f hfits]
    trivial

theorem Tidy.holds_take {state : ContainerState} (h : state.Tidy)
    (hfits : op.action.flaw? state.kind = none) {a : AtomId}
    (ha : (state.take op).holds a = true) : state.holds a = true ∨ op.covers a = true := by
  cases state with
  | list s =>
    rw [take_list s hfits] at ha
    exact Sequence.Tidy.contains_take reading_list h ha
  | text s =>
    rw [take_text s hfits] at ha
    exact Sequence.Tidy.contains_take reading_text h ha
  | map f =>
    rw [take_map f hfits] at ha
    cases ha

end ContainerState

end CausalDoc
