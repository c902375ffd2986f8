import CausalDoc.Proofs.Store.Reflects

/- What stands in a container, told by the log alone.

   When every operation refers to elements that operations inserted into its container
   (`Aimed`) and that are in its causal past (`Log.Grounded`), every insertion has a place
   (`Aimed.placed`) and every deletion has its effect (`Aimed.deleted_iff`). So a sequence
   that mirrors the log presents it: its elements are the atoms of the logged insertions,
   with their values, and visible are those that no logged deletion names
   (`Mirrors.presents`). -/

namespace CausalDoc

namespace Operation

variable {op : Operation}

/-- Whether the operation puts elements into a list or a text. -/
def inserts (op : Operation) : Bool :=
  match op.action with
  | .insert .. => true
  | .create (.after _) _ => true
  | _ => false

theorem inserts_iff_list (hfits : op.action.flaw? .list = none) :
    op.inserts = true ↔ ∃ i, op.listInsertion? = some i := by
  unfold inserts listInsertion?
  cases haction : op.action with
  | insert anchor content =>
    rw [haction] at hfits
    cases content with
    | values vs => simp
    | text t => cases hfits
  | delete ids => simp
  | setField key value => simp
  | create slot kind => cases slot <;> simp

theorem inserts_iff_text (hfits : op.action.flaw? .text = none) :
    op.inserts = true ↔ ∃ i, op.textInsertion? = some i := by
  unfold inserts textInsertion?
  cases haction : op.action with
  | insert anchor content =>
    rw [haction] at hfits
    cases content with
    | values vs => cases hfits
    | text t => simp
  | delete ids => simp
  | setField key value => simp
  | create slot kind =>
    rw [haction] at hfits
    cases slot <;> cases hfits

theorem inserts_eq_false_map (hfits : op.action.flaw? .map = none) : op.inserts = false := by
  unfold inserts
  cases haction : op.action with
  | insert anchor content =>
    rw [haction] at hfits
    cases content <;> cases hfits
  | delete ids => rfl
  | setField key value => rfl
  | create slot kind =>
    rw [haction] at hfits
    cases slot with
    | key name => rfl
    | after anchor => cases hfits

end Operation

/-- Operations refer to elements that operations insert into the same container. -/
def Aimed (Written : Operation → Prop) : Prop :=
  ∀ op, Written op → ∀ a ∈ op.named,
    ∃ o, Written o ∧ o.container = op.container ∧ o.inserts = true ∧ o.covers a = true

/-- In the container, `read` takes the stored operations that insert elements as insertions, and no
others. -/
def ReadsIn {α : Type} (read : Operation → Option (Insertion α)) (log : Log) (id : ContainerId) :
    Prop :=
  ∀ o, log.Stored o → o.container = id → (o.inserts = true ↔ ∃ i, read o = some i)

theorem Log.Coherent.readsIn_list {log : Log} (h : log.Coherent) {id : ContainerId}
    (hkind : id.kind = .list) : ReadsIn Operation.listInsertion? log id := by
  intro o ho hid
  have hfits := (h.sound ho).fits
  rw [hid, hkind] at hfits
  exact Operation.inserts_iff_list hfits

theorem Log.Coherent.readsIn_text {log : Log} (h : log.Coherent) {id : ContainerId}
    (hkind : id.kind = .text) : ReadsIn Operation.textInsertion? log id := by
  intro o ho hid
  have hfits := (h.sound ho).fits
  rw [hid, hkind] at hfits
  exact Operation.inserts_iff_text hfits

/-- What stands in a container was inserted there by a stored operation. -/
theorem Shows.exists_insertion {log : Log} {id : ContainerId} {state : ContainerState} {a : AtomId}
    (h : Shows log id state) (hlog : log.Coherent) (ha : state.holds a = true) :
    ∃ o, log.Stored o ∧ o.container = id ∧ o.inserts = true ∧ o.covers a = true := by
  cases state with
  | list s =>
    obtain ⟨o, hplaced, hcovers⟩ := (h.2.contains_iff reading_list).1 ha
    obtain ⟨ho, hid, hi⟩ := hplaced.stored
    exact ⟨o, ho, hid, (hlog.readsIn_list h.1 o ho hid).2 hi, hcovers⟩
  | text s =>
    obtain ⟨o, hplaced, hcovers⟩ := (h.2.contains_iff reading_text).1 ha
    obtain ⟨ho, hid, hi⟩ := hplaced.stored
    exact ⟨o, ho, hid, (hlog.readsIn_text h.1 o ho hid).2 hi, hcovers⟩
  | map f => cases ha

theorem Log.Grounded.lamport_lt {log : Log} (hg : log.Grounded) (hlog : log.Coherent)
    {op o : Operation} {a : AtomId} (hop : log.Stored op) (ha : a ∈ op.named) (ho : log.Stored o)
    (hcovers : o.covers a = true) : o.lamport < op.lamport := by
  obtain ⟨k, l, hk, hl, hlt⟩ :=
    (hg op hop a ha (hlog.contains_of_covers ho hcovers)).lamport_lt hlog
  have hget := hlog.get?_eq_some_iff.2 ⟨ho, hcovers⟩
  rw [Log.lamport?_eq_some_iff.2 ⟨o, hget, rfl⟩, Option.some.injEq] at hk
  rw [hlog.lamport?_id hop, Option.some.injEq] at hl
  omega

/-! ## What the log says -/

section Presence

variable {α : Type} (read : Operation → Option (Insertion α))

/-- A stored operation inserts the value `v` under the name `a`. -/
def Inserts (log : Log) (id : ContainerId) (a : AtomId) (v : α) : Prop :=
  ∃ op i n, log.Stored op ∧ op.container = id ∧ read op = some i ∧ i.values[n]? = some v ∧
    a = op.id.forward n

/-- A stored operation deletes the element `a`. -/
def Deletes (log : Log) (id : ContainerId) (a : AtomId) : Prop :=
  ∃ d, log.Stored d ∧ d.container = id ∧ a ∈ d.targets

/-- The sequence presents what the log says of the container. -/
structure Presents (log : Log) (id : ContainerId) (s : Sequence α) : Prop where
  /-- Its elements are the atoms of the stored operations that insert into the container. -/
  held : ∀ a, s.contains a = true ↔
    ∃ op, log.Stored op ∧ op.container = id ∧ op.inserts = true ∧ op.covers a = true
  /-- Each has the value that its operation gave it. -/
  element : ∀ a v, (∃ e, s.elements.get? a = some e ∧ e.value = v) ↔ Inserts read log id a v
  /-- Those are visible that no stored operation deletes. -/
  visible : ∀ a v, s.value? a = some v ↔ Inserts read log id a v ∧ ¬ Deletes log id a
  /-- The order lists every element once. -/
  order : s.order.Nodup ∧ ∀ a, a ∈ s.order ↔ s.contains a = true
  /-- The content lists the visible elements, in order. -/
  content : s.visibleIds.Sublist s.order ∧
    (∀ a, a ∈ s.visibleIds ↔ (∃ v, Inserts read log id a v) ∧ ¬ Deletes log id a) ∧
    s.toList.map some = s.visibleIds.map s.value? ∧ s.length = s.visibleIds.length

variable {read} {log : Log} {id : ContainerId} {s : Sequence α} {op : Operation}
  (hread : Reading read) (hreads : ReadsIn read log id) (hlog : log.Coherent) (hg : log.Grounded)

include hlog hg

namespace Aimed

variable (haimed : Aimed log.Stored)

include hread hreads haimed in
/-- Every stored insertion has a place. -/
theorem placed (hop : log.Stored op) (hid : op.container = id) {i : Insertion α}
    (hi : read op = some i) : Placed read log id op := by
  -- by induction on the Lamport time, which is smaller for what an insertion is anchored to
  obtain ⟨l, hl⟩ : ∃ l, op.lamport = l := ⟨_, rfl⟩
  induction l using Nat.strongRecOn generalizing op i with
  | ind l ih =>
    cases hanchor : i.anchor with
    | none => exact .head hop hid hi hanchor
    | some a =>
      have hnamed : a ∈ op.named := by
        rw [Operation.named, hread.anchor hi, hanchor]
        exact List.mem_append_left _ (List.mem_singleton.2 rfl)
      obtain ⟨o, ho, hcontainer, hinserts, hcovers⟩ := haimed op hop a hnamed
      obtain ⟨j, hj⟩ := (hreads o ho (hcontainer.trans hid)).1 hinserts
      have hlt := hg.lamport_lt hlog hop hnamed ho hcovers
      have hplaced := ih o.lamport (by omega) ho (hcontainer.trans hid) hj rfl
      exact .behind hop hid hi hanchor hplaced hcovers (Stamp.lt_of_lamport_lt hlt)

end Aimed

theorem Shows.holds_insertion {state : ContainerState} {a : AtomId} (h : Shows log id state)
    (haimed : Aimed log.Stored) (hop : log.Stored op) (hid : op.container = id)
    (hinserts : op.inserts = true) (ha : op.covers a = true) : state.holds a = true := by
  cases state with
  | list s =>
    have hreads := hlog.readsIn_list h.1
    obtain ⟨i, hi⟩ := (hreads op hop hid).1 hinserts
    have hplaced := haimed.placed reading_list hreads hlog hg hop hid hi
    exact (h.2.contains_iff reading_list).2 ⟨op, hplaced, ha⟩
  | text s =>
    have hreads := hlog.readsIn_text h.1
    obtain ⟨i, hi⟩ := (hreads op hop hid).1 hinserts
    have hplaced := haimed.placed reading_text hreads hlog hg hop hid hi
    exact (h.2.contains_iff reading_text).2 ⟨op, hplaced, ha⟩
  | map f =>
    have hfits := (hlog.sound hop).fits
    rw [hid, h.1] at hfits
    rw [Operation.inserts_eq_false_map hfits] at hinserts
    cases hinserts

/-- A stored insertion loses an element as soon as any stored operation deletes it. -/
theorem Log.Grounded.deleted_iff {a : AtomId} (hop : log.Stored op) (ha : op.covers a = true) :
    Deleted log id op a ↔ Deletes log id a := by
  refine ⟨?_, ?_⟩
  · intro hgiven
    obtain ⟨d, hd, hid, htarget, -⟩ := hgiven
    exact ⟨d, hd, hid, htarget⟩
  · intro hgiven
    obtain ⟨d, hd, hid, htarget⟩ := hgiven
    have hnamed : a ∈ d.named := List.mem_append_right _ htarget
    exact ⟨d, hd, hid, htarget, Stamp.lt_of_lamport_lt (hg.lamport_lt hlog hd hnamed hop ha)⟩

omit hlog hg in
theorem Puts.inserts {a : AtomId} {p : Option AtomId} {e : Element α}
    (h : Puts read log id a p e) : Inserts read log id a e.value := by
  obtain ⟨op, i, n, hplaced, hi, hv, ha, -⟩ := h
  exact ⟨op, i, n, hplaced.stored.1, hplaced.stored.2.1, hi, hv, ha⟩

include hread

theorem Puts.deleted_iff {a : AtomId} {p : Option AtomId} {e : Element α}
    (h : Puts read log id a p e) : e.deleted = true ↔ Deletes log id a := by
  obtain ⟨op, i, n, hplaced, hi, hv, rfl, -, -, hdeleted⟩ := h
  obtain ⟨hn, -⟩ := List.getElem?_eq_some_iff.1 hv
  rw [hread.length hi] at hn
  rw [hdeleted]
  exact hg.deleted_iff hlog hplaced.stored.1 (Operation.covers_forward hn)

include hreads

/-- A sequence that mirrors a log of operations that refer to elements of their container and of
their past presents it. -/
theorem Mirrors.presents (haimed : Aimed log.Stored) (h : Mirrors read log id s) :
    Presents read log id s := by
  have helement : ∀ a v, (∃ e, s.elements.get? a = some e ∧ e.value = v) ↔
      Inserts read log id a v := by
    intro a v
    refine ⟨?_, ?_⟩
    · intro hgiven
      obtain ⟨e, hget, rfl⟩ := hgiven
      obtain ⟨p, hputs⟩ := (h.element a e).1 hget
      exact hputs.inserts
    · intro hgiven
      obtain ⟨op, i, n, hop, hid, hi, hv, rfl⟩ := hgiven
      obtain ⟨e, hputs, hvalue⟩ :=
        (haimed.placed hread hreads hlog hg hop hid hi).puts_value hi hv
      exact ⟨e, (h.element _ e).2 ⟨_, hputs⟩, hvalue⟩
  have hvisible : ∀ a v, s.value? a = some v ↔ Inserts read log id a v ∧ ¬ Deletes log id a := by
    intro a v
    rw [Sequence.value?_eq_some_iff, ← helement]
    -- a deleted element stays in the sequence, and the log decides on its mark
    refine ⟨?_, ?_⟩
    · intro hgiven
      obtain ⟨e, hget, hkept, hvalue⟩ := hgiven
      obtain ⟨p, hputs⟩ := (h.element a e).1 hget
      refine ⟨⟨e, hget, hvalue⟩, fun hdeletes => ?_⟩
      rw [(hputs.deleted_iff hread hlog hg).2 hdeletes] at hkept
      cases hkept
    · intro hgiven
      obtain ⟨⟨e, hget, hvalue⟩, hnot⟩ := hgiven
      obtain ⟨p, hputs⟩ := (h.element a e).1 hget
      refine ⟨e, hget, ?_, hvalue⟩
      rw [← Bool.not_eq_true, hputs.deleted_iff hread hlog hg]
      exact hnot
  refine ⟨fun a => ?_, helement, hvisible, ⟨h.tidy.nodup, h.tidy.mem_order⟩,
    List.filter_sublist, fun a => ?_, s.map_toList, h.tidy.visible⟩
  · rw [h.contains_iff hread]
    refine ⟨?_, ?_⟩
    · intro hgiven
      obtain ⟨o, hplaced, hcovers⟩ := hgiven
      obtain ⟨ho, hid, i, hi⟩ := hplaced.stored
      exact ⟨o, ho, hid, (hreads o ho hid).2 ⟨i, hi⟩, hcovers⟩
    · intro hgiven
      obtain ⟨o, ho, hid, hinserts, hcovers⟩ := hgiven
      obtain ⟨i, hi⟩ := (hreads o ho hid).1 hinserts
      exact ⟨o, haimed.placed hread hreads hlog hg ho hid hi, hcovers⟩
  · rw [Sequence.mem_visibleIds, h.tidy.mem_order, Sequence.contains_iff]
    simp only [hvisible]
    refine ⟨?_, ?_⟩
    · intro hgiven
      obtain ⟨-, v, hinserts, hnot⟩ := hgiven
      exact ⟨⟨v, hinserts⟩, hnot⟩
    · intro hgiven
      obtain ⟨⟨v, hinserts⟩, hnot⟩ := hgiven
      obtain ⟨e, hget, -⟩ := (helement a v).2 hinserts
      exact ⟨⟨e, hget⟩, v, hinserts, hnot⟩

omit hread hreads hlog hg in
/-- With the log the elements of a sequence grow, and what was deleted stays so. -/
theorem Presents.grows {log' : Log} {s' : Sequence α} (h : Presents read log id s)
    (h' : Presents read log' id s') (hgrown : ∀ o, log.Stored o → log'.Stored o) {a : AtomId}
    (ha : s.contains a = true) :
    s'.contains a = true ∧ (a ∈ s'.visibleIds → a ∈ s.visibleIds) := by
  obtain ⟨o, ho, hinsertion⟩ := (h.held a).1 ha
  refine ⟨(h'.held a).2 ⟨o, hgrown o ho, hinsertion⟩, fun hvisible => ?_⟩
  obtain ⟨e, hget⟩ := Sequence.contains_iff.1 ha
  refine (h.content.2.1 a).2 ⟨⟨e.value, (h.element a _).1 ⟨e, hget, rfl⟩⟩, fun hdeletes => ?_⟩
  obtain ⟨d, hd, hid, htarget⟩ := hdeletes
  exact ((h'.content.2.1 a).1 hvisible).2 ⟨d, hgrown d hd, hid, htarget⟩

end Presence

end CausalDoc
