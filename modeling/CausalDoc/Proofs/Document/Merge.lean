import CausalDoc.Proofs.Document.Join
import Mathlib.Order.MinMax

/- Merging documents.

   A merge is a batch made, sent and received in one go. Between documents that hold
   operations of one corpus the operations of this batch are taken in turn, before
   anything that was parked (`Holds.drain_merge`), so afterwards the document has at least
   the join of the two, and exactly the join when nothing was parked (`Holds.merge_idle`).
   Documents in which nothing is parked stay so (`Settled.merge`), and what any number of
   them makes, merged into one in whatever order, has the operations of all of them
   (`Merges.settled`). -/

namespace CausalDoc

/-- Merging is receiving what the other one sends for the version. -/
theorem Document.merge_document (doc other : Document) :
    (doc.merge other).document = (doc.receive (other.updatesSince doc.version).encode).document := by
  unfold merge
  dsimp only
  split <;> rfl

/-- A document that holds operations of the corpus only, and parks none. -/
structure Settled (Written : Operation → Prop) (doc : Document) : Prop extends
    Holds Written doc where
  idle : doc.pending.operations = []

section Merge

variable {Written : Operation → Prop} {doc other : Document} {op : Operation}
  (hc : Corpus Written)

include hc

namespace Holds

variable (h : Holds Written doc) (h' : Holds Written other)

include h h'

/-- What is sent for the version of a document is taken in turn, and is all that is applied until
then. What it releases was parked before. -/
theorem drain_since : ∃ (later : Intake) (released : List Operation),
    (Intake.start doc).drain (other.log.since doc.version) = later.drain released ∧
      later.document = doc.join other ∧
      later.status = ⟨(other.log.since doc.version).length, 0, 0, 0⟩ ∧
      later.parked = .empty ∧
      doc.pending.operations.Perm (released ++ (doc.join other).pending.operations) := by
  have hready := ((h.supplies hc h').run hc).1
  obtain ⟨later, released, hdrain, hdocument, hstatus, hparked, hperm⟩ :=
    @Intake.drain_inTurn _ (Intake.start doc) [] hready
  rw [List.append_nil, List.nil_append] at hdrain
  refine ⟨later, released, hdrain, hdocument, ?_, hparked, ?_⟩
  · rw [hstatus, show (Intake.start doc).status = ⟨0, 0, 0, 0⟩ from rfl]
    dsimp only
    rw [Nat.zero_add]
  · rw [hdocument] at hperm
    exact hperm

variable (hsize : (other.updatesSince doc.version).encode.length < 0x10000000000000000)

include hsize

/-- A merge succeeds, and what it makes comes of the join by what is released. -/
theorem drain_merge : ∃ (later after : Intake) (released : List Operation) (status : ReceiveStatus),
    later.document = doc.join other ∧ later.drain released = (after, .ok ()) ∧
      (doc.merge other).document = after.document ∧
      (doc.receive (other.updatesSince doc.version).encode).result = .ok status ∧
      doc.pending.operations.Perm (released ++ (doc.join other).pending.operations) ∧
      ∀ o, (doc.join other).log.Stored o → (doc.merge other).document.log.Stored o := by
  obtain ⟨later, released, hdrain, hdocument, -, -, hperm⟩ := h.drain_since hc h'
  obtain ⟨after, hrest, hkept⟩ := Intake.drain_invariant
    (P := fun d _ => ∀ o, (doc.join other).log.Stored o → d.log.Stored o)
    (fun d op queue hd o ho => Document.stored_advance (hd o ho)) later released
    (by rw [hdocument]; exact fun o ho => ho)
  have hdecode : Batch.decode (other.updatesSince doc.version).encode =
      .ok (other.updatesSince doc.version) :=
    h'.lawful.decode_since .updates doc.version hsize
  obtain ⟨hafter, status, hresult⟩ := Document.receive_of_ok hdecode (hdrain.trans hrest)
  rw [← Document.merge_document] at hafter
  rw [← hafter] at hkept
  exact ⟨later, after, released, status, hdocument, hrest, hafter, hresult, hperm, hkept⟩

/-- With nothing parked a merge makes the join, and nothing is parked after it. -/
theorem merge_idle (hidle : doc.pending.operations = []) :
    (doc.merge other).document = doc.join other ∧ (doc.join other).pending.operations = [] := by
  obtain ⟨later, after, released, -, hdocument, hrest, hafter, -, hperm, -⟩ :=
    h.drain_merge hc h' hsize
  rw [hidle, List.nil_perm, List.append_eq_nil_iff] at hperm
  obtain ⟨rfl, hnone⟩ := hperm
  rw [Intake.drain, Prod.mk.injEq] at hrest
  rw [hafter, ← hrest.1]
  exact ⟨hdocument, hnone⟩

end Holds

theorem Holds.nextCounter_join (h : Holds Written doc) (h' : Holds Written other) (peer : Nat) :
    (doc.join other).version.nextCounter peer =
      max (doc.version.nextCounter peer) (other.version.nextCounter peer) := by
  have hjoin : (doc.join other).log.Coherent :=
    (h.lawful.store.advances (h.advances_join hc h')).log
  have hcontains : ∀ a, (doc.join other).log.contains a = true ↔
      doc.log.contains a = true ∨ other.log.contains a = true := by
    intro a
    rw [hjoin.contains_iff_covers, h.lawful.log.contains_iff_covers,
      h'.lawful.log.contains_iff_covers, ← exists_or]
    refine exists_congr fun o => ?_
    rw [h.stored_join hc h', or_and_right]
  refine eq_of_forall_lt_iff fun c => ?_
  have hc' := hcontains ⟨peer, c⟩
  rw [Log.contains, Log.contains, Log.contains, VersionVector.includes_iff,
    VersionVector.includes_iff, VersionVector.includes_iff] at hc'
  exact hc'.trans lt_max_iff.symm

/-- Merging a document with one in which nothing is parked leaves nothing parked, and brings the
operations of both together. -/
theorem Settled.merge (h : Settled Written doc) (h' : Settled Written other)
    (hsize : (other.updatesSince doc.version).encode.length < 0x10000000000000000) :
    Settled Written (doc.merge other).document ∧
      ∀ o, (doc.merge other).document.log.Stored o ↔ doc.log.Stored o ∨ other.log.Stored o := by
  obtain ⟨hmerge, hidle⟩ := h.toHolds.merge_idle hc h'.toHolds hsize h.idle
  have hstored : ∀ o, (doc.merge other).document.log.Stored o ↔
      doc.log.Stored o ∨ other.log.Stored o := by
    intro o
    rw [hmerge]
    exact h.toHolds.stored_join hc h'.toHolds
  refine ⟨⟨⟨?_, ?_⟩, ?_⟩, hstored⟩
  · rw [Document.merge_document]
    exact h.lawful.receive _
  · intro o ho
    rcases (hstored o).1 ho with ho | ho
    · exact h.written o ho
    · exact h'.written o ho
  · rw [hmerge]
    exact hidle

end Merge

/-! ## Any number of documents -/

/-- `Merges docs doc`: the documents `docs` were merged into `doc`, in some order and bracketing. -/
inductive Merges : List Document → Document → Prop where
  | one (doc : Document) : Merges [doc] doc
  | merge {docs docs' : List Document} {doc other : Document} :
      Merges docs doc → Merges docs' other →
      (other.updatesSince doc.version).encode.length < 0x10000000000000000 →
      Merges (docs ++ docs') (doc.merge other).document

namespace Merges

variable {Written : Operation → Prop} {docs docs' : List Document} {doc doc' : Document}
  (hc : Corpus Written)

include hc

/-- What documents are merged into has the operations of all of them. -/
theorem settled (h : Merges docs doc) (hdocs : ∀ d ∈ docs, Settled Written d) :
    Settled Written doc ∧ ∀ op, doc.log.Stored op ↔ ∃ d ∈ docs, d.log.Stored op := by
  induction h with
  | one d => exact ⟨hdocs d List.mem_cons_self, fun op => by simp⟩
  | merge _ _ hsize ih ih' =>
    obtain ⟨hdoc, hstored⟩ := ih fun d hd => hdocs d (List.mem_append_left _ hd)
    obtain ⟨hother, hstored'⟩ := ih' fun d hd => hdocs d (List.mem_append_right _ hd)
    obtain ⟨hmerged, hunion⟩ := hdoc.merge hc hother hsize
    refine ⟨hmerged, fun op => ?_⟩
    rw [hunion, hstored, hstored']
    simp only [List.mem_append, or_and_right, exists_or]

/-- The store is the same, however the documents are merged. -/
theorem store_eq (ha : Anchored Written) (h : Merges docs doc) (h' : Merges docs' doc')
    (hsame : ∀ d, d ∈ docs ↔ d ∈ docs') (hdocs : ∀ d ∈ docs, Settled Written d) :
    doc.store = doc'.store := by
  obtain ⟨hdoc, hstored⟩ := h.settled hc hdocs
  obtain ⟨hdoc', hstored'⟩ := h'.settled hc fun d hd => hdocs d ((hsame d).2 hd)
  refine hc.store_ext hdoc.lawful.store hdoc.written ha hdoc.lawful.advances
    hdoc'.lawful.advances fun op => ?_
  show doc.log.Stored op ↔ doc'.log.Stored op
  rw [hstored, hstored']
  simp only [hsame]

end Merges

end CausalDoc
