import CausalDoc.Proofs.Document.Handle
import CausalDoc.Proofs.Document.Reachable
import CausalDoc.Proofs.Store.Sources

/- Fields of maps are last-writer-wins registers.

   A map makes the same of the same operations in whatever order they come, and this is
   what the rule says that the latest stamp wins. Stamps grow along causality in every log,
   also in one that was fed arbitrary batches, so a write that another write of the field
   knew of has lost (`Reachable.not_winner_of_before`). -/

namespace CausalDoc

namespace Document

variable {doc : Document}

/-- A write in the causal past of another write of the same field is not the winner. -/
theorem Reachable.not_winner_of_before (h : doc.Reachable) {id : ContainerId} {key : String}
    {a b : Operation} {v w : Option Value} (ha : Writes doc.log id key a v)
    (hb : Writes doc.log id key b w) (hbefore : doc.log.HappensBefore a.id b.id) :
    (doc.mapAt id).winner? key ≠ some a.id := by
  have hlog := h.lawful.log
  obtain ⟨hstored, hid, hwrite⟩ := ha
  have hkind : id.kind = .map := by
    rw [← hid]
    exact Operation.kind_of_fieldWrite? (hlog.sound hstored).fits hwrite
  have hrecords : Records doc.log id (doc.mapAt id) := by
    have hsources := h.lawful.advances.sources id
    rwa [show doc.store.registry.stateOf id = .map (doc.mapAt id) from
      stateAt_map h.lawful.store hkind] at hsources
  intro hwins
  obtain ⟨field, hget, hwriter⟩ := Option.map_eq_some_iff.1 hwins
  obtain ⟨op, value, hop, rfl, hlast⟩ := hrecords.winner hget
  obtain rfl : op = a := by
    have hcovers := Operation.covers_id (hlog.sound hstored).length_pos
    have hcovers' := Operation.covers_id (hlog.sound hop.1).length_pos
    rw [show op.id = a.id from hwriter] at hcovers'
    exact hlog.eq_of_covers hop.1 hstored hcovers' hcovers
  obtain ⟨k, l, hk, hl, hlt⟩ := hbefore.lamport_lt hlog
  rw [hlog.lamport?_id hstored, Option.some.injEq] at hk
  rw [hlog.lamport?_id hb.1, Option.some.injEq] at hl
  refine hlast b w hb (Stamp.lt_of_lamport_lt ?_)
  show op.lamport < b.lamport
  rw [hk, hl]
  exact hlt

/-- Maps are last-writer-wins registers: a map that takes operations in any order, and any of them
repeatedly, holds the write of largest stamp of every field; and so no write wins in a document that
another logged write of its field knew of. -/
theorem last_write_wins :
    (∀ ops : List Operation, (∀ a ∈ ops, ∀ b ∈ ops, a.stamp = b.stamp → a = b) →
      ∃ fields, ops.foldl ContainerState.apply (.new .map) = .map fields ∧ fields.Resolves ops ∧
        ∀ ops' : List Operation, (∀ op, op ∈ ops' ↔ op ∈ ops) →
          ops'.foldl ContainerState.apply (.new .map) = .map fields) ∧
    ∀ doc : Document, doc.Reachable → ∀ id key a b v w, Writes doc.log id key a v →
      Writes doc.log id key b w → doc.log.HappensBefore a.id b.id →
        (doc.mapAt id).winner? key ≠ some a.id := by
  refine ⟨fun ops hstamps => ?_, fun doc h id key a b v w ha hb hbefore =>
    h.not_winner_of_before ha hb hbefore⟩
  have hlatest : ∀ ops : List Operation,
      Fields.Latest (· ∈ ops) (ops.foldl Fields.take Fields.empty) := fun ops =>
    ((Fields.Latest.empty fun _ => id).foldl_take ops).congr fun o => by simp
  refine ⟨ops.foldl Fields.take Fields.empty, ContainerState.foldl_apply_map ops _,
    (hlatest ops).resolves hstamps, fun ops' hsame => ?_⟩
  have hequal : ops'.foldl Fields.take Fields.empty = ops.foldl Fields.take Fields.empty :=
    ((hlatest ops').congr fun o => (hsame o).symm).unique (hlatest ops) fun a b ha hb =>
      hstamps a ha b hb
  rw [← hequal]
  exact ContainerState.foldl_apply_map ops' _

/-- A removal that comes before the write that it knew of, and again after it, leaves nothing; and
the peer that wrote and then removed has the removal as winner. -/
theorem last_write_wins_removed :
    let write : Operation := ⟨⟨1, 0⟩, 0, [], .root "m" .map, 0, .setField "k" (some .null)⟩
    let removal : Operation := ⟨⟨1, 1⟩, 1, [⟨1, 0⟩], .root "m" .map, 0, .setField "k" none⟩
    let made := ((new Config.standard 1).edit (.root "m" .map) (.setField "k" (some .null)) 0).document
    let doc := (made.edit (.root "m" .map) (.setField "k" none) 0).document
    (∃ fields, [removal, write, removal].foldl ContainerState.apply (.new .map) = .map fields ∧
      fields.winner? "k" = some ⟨1, 1⟩ ∧ fields.get? "k" = none) ∧
      (doc.mapAt (.root "m" .map)).winner? "k" ≠ some ⟨1, 0⟩ := by
  intro write removal made doc
  obtain ⟨horder, hpast⟩ := last_write_wins
  constructor
  · obtain ⟨fields, hfields, hresolves, -⟩ := horder [removal, write, removal] (by decide)
    refine ⟨fields, hfields, hresolves.last "k" removal none ⟨by decide, rfl, ?_⟩⟩
    intro o ho w _
    rw [List.mem_cons, List.mem_cons, List.mem_singleton] at ho
    rcases ho with rfl | rfl | rfl
    · exact .inl rfl
    · exact .inr (by decide)
    · exact .inl rfl
  · have h : doc.Reachable :=
      .edit _ _ _ (.edit _ _ _ (.new Config.standard 1 (by decide)) trivial (by decide)) trivial
        (by decide)
    have hhistory : doc.log.history 1 = [write, removal] := by decide +kernel
    have hwrite : doc.log.Stored write := by
      show write ∈ doc.log.history 1
      rw [hhistory]
      exact List.mem_cons_self
    have hremoval : doc.log.Stored removal := by
      show removal ∈ doc.log.history 1
      rw [hhistory]
      exact List.mem_cons_of_mem _ List.mem_cons_self
    have hbefore : doc.log.HappensBefore write.id removal.id :=
      .single (h.lawful.log.precedes_id hremoval (by decide))
    exact hpast doc h (.root "m" .map) "k" write removal (some .null) none ⟨hwrite, rfl, rfl⟩
      ⟨hremoval, rfl, rfl⟩ hbefore

end Document

end CausalDoc
