import CausalDoc.Proofs.Container.Fields
import CausalDoc.Proofs.Log.Past

/- What a log makes of a map.

   For every field the write of latest stamp wins, a removal like any other. The outcome
   depends on the stored writes alone: whatever order they come in, the map records them
   (`Records.take`), and only one map does (`Records.unique`). -/

namespace CausalDoc

/-- The stored operation writes the field of the container. -/
def Writes (log : Log) (id : ContainerId) (key : String) (op : Operation)
    (value : Option Value) : Prop :=
  log.Stored op ∧ op.container = id ∧ op.fieldWrite? = some (key, value)

/-- The map holds for every field that was written the write of latest stamp. -/
structure Records (log : Log) (id : ContainerId) (fields : Fields) : Prop where
  winner : ∀ {key : String} {field : Field}, fields.winners.get? key = some field →
    ∃ op value, Writes log id key op value ∧ field = ⟨value, op.stamp, op.id⟩ ∧
      ∀ o w, Writes log id key o w → ¬ op.stamp < o.stamp
  written : ∀ {key : String} {op : Operation} {value : Option Value},
    Writes log id key op value → ∃ field, fields.winners.get? key = some field

namespace Records

variable {log : Log} {id : ContainerId} {fields : Fields} {op : Operation}

/-- The map keeps the latest of the stored writes to it. -/
theorem iff_latest : Records log id fields ↔
    fields.Latest fun op => log.Stored op ∧ op.container = id := by
  refine ⟨fun h => ⟨fun hget => ?_, fun hop hw => h.written ⟨hop.1, hop.2, hw⟩⟩,
    fun h => ⟨fun hget => ?_, fun hop => h.written ⟨hop.1, hop.2.1⟩ hop.2.2⟩⟩
  · obtain ⟨op, value, ⟨hop, hid, hw⟩, hfield, hlast⟩ := h.winner hget
    exact ⟨op, value, ⟨hop, hid⟩, hw, hfield, fun o w ho hw' => hlast o w ⟨ho.1, ho.2, hw'⟩⟩
  · obtain ⟨op, value, ⟨hop, hid⟩, hw, hfield, hlast⟩ := h.winner hget
    exact ⟨op, value, ⟨hop, hid, hw⟩, hfield, fun o w ho => hlast o w ⟨ho.1, ho.2.1⟩ ho.2.2⟩

theorem unique (hlog : log.Coherent) {fields' : Fields} (h : Records log id fields)
    (h' : Records log id fields') : fields = fields' :=
  (iff_latest.1 h).unique (iff_latest.1 h') fun _ _ ha hb hstamp =>
    hlog.eq_of_stamp ha.1 hb.1 hstamp

theorem empty (hnone : ∀ o, log.Stored o → o.container ≠ id) : Records log id Fields.empty :=
  iff_latest.2 (.empty fun o ho => hnone o ho.1 ho.2)

theorem push_of_ne (h : Records log id fields) (hne : op.container ≠ id) :
    Records (log.push op) id fields := by
  refine iff_latest.2 ((iff_latest.1 h).congr fun o => ?_)
  rw [Log.stored_push, or_and_right, or_iff_left]
  intro hnew
  obtain ⟨rfl, hid⟩ := hnew
  exact hne hid

/-- A map records every next operation, whatever order they come in. -/
theorem take (h : Records log id fields) (hid : op.container = id) :
    Records (log.push op) id (fields.take op) := by
  refine iff_latest.2 (((iff_latest.1 h).take op).congr fun o => ?_)
  rw [Log.stored_push, or_and_right]
  refine or_congr_right (and_iff_left_of_imp fun heq => ?_)
  rw [heq]
  exact hid

end Records

end CausalDoc
