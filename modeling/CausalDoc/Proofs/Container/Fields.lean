import CausalDoc.Proofs.Container.Reading
import CausalDoc.Proofs.Text.Bytes

/- Maps as registers: the latest write of a field wins.

   What a map holds depends on the operations that it took, not on their order or on how
   often each came: for every field it keeps the write of latest stamp (`Latest`), removals
   and created containers included. A write no later than the present one changes nothing,
   so a repeated operation has no second effect and an old one brings nothing back. -/

namespace CausalDoc

/-- Only operations on maps write fields. -/
theorem Operation.kind_of_fieldWrite? {op : Operation} {kind : ContainerKind}
    {write : String × Option Value} (hfits : op.action.flaw? kind = none)
    (hw : op.fieldWrite? = some write) : kind = .map := by
  unfold fieldWrite? at hw
  split at hw
  · next haction =>
    rw [haction] at hfits
    cases kind <;> first | rfl | cases hfits
  · next haction =>
    rw [haction] at hfits
    cases kind <;> first | rfl | cases hfits
  · cases hw

namespace Fields

/-- The map holds for every field that one of the operations writes the write of latest stamp. -/
structure Latest (Written : Operation → Prop) (fields : Fields) : Prop where
  winner : ∀ {key : String} {field : Field}, fields.winners.get? key = some field →
    ∃ op value, Written op ∧ op.fieldWrite? = some (key, value) ∧
      field = ⟨value, op.stamp, op.id⟩ ∧
      ∀ o w, Written o → o.fieldWrite? = some (key, w) → ¬ op.stamp < o.stamp
  written : ∀ {key : String} {op : Operation} {value : Option Value}, Written op →
    op.fieldWrite? = some (key, value) → ∃ field, fields.winners.get? key = some field

namespace Latest

variable {Written Written' : Operation → Prop} {fields : Fields} {op : Operation}

theorem empty (hnone : ∀ op, ¬ Written op) : Latest Written Fields.empty :=
  ⟨fun h => (by cases h), fun h => absurd h (hnone _)⟩

theorem congr (h : Latest Written fields) (hsame : ∀ op, Written' op ↔ Written op) :
    Latest Written' fields := by
  rwa [show Written' = Written from funext fun op => propext (hsame op)]

theorem ignore (h : Latest Written fields) (hnot : op.fieldWrite? = none) :
    Latest (fun o => Written o ∨ o = op) fields := by
  have hold : ∀ {o : Operation} {e : String × Option Value}, Written o ∨ o = op →
      o.fieldWrite? = some e → Written o := by
    intro o e hgiven hw
    rcases hgiven with ho | rfl
    · exact ho
    · rw [hnot] at hw
      cases hw
  refine ⟨fun hget => ?_, fun ho hw => h.written (hold ho hw) hw⟩
  obtain ⟨o, value, ho, hw, hfield, hlast⟩ := h.winner hget
  exact ⟨o, value, .inl ho, hw, hfield, fun o' w ho' hw' => hlast o' w (hold ho' hw') hw'⟩

theorem write (h : Latest Written fields) {k : String} {v : Option Value}
    (hw : op.fieldWrite? = some (k, v)) :
    Latest (fun o => Written o ∨ o = op) (fields.write k ⟨v, op.stamp, op.id⟩) := by
  refine ⟨?_, ?_⟩
  · intro key field hget
    rw [get?_write] at hget
    split at hget
    · next hwins =>
      obtain ⟨rfl, hwins⟩ := hwins
      refine ⟨op, v, .inr rfl, hw, (Option.some.inj hget).symm, fun o w ho hw' hlt => ?_⟩
      -- an earlier write of this field has a stamp no later than the winner's before
      rcases ho with ho | rfl
      · obtain ⟨current, hcurrent⟩ := h.written ho hw'
        obtain ⟨o', w', -, -, rfl, hlast⟩ := h.winner hcurrent
        exact hlast o w ho hw' (Stamp.lt_trans (hwins _ hcurrent) hlt)
      · exact Stamp.lt_irrefl _ hlt
    · next hloses =>
      obtain ⟨o, w, ho, hw', rfl, hlast⟩ := h.winner hget
      refine ⟨o, w, .inl ho, hw', rfl, fun o' w' ho' hw'' hlt => ?_⟩
      rcases ho' with ho' | rfl
      · exact hlast o' w' ho' hw'' hlt
      · rw [hw, Option.some.injEq, Prod.mk.injEq] at hw''
        obtain ⟨rfl, rfl⟩ := hw''
        refine hloses ⟨rfl, fun current hcurrent => ?_⟩
        rw [hget, Option.some.injEq] at hcurrent
        rw [← hcurrent]
        exact hlt
  · intro key o w ho hw'
    rw [get?_write]
    split
    · exact ⟨_, rfl⟩
    · next hloses =>
      rcases ho with ho | rfl
      · exact h.written ho hw'
      · rw [hw, Option.some.injEq, Prod.mk.injEq] at hw'
        obtain ⟨rfl, rfl⟩ := hw'
        cases hget : fields.winners.get? k with
        | some field => exact ⟨field, rfl⟩
        | none =>
          refine absurd ⟨rfl, fun current hcurrent => ?_⟩ hloses
          rw [hget] at hcurrent
          cases hcurrent

theorem take (h : Latest Written fields) (op : Operation) :
    Latest (fun o => Written o ∨ o = op) (fields.take op) := by
  unfold Fields.take
  cases hw : op.fieldWrite? with
  | none => exact h.ignore hw
  | some write => exact h.write hw

theorem foldl_take : ∀ (ops : List Operation) {Written : Operation → Prop} {fields : Fields},
    Latest Written fields → Latest (fun o => Written o ∨ o ∈ ops) (ops.foldl Fields.take fields)
  | [], _, _, h => h.congr fun o => by simp
  | op :: ops, _, _, h => (foldl_take ops (h.take op)).congr fun o => by
    rw [List.mem_cons, or_assoc]

/-- When no two of the operations share a stamp, only one map holds the latest writes. -/
theorem unique {fields' : Fields} (h : Latest Written fields) (h' : Latest Written fields')
    (hstamps : ∀ a b, Written a → Written b → a.stamp = b.stamp → a = b) : fields = fields' := by
  have half : ∀ {f g : Fields}, Latest Written f → Latest Written g → ∀ {key : String}
      {field : Field}, f.winners.get? key = some field → g.winners.get? key = some field := by
    intro f g hf hg key field hget
    obtain ⟨op, value, hop, hw, rfl, hlast⟩ := hf.winner hget
    obtain ⟨field', hget'⟩ := hg.written hop hw
    obtain ⟨op', value', hop', hw', rfl, hlast'⟩ := hg.winner hget'
    have hstamp := Stamp.eq_of_not_lt (hlast op' value' hop' hw') (hlast' op value hop hw)
    obtain rfl := hstamps op op' hop hop' hstamp
    rw [hw, Option.some.injEq, Prod.mk.injEq] at hw'
    rw [hget', hw'.2]
  have hwinners : fields.winners = fields'.winners :=
    OrderedMap.ext fun key => Option.ext fun field => ⟨half h h', half h' h⟩
  cases fields
  cases fields'
  exact congrArg _ hwinners

end Latest

/-! ## What is listed -/

theorem mem_toList {fields : Fields} {key : String} {v : Value} :
    (key, v) ∈ fields.toList ↔ fields.get? key = some v := by
  unfold toList get?
  rw [List.mem_filterMap, Option.bind_eq_some_iff]
  refine ⟨fun h => ?_, fun h => ?_⟩
  · obtain ⟨e, he, hv⟩ := h
    obtain ⟨w, hw, heq⟩ := Option.map_eq_some_iff.1 hv
    cases heq
    exact ⟨e.2, (OrderedMap.get?_eq_some_iff _).2 he, hw⟩
  · obtain ⟨field, hget, hv⟩ := h
    exact ⟨(key, field), (OrderedMap.get?_eq_some_iff _).1 hget, by rw [hv]; rfl⟩

theorem mem_keys {fields : Fields} {key : String} :
    key ∈ fields.keys ↔ ∃ v, fields.get? key = some v := by
  simp only [keys, List.mem_map, ← mem_toList]
  exact ⟨fun ⟨e, he, heq⟩ => ⟨e.2, heq ▸ he⟩, fun ⟨v, hv⟩ => ⟨_, hv, rfl⟩⟩

/-- Field names are listed in the order of their bytes. -/
theorem keys_ascending (fields : Fields) :
    fields.keys.Pairwise fun a b => Text.bytes a < Text.bytes b := by
  unfold keys toList
  rw [List.pairwise_map, List.pairwise_filterMap]
  refine fields.winners.ascending.imp fun {e e'} hlt x hx y hy => ?_
  obtain ⟨v, -, rfl⟩ := Option.map_eq_some_iff.1 hx
  obtain ⟨w, -, rfl⟩ := Option.map_eq_some_iff.1 hy
  exact Text.bytes_lt_of_compare hlt

/-! ## Operations in any order -/

/-- Of the operations that write the field, `op` has the largest stamp; it writes `value`. -/
structure LastWrite (ops : List Operation) (key : String) (op : Operation)
    (value : Option Value) : Prop where
  mem : op ∈ ops
  writes : op.fieldWrite? = some (key, value)
  last : ∀ o ∈ ops, ∀ w, o.fieldWrite? = some (key, w) → o = op ∨ o.stamp < op.stamp

/-- The map is what last-writer-wins makes of the operations. -/
structure Resolves (ops : List Operation) (fields : Fields) : Prop where
  /-- A written field has a last write. -/
  written : ∀ key, (∃ op ∈ ops, ∃ value, op.fieldWrite? = some (key, value)) →
    ∃ op value, LastWrite ops key op value
  /-- It is the winner, and the field has its value. -/
  last : ∀ key op value, LastWrite ops key op value →
    fields.winner? key = some op.id ∧ fields.get? key = value
  unwritten : ∀ key, (∀ op ∈ ops, ∀ value, op.fieldWrite? ≠ some (key, value)) →
    fields.winner? key = none ∧ fields.get? key = none
  /-- Listed are the fields whose winner carries a value, with this value. -/
  listed : ∀ key v, (key, v) ∈ fields.toList ↔ ∃ op, LastWrite ops key op (some v)
  keys : ∀ key, key ∈ fields.keys ↔ ∃ op v, LastWrite ops key op (some v)
  /-- They are listed once each, in the order of the bytes of their names. -/
  ascending : fields.keys.Pairwise fun a b => Text.bytes a < Text.bytes b
  entries : fields.toList.map Prod.fst = fields.keys
  size : fields.size = fields.keys.length

theorem Latest.resolves {ops : List Operation} {fields : Fields} (h : Latest (· ∈ ops) fields)
    (hstamps : ∀ a ∈ ops, ∀ b ∈ ops, a.stamp = b.stamp → a = b) : fields.Resolves ops := by
  -- the recorded winner is beaten by none, and as stamps tell operations apart it beats the others
  have hexists : ∀ key, (∃ op ∈ ops, ∃ value, op.fieldWrite? = some (key, value)) →
      ∃ op value, LastWrite ops key op value := by
    intro key hgiven
    obtain ⟨op, hop, value, hw⟩ := hgiven
    obtain ⟨field, hget⟩ := h.written hop hw
    obtain ⟨op', value', hop', hw', -, hlast⟩ := h.winner hget
    refine ⟨op', value', hop', hw', fun o ho w hwo => ?_⟩
    by_cases hlt : o.stamp < op'.stamp
    · exact .inr hlt
    · exact .inl (hstamps o ho op' hop' (Stamp.eq_of_not_lt hlt (hlast o w ho hwo)))
  have hlast : ∀ key op value, LastWrite ops key op value →
      fields.winners.get? key = some ⟨value, op.stamp, op.id⟩ := by
    intro key op value hop
    obtain ⟨field, hget⟩ := h.written hop.mem hop.writes
    obtain ⟨op', value', hop', hw', rfl, hnone⟩ := h.winner hget
    rcases hop.last op' hop' value' hw' with rfl | hlt
    · have hsame := hw'.symm.trans hop.writes
      rw [Option.some.injEq, Prod.mk.injEq] at hsame
      rw [hget, hsame.2]
    · exact absurd hlt (hnone op value hop.mem hop.writes)
  have hvalue : ∀ key v, fields.get? key = some v ↔ ∃ op, LastWrite ops key op (some v) := by
    intro key v
    refine ⟨fun hgiven => ?_, fun hgiven => ?_⟩
    · obtain ⟨field, hget, -⟩ := Option.bind_eq_some_iff.1 hgiven
      obtain ⟨op, value, hop, hw, -, -⟩ := h.winner hget
      obtain ⟨op', value', hop'⟩ := hexists key ⟨op, hop, value, hw⟩
      rw [get?, hlast key op' value' hop', Option.bind_some] at hgiven
      exact ⟨op', hgiven ▸ hop'⟩
    · obtain ⟨op, hop⟩ := hgiven
      rw [get?, hlast key op _ hop]
      rfl
  refine ⟨hexists, fun key op value hop => ?_, fun key hnone => ?_,
    fun key v => mem_toList.trans (hvalue key v), fun key => ?_, fields.keys_ascending, rfl, ?_⟩
  · rw [winner?, get?, hlast key op value hop]
    exact ⟨rfl, rfl⟩
  · have hget : fields.winners.get? key = none := by
      refine Option.eq_none_iff_forall_ne_some.2 fun field hget => ?_
      obtain ⟨op, value, hop, hw, -, -⟩ := h.winner hget
      exact hnone op hop value hw
    rw [winner?, get?, hget]
    exact ⟨rfl, rfl⟩
  · rw [mem_keys, exists_comm]
    exact exists_congr fun v => hvalue key v
  · exact (List.length_map _).symm

end Fields

theorem ContainerState.apply_map (f : Fields) (op : Operation) :
    (ContainerState.map f).apply op = .map (f.take op) := by
  unfold apply Fields.take Operation.fieldWrite?
  cases op.action with
  | insert | delete | setField => rfl
  | create slot kind => cases slot <;> rfl

theorem ContainerState.foldl_apply_map : ∀ (ops : List Operation) (f : Fields),
    ops.foldl ContainerState.apply (.map f) = .map (ops.foldl Fields.take f)
  | [], _ => rfl
  | op :: ops, f => by
    rw [List.foldl_cons, List.foldl_cons, apply_map, foldl_apply_map ops]

end CausalDoc
