import CausalDoc.Proofs.Wire.Primitive
import CausalDoc.Proofs.Wire.Writable
import CausalDoc.Wire.Batch

/- Batches survive the wire.

   A batch of operations that the format has room for is read back as it was written when
   they are sound, and refused for the first flaw when they are not, as long as the bytes
   are fewer than a length has room for (`reads_back`). The other way round, whatever is
   read is sound and of that form (`decode_sound`). -/

namespace CausalDoc

theorem Entries.foldl_insert_of_ascending {κ ν : Type} [Ord κ] [Std.LawfulEqOrd κ] [Std.TransOrd κ] :
    ∀ (ps es : List (κ × ν)), Ascending (es ++ ps) →
      ps.foldl (fun es p => Entries.insert p.1 p.2 es) es = es ++ ps
  | [], es, _ => (List.append_nil es).symm
  | (k, v) :: ps, es, h => by
    have hlast : ∀ es : List (κ × ν), Ascending (es ++ [(k, v)]) →
        Entries.insert k v es = es ++ [(k, v)] := by
      intro es hes
      induction es with
      | nil => rfl
      | cons e es ih =>
        have hlt : compare e.1 k = .lt := hes.head_lt (x := (k, v)) (by simp)
        unfold Entries.insert
        rw [Std.OrientedCmp.gt_iff_lt.2 hlt]
        exact congrArg _ (ih hes.tail)
    have hsplit : es ++ (k, v) :: ps = (es ++ [(k, v)]) ++ ps := by simp
    rw [hsplit] at h
    rw [List.foldl_cons, hlast es (List.pairwise_append.1 h).1, hsplit]
    exact foldl_insert_of_ascending ps _ h

theorem Entries.ofList_of_ascending {κ ν : Type} [Ord κ] [Std.LawfulEqOrd κ] [Std.TransOrd κ]
    {ps : List (κ × ν)} (h : Ascending ps) : ofList ps = ps :=
  foldl_insert_of_ascending ps [] h

theorem Entries.mem_of_mem_ofList {κ ν : Type} [Ord κ] {e : κ × ν} {ps : List (κ × ν)}
    (h : e ∈ ofList ps) : e ∈ ps := by
  suffices hfold : ∀ es, e ∈ ps.foldl (fun es p => Entries.insert p.1 p.2 es) es → e ∈ es ∨ e ∈ ps by
    rcases hfold [] h with h | h
    · cases h
    · exact h
  clear h
  induction ps with
  | nil => exact fun es h => .inl h
  | cons p ps ih =>
    intro es h
    rcases ih _ h with h | h
    · rcases eq_or_mem_of_mem_insert h with rfl | h
      · exact .inr List.mem_cons_self
      · exact .inl h
    · exact .inr (List.mem_cons_of_mem _ h)

namespace Wire

variable {α : Type}

theorem reads_alternative {next : Nat → Reader α} {bytes : Bytes} {x : α} {n : Nat} (hn : n < 128)
    (h : Reads (next n) bytes x) : Reads (readWord >>= next) (n.toUInt8 :: bytes) x :=
  (reads_tag hn).bind h

/-! ## Names -/

theorem reads_atomId {id : AtomId} (h : id.Writable) : Reads readAtomId (writeAtomId id) id :=
  (reads_long h.1).bind ((reads_word h.2).map (AtomId.mk id.peer))

theorem yields_atomId : Yields readAtomId AtomId.Writable :=
  yields_long.bind fun _ hp => yields_word.bind fun _ hc => Yields.pure ⟨hp, hc⟩

theorem writeAtomId_length_pos (id : AtomId) : 0 < (writeAtomId id).length := by
  have := writeVarint_length_pos id.peer
  rw [writeAtomId, List.length_append]
  omega

theorem reads_kind (kind : ContainerKind) : Reads readKind (writeKind kind) kind := by
  have hrank : kind.rank < 0x100000000 := by cases kind <;> decide
  intro rest
  unfold readKind
  rw [bind_apply, writeKind, reads_word hrank]
  cases kind <;> rfl

theorem reads_containerId {id : ContainerId} (h : id.Writable)
    (hsize : (writeContainerId id).length < 0x10000000000000000) :
    Reads readContainerId (writeContainerId id) id := by
  cases id with
  | root name kind =>
    rw [writeContainerId, List.length_append, List.length_cons] at hsize
    have := size_lt_writeText name
    exact reads_alternative (n := 0) (by omega) ((reads_text (by omega)).bind
      ((reads_kind kind).map (ContainerId.root name)))
  | created creator kind =>
    exact reads_alternative (n := 1) (by omega) ((reads_atomId h).bind
      ((reads_kind kind).map (ContainerId.created creator)))

theorem yields_containerId : Yields readContainerId ContainerId.Writable := by
  refine (Yields.any readWord).bind fun n _ => ?_
  split
  · exact (Yields.any readText).bind fun _ _ => (Yields.any readKind).bind fun _ _ =>
      Yields.pure trivial
  · exact yields_atomId.bind fun _ h => (Yields.any readKind).bind fun _ _ => Yields.pure h
  · exact Yields.throw _

/-! ## Values -/

theorem writeValue_length_pos (v : Value) : 0 < (writeValue v).length := by
  cases v <;> simp [writeValue]

theorem length_le_writeValues : ∀ vs : List Value, vs.length ≤ (writeValues vs).length
  | [] => Nat.le_refl 0
  | v :: vs => by
    have := writeValue_length_pos v
    have := length_le_writeValues vs
    rw [writeValues, List.length_append, List.length_cons]
    omega

theorem length_le_writeFields : ∀ fs : List (String × Value), fs.length ≤ (writeFields fs).length
  | [] => Nat.le_refl 0
  | (k, v) :: fs => by
    have := writeValue_length_pos v
    have := length_le_writeFields fs
    rw [writeFields, List.length_append, List.length_append, List.length_cons]
    omega

mutual

/-- A value is read back at any depth that its bytes could reach. -/
theorem reads_valueWithin : ∀ {v : Value} {depth : Nat}, v.Writable →
    (writeValue v).length < 0x10000000000000000 → (writeValue v).length ≤ depth →
    Reads (readValueWithin depth) (writeValue v) v
  | v, 0, _, _, hdepth => by
    have := writeValue_length_pos v
    omega
  | .null, depth + 1, _, _, _ => reads_alternative (n := 0) (by omega) (Reads.pure _)
  | .bool b, depth + 1, _, _, _ =>
    reads_alternative (n := 1) (by omega) ((reads_bool b).map Value.bool)
  | .int n, depth + 1, _, _, _ =>
    reads_alternative (n := 2) (by omega) ((reads_integer n).map Value.int)
  | .double d, depth + 1, _, _, _ =>
    reads_alternative (n := 3) (by omega) ((reads_double d).map Value.double)
  | .string s, depth + 1, _, hsize, _ => by
    have := size_lt_writeText s
    rw [writeValue, List.length_cons] at hsize
    exact reads_alternative (n := 4) (by omega) ((reads_text (by omega)).map Value.string)
  | .list items, depth + 1, h, hsize, hdepth => by
    have := length_le_writeValues items
    rw [writeValue, List.length_append, List.length_cons] at hsize hdepth
    rw [Value.Writable] at h
    refine reads_alternative (n := 5) (by omega) (Reads.map Value.list ?_)
    exact (reads_long (by omega)).bind (reads_values h (by omega) (by omega))
  | .map fields, depth + 1, h, hsize, hdepth => by
    have := length_le_writeFields fields
    rw [writeValue, List.length_append, List.length_cons] at hsize hdepth
    rw [Value.Writable] at h
    have hfields : Value.ofFields fields = .map fields := by
      rw [Value.ofFields, Entries.ofList_of_ascending h.1]
    have hbody : Reads (readItems (readField (readValueWithin depth)) fields.length)
        (writeFields fields) fields := reads_fields h.2 (by omega) (by omega)
    have hread := ((reads_long (by omega)).bind hbody).map Value.ofFields
    rw [hfields] at hread
    exact reads_alternative (n := 6) (by omega) hread
  | .container id, depth + 1, h, hsize, _ => by
    rw [writeValue, List.length_cons] at hsize
    rw [Value.Writable] at h
    exact reads_alternative (n := 7) (by omega)
      ((reads_containerId h (by omega)).map Value.container)

theorem reads_values : ∀ {vs : List Value} {depth : Nat}, Value.ItemsWritable vs →
    (writeValues vs).length < 0x10000000000000000 → (writeValues vs).length ≤ depth →
    Reads (readItems (readValueWithin depth) vs.length) (writeValues vs) vs
  | [], _, _, _, _ => Reads.pure []
  | v :: vs, depth, h, hsize, hdepth => by
    rw [writeValues, List.length_append] at hsize hdepth
    rw [Value.ItemsWritable] at h
    exact (reads_valueWithin h.1 (by omega) (by omega)).bind
      ((reads_values h.2 (by omega) (by omega)).map (v :: ·))

theorem reads_fields : ∀ {fs : List (String × Value)} {depth : Nat}, Value.FieldsWritable fs →
    (writeFields fs).length < 0x10000000000000000 → (writeFields fs).length ≤ depth →
    Reads (readItems (readField (readValueWithin depth)) fs.length) (writeFields fs) fs
  | [], _, _, _, _ => Reads.pure []
  | (k, v) :: fs, depth, h, hsize, hdepth => by
    have := size_lt_writeText k
    rw [writeFields, List.length_append, List.length_append] at hsize hdepth
    rw [Value.FieldsWritable] at h
    have hfield : Reads (readField (readValueWithin depth)) (writeText k ++ writeValue v) (k, v) :=
      (reads_text (by omega)).bind
        ((reads_valueWithin h.1 (by omega) (by omega)).map fun value => (k, value))
    exact hfield.bind ((reads_fields h.2 (by omega) (by omega)).map ((k, v) :: ·))

end

theorem reads_value {v : Value} (h : v.Writable)
    (hsize : (writeValue v).length < 0x10000000000000000) : Reads readValue (writeValue v) v := by
  intro rest
  refine reads_valueWithin h hsize ?_ rest
  rw [List.length_append]
  omega

theorem yields_valueWithin (depth : Nat) : Yields (readValueWithin depth) Value.Writable := by
  induction depth with
  | zero => exact Yields.throw _
  | succ depth ih =>
    unfold readValueWithin
    refine (Yields.any readWord).bind fun n _ => ?_
    split
    · exact Yields.pure trivial
    · exact (Yields.any readBool).bind fun _ _ => Yields.pure trivial
    · exact (Yields.any readInteger).bind fun _ _ => Yields.pure trivial
    · exact (Yields.any readDouble).bind fun _ _ => Yields.pure trivial
    · exact (Yields.any readText).bind fun _ _ => Yields.pure trivial
    · refine (yields_sequence ih).bind fun items hitems => Yields.pure ?_
      rw [Value.Writable]
      exact Value.itemsWritable_iff.2 hitems
    · have hfield : Yields (readField (readValueWithin depth)) fun f => f.2.Writable :=
        (Yields.any readText).bind fun _ _ => ih.bind fun _ h => Yields.pure h
      refine (yields_sequence hfield).bind fun fields hfields => Yields.pure ?_
      rw [Value.ofFields, Value.Writable]
      exact ⟨Entries.ascending_ofList fields,
        Value.fieldsWritable_iff.2 fun f hf => hfields f (Entries.mem_of_mem_ofList hf)⟩
    · exact yields_containerId.bind fun _ h => Yields.pure h
    · exact Yields.throw _

theorem yields_value : Yields readValue Value.Writable := fun input v rest h =>
  yields_valueWithin input.length input v rest h

/-! ## Operations -/

theorem reads_inserted {content : Inserted} (h : content.Writable)
    (hsize : (writeInserted content).length < 0x10000000000000000) :
    Reads readInserted (writeInserted content) content := by
  cases content with
  | values vs =>
    rw [writeInserted, List.length_cons] at hsize
    have := length_le_writeSequence writeValue_length_pos vs
    refine reads_alternative (n := 0) (by omega) (Reads.map Inserted.values ?_)
    refine reads_sequence (fun v hv => ?_) (by omega)
    have := length_item_le_writeSequence writeValue hv
    exact reads_value (Value.itemsWritable_iff.1 h v hv) (by omega)
  | text t =>
    rw [writeInserted, List.length_cons] at hsize
    have := size_lt_writeText t
    exact reads_alternative (n := 1) (by omega) ((reads_text (by omega)).map Inserted.text)

theorem yields_inserted : Yields readInserted Inserted.Writable := by
  refine (Yields.any readWord).bind fun n _ => ?_
  split
  · exact (yields_sequence yields_value).bind fun _ h =>
      Yields.pure (Value.itemsWritable_iff.2 h)
  · exact (Yields.any readText).bind fun _ _ => Yields.pure trivial
  · exact Yields.throw _

theorem reads_anchor {anchor : Option AtomId} (h : ∀ a, anchor = some a → a.Writable) :
    Reads (readOption readAtomId) (writeOption writeAtomId anchor) anchor :=
  reads_option fun a ha => reads_atomId (h a ha)

theorem reads_atomIds {ids : List AtomId} (h : ∀ a ∈ ids, a.Writable)
    (hsize : (writeSequence writeAtomId ids).length < 0x10000000000000000) :
    Reads (readSequence readAtomId) (writeSequence writeAtomId ids) ids := by
  have := length_le_writeSequence writeAtomId_length_pos ids
  exact reads_sequence (fun a ha => reads_atomId (h a ha)) (by omega)

theorem reads_slot {slot : Slot} (h : ∀ a, slot = .after (some a) → a.Writable)
    (hsize : (writeSlot slot).length < 0x10000000000000000) :
    Reads readSlot (writeSlot slot) slot := by
  cases slot with
  | after anchor =>
    have hanchor : Reads (readOption readAtomId) (writeOption writeAtomId anchor) anchor :=
      reads_anchor fun a ha => h a (by rw [ha])
    exact reads_alternative (n := 0) (by omega) (hanchor.map Slot.after)
  | key name =>
    rw [writeSlot, List.length_cons] at hsize
    have := size_lt_writeText name
    exact reads_alternative (n := 1) (by omega) ((reads_text (by omega)).map Slot.key)

theorem yields_slot : Yields readSlot fun slot => ∀ a, slot = .after (some a) → a.Writable := by
  refine (Yields.any readWord).bind fun n _ => ?_
  split
  · refine (yields_option yields_atomId).bind fun anchor h => Yields.pure fun a ha => ?_
    exact h a (Slot.after.inj ha)
  · exact (Yields.any readText).bind fun _ _ => Yields.pure fun a ha => by cases ha
  · exact Yields.throw _

theorem reads_action {action : Action} (h : action.Writable)
    (hsize : (writeAction action).length < 0x10000000000000000) :
    Reads readAction (writeAction action) action := by
  cases action with
  | insert anchor content =>
    rw [writeAction, List.length_append, List.length_cons] at hsize
    exact reads_alternative (n := 0) (by omega) ((reads_anchor h.1).bind
      ((reads_inserted h.2 (by omega)).map (Action.insert anchor)))
  | delete targets =>
    rw [writeAction, List.length_cons] at hsize
    exact reads_alternative (n := 1) (by omega)
      ((reads_atomIds h (by omega)).map Action.delete)
  | setField key value =>
    rw [writeAction, List.length_append, List.length_cons] at hsize
    have := size_lt_writeText key
    have hvalue : Reads (readOption readValue) (writeOption writeValue value) value := by
      refine reads_option fun v hv => reads_value (h v hv) ?_
      rw [hv, writeOption, List.length_cons] at hsize
      omega
    exact reads_alternative (n := 2) (by omega) ((reads_text (by omega)).bind
      (hvalue.map (Action.setField key)))
  | create slot kind =>
    rw [writeAction, List.length_append, List.length_cons] at hsize
    have hslot : ∀ a, slot = .after (some a) → a.Writable := by
      intro a heq
      subst heq
      exact h a rfl
    exact reads_alternative (n := 3) (by omega) ((reads_slot hslot (by omega)).bind
      ((reads_kind kind).map (Action.create slot)))

theorem yields_action : Yields readAction Action.Writable := by
  refine (Yields.any readWord).bind fun n _ => ?_
  split
  · exact (yields_option yields_atomId).bind fun _ ha => yields_inserted.bind fun _ hc =>
      Yields.pure ⟨ha, hc⟩
  · exact (yields_sequence yields_atomId).bind fun _ h => Yields.pure h
  · exact (Yields.any readText).bind fun _ _ => (yields_option yields_value).bind fun _ h =>
      Yields.pure h
  · refine yields_slot.bind fun slot h => (Yields.any readKind).bind fun kind _ => Yields.pure ?_
    cases slot with
    | after anchor =>
      intro a heq
      subst heq
      exact h a rfl
    | key name => trivial
  · exact Yields.throw _

theorem writeOperation_length_pos (op : Operation) : 0 < (writeOperation op).length := by
  have := writeAtomId_length_pos op.id
  simp only [writeOperation, List.length_append]
  omega

theorem reads_operation {op : Operation} (h : op.Writable)
    (hsize : (writeOperation op).length < 0x10000000000000000) :
    Reads readOperation (writeOperation op) op := by
  simp only [writeOperation, List.length_append] at hsize
  unfold writeOperation
  simp only [List.append_assoc]
  exact (reads_atomId h.id).bind <| (reads_word h.lamport).bind <|
    (reads_atomIds h.deps (by omega)).bind <| (reads_containerId h.container (by omega)).bind <|
      (reads_long h.timestamp).bind <| (reads_action h.action (by omega)).map
        (Operation.mk op.id op.lamport op.deps op.container op.timestamp)

theorem yields_operation : Yields readOperation Operation.Writable :=
  yields_atomId.bind fun _ hid => yields_word.bind fun _ hlamport =>
    (yields_sequence yields_atomId).bind fun _ hdeps => yields_containerId.bind fun _ hcontainer =>
      yields_long.bind fun _ htimestamp => yields_action.bind fun _ haction =>
        Yields.pure ⟨hid, hlamport, hdeps, hcontainer, htimestamp, haction⟩

end Wire

/-! ## Batches -/

namespace Batch

open Wire

theorem toByte_of_ofByte? {b : UInt8} {kind : BatchKind} (h : BatchKind.ofByte? b = some kind) :
    kind.toByte = b := by
  unfold BatchKind.ofByte? at h
  split at h
  · next hb =>
    cases h
    exact hb.symm
  · split at h
    · next hb =>
      cases h
      exact hb.symm
    · cases h

/-- Behind a sound header everything is up to the payload. -/
theorem decode_header (kind : BatchKind) (payload : Bytes) :
    decode (magic :: formatVersion :: kind.toByte :: payload) =
      match decodePayload payload with
      | .error e => .error e
      | .ok operations =>
        match flaw? operations with
        | some e => .error e
        | none => .ok ⟨kind, operations⟩ := by
  cases kind <;> rfl

/-- What was decoded has a sound header, and a payload that the operations use up. -/
theorem decode_ok {bytes : Bytes} {batch : Batch} (h : decode bytes = .ok batch) :
    ∃ payload, bytes = magic :: formatVersion :: batch.kind.toByte :: payload ∧
      readSequence readOperation payload = .ok (batch.operations, []) ∧
      flaw? batch.operations = none := by
  unfold decode at h
  split at h
  case h_2 => cases h
  case h_1 mark version kindByte payload =>
    split at h
    · cases h
    next hmark =>
    split at h
    · cases h
    next hversion =>
    split at h
    · cases h
    next kind hkind =>
    have hone : version = formatVersion := by
      obtain ⟨hpos, hle⟩ := not_or.1 hversion
      have hle := UInt8.not_lt.1 hle
      revert hpos hle
      simp only [formatVersion, UInt8.le_iff_toNat_le, ← UInt8.toNat_inj]
      simp
      omega
    obtain rfl := Decidable.not_not.1 hmark
    obtain rfl := hone
    obtain rfl := toByte_of_ofByte? hkind
    split at h
    · cases h
    next operations hpayload =>
    split at h
    · cases h
    next hflaw =>
    cases h
    refine ⟨payload, rfl, ?_, hflaw⟩
    unfold decodePayload at hpayload
    split at hpayload
    · cases hpayload
    next rest hread =>
    split at hpayload
    · next hrest =>
      cases hpayload
      rw [hread, List.isEmpty_iff.1 hrest]
    · cases hpayload

theorem flaw?_of_sound {operations : List Operation} (h : ∀ op ∈ operations, op.Sound) :
    flaw? operations = none := by
  unfold flaw?
  rw [List.findSome?_eq_none_iff]
  intro op hop
  rw [h op hop]
  rfl

/-- The first operation with a flaw is the one that is named. -/
theorem flaw?_append {before after : List Operation} {op : Operation} {flaw : Flaw}
    (h : ∀ o ∈ before, o.Sound) (hop : op.flaw? = some flaw) :
    flaw? (before ++ op :: after) = some (.invalidOperation op.id flaw) := by
  have hbefore := flaw?_of_sound h
  unfold flaw? at hbefore ⊢
  rw [List.findSome?_append, hbefore, Option.none_or, List.findSome?_cons, hop]
  rfl

/-- What was written is read to its end; only then operations are searched for flaws. -/
theorem decode_encode_eq {batch : Batch} (hwritable : ∀ op ∈ batch.operations, op.Writable)
    (hsize : batch.encode.length < 0x10000000000000000) :
    decode batch.encode =
      match flaw? batch.operations with
      | some e => .error e
      | none => .ok batch := by
  obtain ⟨kind, operations⟩ := batch
  simp only [encode, List.length_cons] at hsize
  have hcount := length_le_writeSequence writeOperation_length_pos operations
  have hread : readSequence readOperation (writeSequence writeOperation operations) =
      .ok (operations, []) := by
    have hread : Reads (readSequence readOperation) (writeSequence writeOperation operations)
        operations := by
      refine reads_sequence (fun op hop => ?_) (by omega)
      have := length_item_le_writeSequence writeOperation hop
      exact reads_operation (hwritable op hop) (by omega)
    have := hread []
    rwa [List.append_nil] at this
  rw [encode, decode_header]
  cases hflaw : flaw? operations with
  | none | some e => simp only [decodePayload, hread, List.isEmpty_nil, if_true, hflaw]

/-- A batch is read back as it was written. -/
theorem decode_encode {batch : Batch} (hsound : ∀ op ∈ batch.operations, op.Sound)
    (hwritable : ∀ op ∈ batch.operations, op.Writable)
    (hsize : batch.encode.length < 0x10000000000000000) :
    decode batch.encode = .ok batch := by
  rw [decode_encode_eq hwritable hsize, flaw?_of_sound hsound]

/-- Decoding undoes encoding, for batches of either kind and whatever operations the format has room
for: a batch of sound operations comes back as it was, to the last bit of a double, and any other
one is refused with the flaw of the first operation that has one. -/
theorem reads_back (batch : Batch) (hwritable : ∀ op ∈ batch.operations, op.Writable)
    (hsize : batch.encode.length < 0x10000000000000000) :
    ((∀ op ∈ batch.operations, op.Sound) → decode batch.encode = .ok batch) ∧
      ∀ before op after flaw, batch.operations = before ++ op :: after →
        (∀ o ∈ before, o.Sound) → op.flaw? = some flaw →
        decode batch.encode = .error (.invalidOperation op.id flaw) := by
  refine ⟨fun hsound => decode_encode hsound hwritable hsize, ?_⟩
  intro before op after flaw hoperations hsound hflaw
  rw [decode_encode_eq hwritable hsize, hoperations, flaw?_append hsound hflaw]

/-- A list with a nested map comes back; with a deletion of nothing behind it the batch is refused
for that. -/
theorem reads_back_nested :
    let value : Value := .map [("k", .list [.double ⟨0x7FF8000000000001⟩, .int (-1)])]
    let insertion : Operation :=
      ⟨⟨1, 0⟩, 0, [], .root "l" .list, 5, .insert none (.values [value, .null])⟩
    let deletion : Operation := ⟨⟨1, 2⟩, 2, [⟨1, 1⟩], .root "l" .list, 5, .delete []⟩
    decode (encode ⟨.updates, [insertion]⟩) = .ok ⟨.updates, [insertion]⟩ ∧
      decode (encode ⟨.snapshot, [insertion, deletion]⟩) =
        .error (.invalidOperation ⟨1, 2⟩ .emptyDelete) := by
  intro value insertion deletion
  have hinsertion : insertion.Writable := by
    refine ⟨by decide, by decide, fun d hd => absurd hd List.not_mem_nil, trivial, by decide,
      fun a ha => absurd ha (Option.some_ne_none a).symm, ?_⟩
    simp [value, Inserted.Writable, Value.ItemsWritable, Value.Writable, Value.FieldsWritable,
      Entries.Ascending]
  have hdeletion : deletion.Writable := by
    refine ⟨by decide, by decide, ?_, trivial, by decide, ?_⟩
    · intro d hd
      rw [List.mem_singleton.1 hd]
      decide
    · exact fun a ha => absurd ha List.not_mem_nil
  refine ⟨(reads_back ⟨.updates, [insertion]⟩ ?_ (by decide +kernel)).1 ?_,
    (reads_back ⟨.snapshot, [insertion, deletion]⟩ ?_ (by decide +kernel)).2 [insertion] deletion []
      _ rfl ?_ rfl⟩
  · exact fun op hop => List.mem_singleton.1 hop ▸ hinsertion
  · exact fun op hop => List.mem_singleton.1 hop ▸ rfl
  · intro op hop
    rcases List.mem_cons.1 hop with rfl | hop
    · exact hinsertion
    · exact List.mem_singleton.1 hop ▸ hdeletion
  · exact fun op hop => List.mem_singleton.1 hop ▸ rfl

/-- Operations that are read are sound and of the form that the format has. -/
theorem decode_sound {bytes : Bytes} {batch : Batch} (h : decode bytes = .ok batch) :
    ∀ op ∈ batch.operations, op.Sound ∧ op.Writable := by
  obtain ⟨payload, -, hread, hflaw⟩ := decode_ok h
  intro op hop
  refine ⟨?_, yields_sequence yields_operation _ _ _ hread op hop⟩
  have := List.findSome?_eq_none_iff.1 hflaw op hop
  simpa using this

end Batch

end CausalDoc
