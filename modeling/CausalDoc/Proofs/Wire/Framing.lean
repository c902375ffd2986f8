import CausalDoc.Proofs.Wire.Batch

/- The format delimits itself.

   A reader of the format finds the end of what it reads by itself: it takes the same bytes
   whatever follows them, and as long as some of them are missing it runs out of input and
   reports nothing else (`Framed`). This goes along with sequencing, so it comes down to single
   bytes and runs of bytes, at whatever place of whatever part the input is cut. The one
   reader that looks at the length of its whole input, that of values, takes it for a bound
   on the nesting only, and any larger bound serves as well (`readValue_eq`).

   So no batch is the beginning of another one, and one that is cut short or runs on is
   refused with an error that says which (`self_delimiting`). -/

namespace CausalDoc

namespace Wire

variable {α β : Type}

/-- The reader takes these bytes for `x` whatever follows, and short of any of them it runs
out of input. -/
structure Frames (read : Reader α) (bytes : Bytes) (x : α) : Prop where
  reads : Reads read bytes x
  cut : ∀ k < bytes.length, read (bytes.take k) = .error .endOfInput

/-- All that the reader ever takes, it takes in this way. -/
def Framed (read : Reader α) : Prop :=
  ∀ input x rest, read input = .ok (x, rest) → ∃ bytes, input = bytes ++ rest ∧ Frames read bytes x

theorem Frames.bind {read : Reader α} {next : α → Reader β} {bytes bytes' : Bytes} {x : α} {y : β}
    (h : Frames read bytes x) (h' : Frames (next x) bytes' y) :
    Frames (read >>= next) (bytes ++ bytes') y := by
  refine ⟨h.reads.bind h'.reads, fun k hk => ?_⟩
  rw [List.length_append] at hk
  rw [bind_apply, List.take_append]
  by_cases hfirst : k < bytes.length
  · have hnone : k - bytes.length = 0 := by omega
    rw [hnone, List.take_zero, List.append_nil, h.cut k hfirst]
  · -- The cut lies behind what the first reader takes.
    rw [List.take_of_length_le (by omega), h.reads]
    exact h'.cut _ (by omega)

namespace Framed

theorem pure (x : α) : Framed (pure x) := by
  intro input y rest hy
  cases hy
  exact ⟨[], rfl, Reads.pure x, fun k hk => absurd hk (Nat.not_lt_zero k)⟩

theorem throw (fault : Fault) : Framed (throw fault : Reader α) := by
  intro input y rest hy
  cases hy

theorem bind {read : Reader α} {next : α → Reader β} (h : Framed read)
    (h' : ∀ x, Framed (next x)) : Framed (read >>= next) := by
  intro input y rest hy
  rw [bind_apply] at hy
  split at hy
  · next x middle hx =>
    obtain ⟨bytes, rfl, hbytes⟩ := h _ _ _ hx
    obtain ⟨bytes', rfl, hbytes'⟩ := h' x _ _ _ hy
    exact ⟨bytes ++ bytes', (List.append_assoc ..).symm, hbytes.bind hbytes'⟩
  · cases hy

theorem map {read : Reader α} (f : α → β) (h : Framed read) :
    Framed (read >>= fun x => Pure.pure (f x)) :=
  h.bind fun _ => pure _

theorem length_le {read : Reader α} (h : Framed read) {input rest : Bytes} {x : α}
    (hx : read input = .ok (x, rest)) : rest.length ≤ input.length := by
  obtain ⟨bytes, rfl, -⟩ := h _ _ _ hx
  rw [List.length_append]
  omega

/-- A reader that cannot do without input leaves less than it was given. -/
theorem length_lt {read : Reader α} (h : Framed read) {fault : Fault}
    (hempty : read [] = .error fault) {input rest : Bytes} {x : α}
    (hx : read input = .ok (x, rest)) : rest.length < input.length := by
  obtain ⟨bytes, rfl, hbytes⟩ := h _ _ _ hx
  cases bytes with
  | nil =>
    have := hbytes.reads []
    rw [List.append_nil, hempty] at this
    cases this
  | cons b bytes =>
    rw [List.length_append, List.length_cons]
    omega

end Framed

/-! ## Building blocks -/

theorem framed_byte : Framed readByte := by
  intro input b rest h
  obtain rfl := readByte_ok h
  refine ⟨[b], rfl, reads_byte b, fun k hk => ?_⟩
  obtain rfl : k = 0 := Nat.lt_one_iff.1 hk
  rfl

theorem framed_bytes (n : Nat) : Framed (readBytes n) := by
  intro input bytes rest h
  obtain ⟨rfl, rfl⟩ := readBytes_ok h
  refine ⟨bytes, rfl, reads_bytes bytes, fun k hk => ?_⟩
  unfold readBytes
  rw [if_neg]
  rw [List.length_take]
  omega

theorem framed_varint (top : Nat) : ∀ groups, Framed (readVarint top groups)
  | 0 => Framed.throw _
  | groups + 1 => by
    unfold readVarint
    refine framed_byte.bind fun b => ?_
    split
    · split
      · exact Framed.throw _
      · exact Framed.pure _
    · exact (framed_varint top groups).map _

theorem framed_word : Framed readWord := framed_varint 15 5

theorem framed_long : Framed readLong := framed_varint 1 10

theorem framed_integer : Framed readInteger := framed_long.map _

theorem framed_double : Framed readDouble := (framed_bytes 8).map _

theorem framed_bool : Framed readBool := by
  refine framed_byte.bind fun b => ?_
  split
  · exact Framed.pure _
  · exact Framed.pure _
  · exact Framed.throw _

theorem framed_text : Framed readText := by
  refine framed_long.bind fun length => (framed_bytes length).bind fun bytes => ?_
  split
  · exact Framed.pure _
  · exact Framed.throw _

theorem framed_option {read : Reader α} (h : Framed read) : Framed (readOption read) := by
  refine framed_byte.bind fun b => ?_
  split
  · exact Framed.pure _
  · exact h.map _
  · exact Framed.throw _

theorem framed_items {read : Reader α} (h : Framed read) : ∀ n, Framed (readItems read n)
  | 0 => Framed.pure _
  | n + 1 => h.bind fun _ => (framed_items h n).map _

theorem framed_sequence {read : Reader α} (h : Framed read) : Framed (readSequence read) :=
  framed_long.bind (framed_items h)

/-! ## Names and values -/

theorem framed_atomId : Framed readAtomId := framed_long.bind fun _ => framed_word.map _

theorem framed_kind : Framed readKind := by
  refine framed_word.bind fun n => ?_
  split
  · exact Framed.pure _
  · exact Framed.pure _
  · exact Framed.pure _
  · exact Framed.throw _

theorem framed_containerId : Framed readContainerId := by
  refine framed_word.bind fun n => ?_
  split
  · exact framed_text.bind fun _ => framed_kind.map _
  · exact framed_atomId.bind fun _ => framed_kind.map _
  · exact Framed.throw _

theorem framed_field {read : Reader Value} (h : Framed read) : Framed (readField read) :=
  framed_text.bind fun _ => h.map _

theorem framed_valueWithin : ∀ depth, Framed (readValueWithin depth)
  | 0 => Framed.throw _
  | depth + 1 => by
    have hvalue := framed_valueWithin depth
    refine framed_word.bind fun n => ?_
    split
    · exact Framed.pure _
    · exact framed_bool.map _
    · exact framed_integer.map _
    · exact framed_double.map _
    · exact framed_text.map _
    · exact (framed_sequence hvalue).map _
    · exact (framed_sequence (framed_field hvalue)).map _
    · exact framed_containerId.map _
    · exact Framed.throw _

/-- The readers do the same with every input of at most `n` bytes. -/
def AgreeWithin (n : Nat) (read read' : Reader α) : Prop :=
  ∀ input, input.length ≤ n → read input = read' input

namespace AgreeWithin

variable {n : Nat} {read read' : Reader α}

theorem bind {next next' : α → Reader β} (hframed : Framed read) (h : AgreeWithin n read read')
    (h' : ∀ x, AgreeWithin n (next x) (next' x)) :
    AgreeWithin n (read >>= next) (read' >>= next') := by
  intro input hinput
  rw [bind_apply, bind_apply, ← h input hinput]
  cases hread : read input with
  | error fault => rfl
  | ok p => exact h' p.1 p.2 (Nat.le_trans (hframed.length_le hread) hinput)

theorem map (f : α → β) (hframed : Framed read) (h : AgreeWithin n read read') :
    AgreeWithin n (read >>= fun x => pure (f x)) (read' >>= fun x => pure (f x)) :=
  h.bind hframed fun _ _ _ => rfl

theorem items (hframed : Framed read) (h : AgreeWithin n read read') :
    ∀ count, AgreeWithin n (readItems read count) (readItems read' count)
  | 0 => fun _ _ => rfl
  | count + 1 =>
    h.bind hframed fun _ => (items hframed h count).map _ (framed_items hframed count)

theorem sequence (hframed : Framed read) (h : AgreeWithin n read read') :
    AgreeWithin n (readSequence read) (readSequence read') :=
  bind framed_long (fun _ _ => rfl) (h.items hframed)

theorem field {read read' : Reader Value} (hframed : Framed read) (h : AgreeWithin n read read') :
    AgreeWithin n (readField read) (readField read') :=
  bind framed_text (fun _ _ => rfl) fun _ => h.map _ hframed

end AgreeWithin

/-- One level more is of no use to an input that has no bytes for it: what is nested stands behind
the number of the alternative, in a shorter input. -/
theorem readValueWithin_succ : ∀ depth,
    AgreeWithin depth (readValueWithin (depth + 1)) (readValueWithin depth)
  | 0 => by
    intro input hinput
    obtain rfl := List.eq_nil_of_length_eq_zero (Nat.le_zero.1 hinput)
    rfl
  | depth + 1 => by
    have hagree := readValueWithin_succ depth
    have hframed := framed_valueWithin (depth + 1)
    intro input hinput
    rw [readValueWithin, readValueWithin, bind_apply, bind_apply]
    cases hword : readWord input with
    | error fault => rfl
    | ok p =>
      obtain ⟨n, rest⟩ := p
      have hrest : rest.length ≤ depth := by
        have := framed_word.length_lt rfl hword
        omega
      match n with
      | 0 | 1 | 2 | 3 | 4 | 7 => rfl
      | 5 => exact (hagree.sequence hframed).map _ (framed_sequence hframed) rest hrest
      | 6 =>
        have hfield := framed_field hframed
        exact ((hagree.field hframed).sequence hfield).map _ (framed_sequence hfield) rest hrest
      | n + 8 => rfl

theorem readValue_eq {depth : Nat} {input : Bytes} (h : input.length ≤ depth) :
    readValue input = readValueWithin depth input := by
  induction h with
  | refl => rfl
  | step h ih => rw [ih, readValueWithin_succ _ input h]

theorem framed_value : Framed readValue := by
  intro input v rest hv
  obtain ⟨bytes, rfl, hbytes⟩ := framed_valueWithin _ _ _ _ hv
  refine ⟨bytes, rfl, fun rest' => ?_, fun k hk => ?_⟩
  · -- A bound for both what followed and what follows now.
    have hvalue : readValueWithin ((bytes ++ rest).length + (bytes ++ rest').length)
        (bytes ++ rest) = .ok (v, rest) := by
      rw [← readValue_eq (Nat.le_add_right _ _)]
      exact hv
    obtain ⟨bytes', heq, hbytes'⟩ := framed_valueWithin _ _ _ _ hvalue
    obtain rfl := List.append_cancel_right heq
    rw [readValue_eq (Nat.le_add_left _ (bytes ++ rest).length)]
    exact hbytes'.reads rest'
  · have hle : (bytes.take k).length ≤ (bytes ++ rest).length := by
      rw [List.length_take, List.length_append]
      omega
    rw [readValue_eq hle]
    exact hbytes.cut k hk

/-! ## Operations -/

theorem framed_inserted : Framed readInserted := by
  refine framed_word.bind fun n => ?_
  split
  · exact (framed_sequence framed_value).map _
  · exact framed_text.map _
  · exact Framed.throw _

theorem framed_slot : Framed readSlot := by
  refine framed_word.bind fun n => ?_
  split
  · exact (framed_option framed_atomId).map _
  · exact framed_text.map _
  · exact Framed.throw _

theorem framed_action : Framed readAction := by
  refine framed_word.bind fun n => ?_
  split
  · exact (framed_option framed_atomId).bind fun _ => framed_inserted.map _
  · exact (framed_sequence framed_atomId).map _
  · exact framed_text.bind fun _ => (framed_option framed_value).map _
  · exact framed_slot.bind fun _ => framed_kind.map _
  · exact Framed.throw _

theorem framed_operation : Framed readOperation :=
  framed_atomId.bind fun _ => framed_word.bind fun _ =>
    (framed_sequence framed_atomId).bind fun _ => framed_containerId.bind fun _ =>
      framed_long.bind fun _ => framed_action.map _

end Wire

/-! ## Batches -/

namespace Batch

open Wire

/-- A batch ends where its bytes say. Cut short within the header it is refused as too short, cut
short anywhere else for running out of input, and followed by anything for the bytes left over; so
no batch is the beginning of another one. -/
theorem self_delimiting {bytes : Bytes} {batch : Batch} (h : decode bytes = .ok batch) :
    (∀ front, front <+: bytes → front ≠ bytes → decode front =
      .error (if front.length < 3 then .tooShort else .payload .endOfInput)) ∧
    (∀ more, more ≠ [] → decode (bytes ++ more) = .error (.trailingBytes more.length)) ∧
    ∀ bytes' batch', decode bytes' = .ok batch' → bytes <+: bytes' → bytes' = bytes := by
  obtain ⟨payload, rfl, hread, -⟩ := decode_ok h
  obtain ⟨whole, hwhole, hframes⟩ := framed_sequence framed_operation _ _ _ hread
  rw [List.append_nil] at hwhole
  subst hwhole
  have hmore : ∀ more, more ≠ [] →
      decode ((magic :: formatVersion :: batch.kind.toByte :: payload) ++ more) =
        .error (.trailingBytes more.length) := by
    intro more hne
    have hpayload : decodePayload (payload ++ more) = .error (.trailingBytes more.length) := by
      unfold decodePayload
      rw [hframes.reads more]
      dsimp only
      rw [if_neg (by simpa using hne)]
    rw [List.cons_append, List.cons_append, List.cons_append, decode_header, hpayload]
  refine ⟨?_, hmore, ?_⟩
  · intro front hfront hne
    -- the header is a fixed number of bytes, the payload is framed
    match front with
    | [] | [_] | [_, _] => rfl
    | b₀ :: b₁ :: b₂ :: front =>
      simp only [List.cons_prefix_cons] at hfront
      obtain ⟨rfl, rfl, rfl, hfront⟩ := hfront
      have hlt : front.length < payload.length := by
        refine Nat.lt_of_le_of_ne hfront.length_le fun heq => hne ?_
        rw [hfront.eq_of_length heq]
      have hpayload : decodePayload front = .error (.payload .endOfInput) := by
        have hcut := hframes.cut front.length hlt
        rw [← List.prefix_iff_eq_take.1 hfront] at hcut
        unfold decodePayload
        rw [hcut]
      rw [decode_header, hpayload, if_neg (by simp)]
  · rintro _ batch' hbatch' ⟨more, rfl⟩
    by_cases hnil : more = []
    · rw [hnil, List.append_nil]
    · rw [hmore more hnil] at hbatch'
      cases hbatch'

/-- A counter in more groups than it needs and keys out of order: the end of the batch is as plain
as ever. -/
theorem self_delimiting_unordered :
    let bytes : Bytes :=
      [0xCD, 1, 2, 1, 7, 0x80, 0, 0, 0, 0, 1, 108, 1, 5, 2, 1, 107, 1, 6, 2, 1, 98, 0, 1, 97, 2, 3]
    let fields := [("a", Value.int (-2)), ("b", .null)]
    let batch : Batch :=
      ⟨.snapshot, [⟨⟨7, 0⟩, 0, [], .root "l" .map, 5, .setField "k" (some (.map fields))⟩]⟩
    decode bytes = .ok batch ∧
      decode (bytes.take 2) = .error .tooShort ∧
      decode (bytes.take 26) = .error (.payload .endOfInput) ∧
      decode (bytes ++ [0, 0]) = .error (.trailingBytes 2) := by
  intro bytes fields batch
  have hdecode : decode bytes = .ok batch := rfl
  obtain ⟨hcut, hmore, -⟩ := self_delimiting hdecode
  exact ⟨hdecode, hcut _ (List.take_prefix 2 bytes) (by decide),
    hcut _ (List.take_prefix 26 bytes) (by decide), hmore [0, 0] (by decide)⟩

end Batch

end CausalDoc
