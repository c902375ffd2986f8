import CausalDoc.Proofs.Ordered
import CausalDoc.Proofs.Wire.Framing
import CausalDoc.Proofs.Wire.Spelling

/- Decoding normalises.

   Whatever a tracer takes can be spelt canonically: in no more bytes, from which it takes
   the same, and in the very same bytes where all that was open had been chosen canonically
   (`Normalises`). For a number these are the fewest groups (`Numeral.writeVarint_le`), for a
   map the fields in the order of their keys (`traces_map`); for what is put together it
   follows from the parts (`Traces.bind`). Each lemma `traces_x` says this of one tracer, that
   it reads what the reader reads, and that the canonical spelling is the one written. -/

namespace CausalDoc

namespace Wire

variable {α β : Type}

/-! ## Numerals -/

theorem Numeral.length_pos {n : Nat} {groups : Bytes} (h : Numeral n groups) :
    0 < groups.length := by
  cases h <;> simp

/-- Writing takes as few groups as any numeral, and only the one that is written has so few. -/
theorem Numeral.writeVarint_le {n : Nat} {groups : Bytes} (h : Numeral n groups) :
    (writeVarint n).length ≤ groups.length ∧
      (groups.length ≤ (writeVarint n).length → groups = writeVarint n) := by
  induction h with
  | @last b h =>
    rw [writeVarint_of_lt h, Nat.toUInt8, UInt8.ofNat_toNat]
    exact ⟨Nat.le_refl 1, fun _ => rfl⟩
  | @more b n groups h hn ih =>
    have hb := b.toNat_lt
    have hpos := hn.length_pos
    by_cases hlast : b.toNat - 128 + 128 * n < 128
    · rw [writeVarint_of_lt hlast]
      simp only [List.length_cons, List.length_nil]
      exact ⟨by omega, fun hle => absurd hle (by omega)⟩
    · have hhigh : (b.toNat - 128 + 128 * n) / 128 = n := by omega
      have hlow : (b.toNat - 128 + 128 * n) % 128 + 128 = b.toNat := by omega
      unfold writeVarint
      rw [if_neg hlast, hhigh, hlow, Nat.toUInt8, UInt8.ofNat_toNat]
      simp only [List.length_cons, Nat.add_le_add_iff_right]
      exact ⟨ih.1, fun hle => by rw [ih.2 hle]⟩

theorem numeral_writeVarint (n : Nat) : Numeral n (writeVarint n) := by
  induction n using Nat.strongRecOn with
  | ind n ih =>
    unfold writeVarint
    split
    · next hlast =>
      have hb : n.toUInt8.toNat = n := toNat_toUInt8 (by omega)
      have := Numeral.last (b := n.toUInt8) (by omega)
      rwa [hb] at this
    · next hmore =>
      have hb : (n % 128 + 128).toUInt8.toNat = n % 128 + 128 := toNat_toUInt8 (by omega)
      have := Numeral.more (b := (n % 128 + 128).toUInt8) (by omega) (ih (n / 128) (by omega))
      rw [hb] at this
      rwa [show n % 128 + 128 - 128 + 128 * (n / 128) = n by omega] at this

theorem canonical_writeVarint (n : Nat) : (Choice.number n (writeVarint n)).Canonical :=
  fun _ h => h.writeVarint_le.1

theorem Choice.Canonical.eq_writeVarint {n : Nat} {groups : Bytes}
    (h : (Choice.number n groups).Canonical) (hn : Numeral n groups) : groups = writeVarint n :=
  hn.writeVarint_le.2 (h _ (numeral_writeVarint n))

theorem readVarint_numeral (top : Nat) : ∀ (groups : Nat) {input rest : Bytes} {n : Nat},
    readVarint top groups input = .ok (n, rest) → ∃ used, input = used ++ rest ∧ Numeral n used
  | 0, _, _, _, h => by cases h
  | groups + 1, [], _, _, h => by cases h
  | groups + 1, b :: input, rest, n, h => by
    rw [readVarint, bind_apply] at h
    simp only [readByte] at h
    split at h
    · next hlast =>
      split at h
      · cases h
      · cases h
        exact ⟨[b], rfl, .last hlast⟩
    · next hmore =>
      rw [bind_apply] at h
      split at h
      · next high middle hhigh =>
        obtain ⟨used, rfl, hn⟩ := readVarint_numeral top groups hhigh
        cases h
        exact ⟨b :: used, rfl, .more (by omega) hn⟩
      · cases h

/-! ## Tracers -/

/-- From these bytes the tracer gives `x`, whatever follows, and notes canonical choices only. -/
def Rereads (trace : Tracer α) (bytes : Bytes) (x : α) : Prop :=
  ∃ choices, (∀ c ∈ choices, c.Canonical) ∧ Reads trace.run bytes (x, choices)

/-- The bytes `written` say what the tracer took from the bytes `used`: they are not longer, and
they are the same bytes where everything open was chosen canonically. -/
structure Normalises (trace : Tracer α) (used : Bytes) (choices : List Choice) (written : Bytes)
    (x : α) : Prop where
  length_le : written.length ≤ used.length
  eq : (∀ c ∈ choices, c.Canonical) → used = written
  rereads : Rereads trace written x

/-- The tracer follows the reader as long as the input has no more bytes than the depth, and what it
takes can be normalised to bytes that stand in the relation `P` to what was read. -/
structure Traces (depth : Nat) (trace : Tracer α) (read : Reader α) (P : α → Bytes → Prop) :
    Prop where
  follows : ∀ input, input.length ≤ depth →
    read input = (trace.run input).map fun p => (p.1.1, p.2)
  normal : ∀ input x choices rest, trace.run input = .ok ((x, choices), rest) →
    ∃ used written, input = used ++ rest ∧ P x written ∧ Normalises trace used choices written x

theorem run_bind_apply (trace : Tracer α) (next : α → Tracer β) (input : Bytes) :
    (trace >>= next).run input =
      match trace.run input with
      | .ok ((x, choices), rest) =>
        ((next x).run rest).map fun p => ((p.1.1, choices ++ p.1.2), p.2)
      | .error fault => .error fault := by
  show (trace.run >>= fun p => (fun q : β × List Choice => (q.1, p.2 ++ q.2)) <$> (next p.1).run)
    input = _
  rw [bind_apply]
  cases trace.run input with
  | error fault => rfl
  | ok p =>
    obtain ⟨⟨x, choices⟩, rest⟩ := p
    show ((next x).run rest >>= fun q => _) = ((next x).run rest).map _
    cases (next x).run rest <;> rfl

theorem Rereads.pure (x : α) : Rereads (pure x) [] x :=
  ⟨[], fun _ h => absurd h List.not_mem_nil, fun _ => rfl⟩

theorem Rereads.bind {trace : Tracer α} {next : α → Tracer β} {bytes bytes' : Bytes} {x : α} {y : β}
    (h : Rereads trace bytes x) (h' : Rereads (next x) bytes' y) :
    Rereads (trace >>= next) (bytes ++ bytes') y := by
  obtain ⟨choices, hcanonical, hreads⟩ := h
  obtain ⟨choices', hcanonical', hreads'⟩ := h'
  refine ⟨choices ++ choices', List.forall_mem_append.2 ⟨hcanonical, hcanonical'⟩, fun rest => ?_⟩
  rw [run_bind_apply, List.append_assoc, hreads]
  dsimp only
  rw [hreads']
  rfl

theorem Normalises.bind {trace : Tracer α} {next : α → Tracer β}
    {used used' written written' : Bytes} {choices choices' : List Choice} {x : α} {y : β}
    (h : Normalises trace used choices written x)
    (h' : Normalises (next x) used' choices' written' y) :
    Normalises (trace >>= next) (used ++ used') (choices ++ choices') (written ++ written') y where
  length_le := by
    simp only [List.length_append]
    exact Nat.add_le_add h.length_le h'.length_le
  eq hcanonical := by
    obtain ⟨hfirst, hsecond⟩ := List.forall_mem_append.1 hcanonical
    rw [h.eq hfirst, h'.eq hsecond]
  rereads := h.rereads.bind h'.rereads

namespace Traces

variable {depth : Nat} {trace : Tracer α} {read : Reader α} {P : α → Bytes → Prop}

theorem mono {Q : α → Bytes → Prop} (h : Traces depth trace read P)
    (hPQ : ∀ x written, P x written → Q x written) : Traces depth trace read Q := by
  refine ⟨h.follows, fun input x choices rest hrun => ?_⟩
  obtain ⟨used, written, hinput, hP, hnormal⟩ := h.normal _ _ _ _ hrun
  exact ⟨used, written, hinput, hPQ _ _ hP, hnormal⟩

theorem rereads (h : Traces depth trace read P) :
    Traces depth trace read fun x written => P x written ∧ Rereads trace written x := by
  refine ⟨h.follows, fun input x choices rest hrun => ?_⟩
  obtain ⟨used, written, hinput, hP, hnormal⟩ := h.normal _ _ _ _ hrun
  exact ⟨used, written, hinput, ⟨hP, hnormal.rereads⟩, hnormal⟩

theorem exists_run (h : Traces depth trace read P) {input rest : Bytes} {x : α}
    (hinput : input.length ≤ depth) (hread : read input = .ok (x, rest)) :
    ∃ choices, trace.run input = .ok ((x, choices), rest) := by
  have hfollows := h.follows input hinput
  rw [hread] at hfollows
  cases hrun : trace.run input with
  | error fault =>
    rw [hrun] at hfollows
    cases hfollows
  | ok p =>
    obtain ⟨⟨y, choices⟩, rest'⟩ := p
    rw [hrun] at hfollows
    cases hfollows
    exact ⟨choices, rfl⟩

theorem pure {x : α} (h : P x []) : Traces depth (pure x) (pure x) P := by
  refine ⟨fun _ _ => rfl, fun input y choices rest hrun => ?_⟩
  cases hrun
  exact ⟨[], [], rfl, h, Nat.le_refl 0, fun _ => rfl, Rereads.pure x⟩

theorem throw (fault : Fault) :
    Traces depth (throw fault : Tracer α) (throw fault : Reader α) P := by
  refine ⟨fun _ _ => rfl, fun input y choices rest hrun => ?_⟩
  cases hrun

theorem bind {next : α → Tracer β} {next' : α → Reader β} {Q : β → Bytes → Prop}
    (h : Traces depth trace read P)
    (h' : ∀ x written, P x written →
      Traces depth (next x) (next' x) fun y written' => Q y (written ++ written')) :
    Traces depth (trace >>= next) (read >>= next') Q := by
  refine ⟨fun input hinput => ?_, fun input y choices rest hrun => ?_⟩
  · rw [bind_apply, run_bind_apply, h.follows input hinput]
    cases hrun : trace.run input with
    | error fault => rfl
    | ok p =>
      obtain ⟨⟨x, choices⟩, middle⟩ := p
      obtain ⟨used, written, rfl, hP, -⟩ := h.normal _ _ _ _ hrun
      rw [List.length_append] at hinput
      simp only [Except.map, (h' x written hP).follows middle (by omega)]
      cases (next x).run middle <;> rfl
  · rw [run_bind_apply] at hrun
    split at hrun
    · next x choices₁ middle hx =>
      cases hy : (next x).run middle with
      | error fault =>
        rw [hy] at hrun
        cases hrun
      | ok p =>
        obtain ⟨⟨y', choices₂⟩, rest'⟩ := p
        rw [hy] at hrun
        cases hrun
        obtain ⟨used₁, written₁, rfl, hP, hnormal₁⟩ := h.normal _ _ _ _ hx
        obtain ⟨used₂, written₂, rfl, hQ, hnormal₂⟩ := (h' x written₁ hP).normal _ _ _ _ hy
        exact ⟨used₁ ++ used₂, written₁ ++ written₂, (List.append_assoc ..).symm, hQ,
          hnormal₁.bind hnormal₂⟩
    · cases hrun

theorem map {Q : β → Bytes → Prop} (f : α → β) (h : Traces depth trace read P)
    (hPQ : ∀ x written, P x written → Q (f x) written) :
    Traces depth (trace >>= fun x => Pure.pure (f x)) (read >>= fun x => Pure.pure (f x)) Q := by
  refine h.bind fun x written hP => Traces.pure ?_
  rw [List.append_nil]
  exact hPQ x written hP

/-- Where nothing is open, there is nothing to note. -/
theorem lift
    (h : ∀ input x rest, read input = .ok (x, rest) →
      ∃ used, input = used ++ rest ∧ P x used ∧ Reads read used x) :
    Traces depth (liftM read) read P := by
  have hrun : ∀ input, (liftM read : Tracer α).run input =
      (read input).map fun p => ((p.1, []), p.2) := by
    intro input
    show (read input >>= fun p => _) = _
    cases read input <;> rfl
  refine ⟨fun input _ => ?_, fun input x choices rest hx => ?_⟩
  · rw [hrun]
    cases read input <;> rfl
  · rw [hrun] at hx
    cases hread : read input with
    | error fault =>
      rw [hread] at hx
      cases hx
    | ok p =>
      rw [hread] at hx
      cases hx
      obtain ⟨used, rfl, hP, hreads⟩ := h _ _ _ hread
      refine ⟨used, used, rfl, hP, Nat.le_refl _, fun _ => rfl, [],
        fun _ h => absurd h List.not_mem_nil, fun rest => ?_⟩
      rw [hrun, hreads]
      rfl

end Traces

/-! ## Building blocks -/

section

variable {depth : Nat}

theorem traceVarint_apply (top groups : Nat) (input : Bytes) :
    (traceVarint top groups).run input =
      match readVarint top groups input with
      | .ok (n, rest) => .ok ((n, [.number n (input.take (input.length - rest.length))]), rest)
      | .error fault => .error fault :=
  rfl

theorem rereads_varint {top : Nat} (htop : top < 128) {groups n : Nat}
    (h : n < (top + 1) * 128 ^ groups) :
    Rereads (traceVarint top (groups + 1)) (writeVarint n) n := by
  refine ⟨[.number n (writeVarint n)],
    fun c hc => List.mem_singleton.1 hc ▸ canonical_writeVarint n, fun rest => ?_⟩
  rw [traceVarint_apply, reads_varint top htop groups n h rest]
  dsimp only
  rw [List.length_append, Nat.add_sub_cancel, List.take_left]

theorem traces_varint {top : Nat} (htop : top < 128) (groups : Nat) :
    Traces depth (traceVarint top (groups + 1)) (readVarint top (groups + 1)) fun n written =>
      n < (top + 1) * 128 ^ groups ∧ written = writeVarint n := by
  refine ⟨fun input _ => ?_, fun input n choices rest hn => ?_⟩
  · rw [traceVarint_apply]
    cases readVarint top (groups + 1) input <;> rfl
  · rw [traceVarint_apply] at hn
    split at hn
    · next m middle hread =>
      cases hn
      have hlt := yields_varint top groups _ _ _ hread
      obtain ⟨used, rfl, hnumeral⟩ := readVarint_numeral top _ hread
      rw [List.length_append, Nat.add_sub_cancel, List.take_left]
      refine ⟨used, writeVarint n, rfl, ⟨hlt, rfl⟩, hnumeral.writeVarint_le.1, fun hcanonical => ?_,
        rereads_varint htop hlt⟩
      exact (hcanonical _ (List.mem_singleton_self _)).eq_writeVarint hnumeral
    · cases hn

theorem traces_long : Traces depth traceLong readLong fun n written =>
    n < 0x10000000000000000 ∧ written = writeVarint n :=
  traces_varint (by decide) 9

theorem traces_word : Traces depth traceWord readWord fun n written => written = writeVarint n :=
  (traces_varint (by decide) 4).mono fun _ _ h => h.2

theorem traces_tag : Traces depth traceWord readWord fun n written =>
    n < 128 → written = [n.toUInt8] :=
  traces_word.mono fun _ _ h hn => h.trans (writeVarint_of_lt hn)

theorem traces_integer :
    Traces depth traceInteger readInteger fun n written => written = writeInteger n :=
  traces_long.map unzigzag fun m _ h => by rw [h.2, writeInteger, zigzag_unzigzag h.1]

theorem traces_bytes (n : Nat) : Traces depth (liftM (readBytes n)) (readBytes n)
    fun bytes written => bytes.length = n ∧ written = bytes := by
  refine Traces.lift fun input bytes rest h => ?_
  obtain ⟨rfl, rfl⟩ := readBytes_ok h
  exact ⟨bytes, rfl, ⟨rfl, rfl⟩, reads_bytes bytes⟩

theorem traces_byte : Traces depth (liftM readByte) readByte fun b written =>
    written = [b.toNat.toUInt8] := by
  refine Traces.lift fun input b rest h => ?_
  obtain rfl := readByte_ok h
  exact ⟨[b], rfl, by rw [Nat.toUInt8, UInt8.ofNat_toNat], reads_byte b⟩

theorem traces_double :
    Traces depth traceDouble readDouble fun d written => written = writeDouble d := by
  refine (traces_bytes 8).map _ fun bytes written hbytes => ?_
  obtain ⟨hlength, rfl⟩ := hbytes
  have hbits : (ofLittleEndian written).toUInt64.toNat = ofLittleEndian written := by
    have := ofLittleEndian_lt written
    rw [hlength] at this
    rw [Nat.toUInt64, UInt64.toNat_ofNat']
    omega
  rw [writeDouble, hbits, ← hlength, littleEndian_ofLittleEndian]

theorem traces_bool :
    Traces depth traceBool readBool fun b written => written = writeBool b := by
  refine traces_byte.bind fun b written hb => ?_
  subst hb
  match b.toNat with
  | 0 => exact Traces.pure rfl
  | 1 => exact Traces.pure rfl
  | n + 2 => exact Traces.throw _

theorem traces_text : Traces depth traceText readText fun s written => written = writeText s := by
  refine traces_long.bind fun length written hlength => (traces_bytes length).bind
    fun _ bytes hbytes => ?_
  obtain ⟨-, rfl⟩ := hlength
  obtain ⟨rfl, rfl⟩ := hbytes
  cases hs : String.fromUTF8? ⟨bytes.toArray⟩ with
  | none => exact Traces.throw _
  | some s =>
    refine Traces.pure ?_
    rw [List.append_nil, writeText, bytes_of_fromUTF8? hs]
    rfl

theorem traces_option {trace : Tracer α} {read : Reader α} {write : α → Bytes}
    (h : Traces depth trace read fun x written => written = write x) :
    Traces depth (traceOption trace) (readOption read) fun o written =>
      written = writeOption write o := by
  refine traces_byte.bind fun b written hb => ?_
  subst hb
  match b.toNat with
  | 0 => exact Traces.pure rfl
  | 1 => exact h.map some fun x _ hx => by rw [hx]; rfl
  | n + 2 => exact Traces.throw _

theorem traces_items {trace : Tracer α} {read : Reader α} {write : α → Bytes}
    (h : Traces depth trace read fun x written => written = write x) : ∀ n,
    Traces depth (traceItems trace n) (readItems read n) fun items written =>
      items.length = n ∧ written = items.flatMap write ∧
        ∀ x ∈ items, Rereads trace (write x) x
  | 0 => Traces.pure ⟨rfl, rfl, fun _ hx => absurd hx List.not_mem_nil⟩
  | n + 1 => by
    refine h.rereads.bind fun x written hx => (traces_items h n).map _
      fun items written' hitems => ?_
    obtain ⟨rfl, hx⟩ := hx
    obtain ⟨hlength, rfl, hitems⟩ := hitems
    exact ⟨congrArg (· + 1) hlength, List.flatMap_cons.symm, List.forall_mem_cons.2 ⟨hx, hitems⟩⟩

theorem traces_sequence {trace : Tracer α} {read : Reader α} {write : α → Bytes}
    (h : Traces depth trace read fun x written => written = write x) :
    Traces depth (traceSequence trace) (readSequence read) fun items written =>
      items.length < 0x10000000000000000 ∧ written = writeSequence write items ∧
        ∀ x ∈ items, Rereads trace (write x) x := by
  refine traces_long.bind fun n written hn => (traces_items h n).mono
    fun items written' hitems => ?_
  obtain ⟨hlt, rfl⟩ := hn
  obtain ⟨rfl, rfl, hitems⟩ := hitems
  exact ⟨hlt, rfl, hitems⟩

theorem rereads_items {trace : Tracer α} {write : α → Bytes} : ∀ {items : List α},
    (∀ x ∈ items, Rereads trace (write x) x) →
      Rereads (traceItems trace items.length) (items.flatMap write) items
  | [], _ => Rereads.pure []
  | x :: items, h => by
    obtain ⟨hx, hitems⟩ := List.forall_mem_cons.1 h
    have hrest : Rereads (traceItems trace items.length >>= fun ys => pure (x :: ys))
        (items.flatMap write ++ []) (x :: items) :=
      (rereads_items hitems).bind (Rereads.pure (x :: items))
    rw [List.append_nil] at hrest
    exact hx.bind hrest

theorem rereads_sequence {trace : Tracer α} {write : α → Bytes} {items : List α}
    (hlength : items.length < 0x10000000000000000) (h : ∀ x ∈ items, Rereads trace (write x) x) :
    Rereads (traceSequence trace) (writeSequence write items) items := by
  have hcount : Rereads traceLong (writeVarint items.length) items.length :=
    rereads_varint (by decide) hlength
  exact hcount.bind (rereads_items h)

/-! ## Names -/

theorem traces_atomId : Traces depth traceAtomId readAtomId fun id written =>
    written = writeAtomId id := by
  refine traces_long.bind fun peer written hpeer => traces_word.map _ fun counter written' hc => ?_
  rw [hpeer.2, hc, writeAtomId]

theorem traces_kind : Traces depth traceKind readKind fun kind written =>
    written = writeKind kind := by
  refine traces_word.bind fun n written hn => ?_
  subst hn
  match n with
  | 0 | 1 | 2 => exact Traces.pure (List.append_nil _)
  | n + 3 => exact Traces.throw _

theorem traces_containerId : Traces depth traceContainerId readContainerId fun id written =>
    written = writeContainerId id := by
  refine traces_tag.bind fun n tag htag => ?_
  match n with
  | 0 =>
    refine traces_text.bind fun name written hname => traces_kind.map _
      fun kind written' hkind => ?_
    rw [htag (by decide), hname, hkind]
    rfl
  | 1 =>
    refine traces_atomId.bind fun id written hid => traces_kind.map _
      fun kind written' hkind => ?_
    rw [htag (by decide), hid, hkind]
    rfl
  | n + 2 => exact Traces.throw _

/-! ## Values -/

theorem writeValues_eq : ∀ vs : List Value, writeValues vs = vs.flatMap writeValue
  | [] => rfl
  | v :: vs => by rw [writeValues, writeValues_eq vs, List.flatMap_cons]

def writeField (f : String × Value) : Bytes := writeText f.1 ++ writeValue f.2

theorem writeFields_eq : ∀ fs : List (String × Value), writeFields fs = fs.flatMap writeField
  | [] => rfl
  | (k, v) :: fs => by rw [writeFields, writeFields_eq fs, List.flatMap_cons, writeField]

theorem writeValue_list (items : List Value) :
    writeValue (.list items) = 5 :: writeSequence writeValue items := by
  rw [writeValue, writeValues_eq, writeSequence, List.cons_append]

theorem writeValue_map (fields : List (String × Value)) :
    writeValue (.map fields) = 6 :: writeSequence writeField fields := by
  rw [writeValue, writeFields_eq, writeSequence, List.cons_append]

/-- Sorting fields by their keys, the later over the earlier, makes their sequence no longer. -/
theorem writeSequence_ofList_le (fields : List (String × Value)) :
    (writeSequence writeField (Entries.ofList fields)).length ≤
      (writeSequence writeField fields).length := by
  have := Entries.length_flatMap_ofList_le writeField fields
  have := writeVarint_length_mono (Entries.length_ofList_le fields)
  simp only [writeSequence, List.length_append]
  omega

theorem traces_field {trace : Tracer Value} {read : Reader Value}
    (h : Traces depth trace read fun v written => written = writeValue v) :
    Traces depth (traceField trace) (readField read) fun f written => written = writeField f := by
  refine traces_text.bind fun key written hkey => h.map _ fun v written' hv => ?_
  rw [hkey, hv, writeField]

theorem traceMap_apply (trace : Tracer Value) (input : Bytes) :
    (traceMap trace).run input =
      match (traceSequence (traceField trace)).run input with
      | .ok ((fields, choices), rest) =>
        .ok ((.ofFields fields, choices ++ [.fields (fields.map Prod.fst)]), rest)
      | .error fault => .error fault := by
  rw [traceMap, run_bind_apply]
  cases (traceSequence (traceField trace)).run input <;> rfl

/-- A map is written with its fields in the order of their keys; what was read is the same when they
stood in this order. -/
theorem traces_map {trace : Tracer Value} {read : Reader Value}
    (h : Traces depth trace read fun v written => written = writeValue v) :
    Traces depth (traceMap trace) (do return .ofFields (← readSequence (readField read)))
      fun v written => 6 :: written = writeValue v := by
  have hsequence := traces_sequence (traces_field h)
  refine ⟨fun input hinput => ?_, fun input v choices rest hrun => ?_⟩
  · rw [bind_apply, traceMap_apply, hsequence.follows input hinput]
    cases (traceSequence (traceField trace)).run input <;> rfl
  · rw [traceMap_apply] at hrun
    split at hrun
    · next fields choices rest hfields =>
      cases hrun
      obtain ⟨used, written, rfl, ⟨hlength, rfl, hrereads⟩, hnormal⟩ :=
        hsequence.normal _ _ _ _ hfields
      refine ⟨used, writeSequence writeField (Entries.ofList fields), rfl,
        (writeValue_map _).symm, ?_, fun hcanonical => ?_, ?_⟩
      · exact Nat.le_trans (writeSequence_ofList_le fields) hnormal.length_le
      · obtain ⟨hparts, hkeys⟩ := List.forall_mem_append.1 hcanonical
        have hascending : Entries.Ascending fields :=
          List.pairwise_map.1 (hkeys _ (List.mem_singleton_self _))
        rw [hnormal.eq hparts, Entries.ofList_of_ascending hascending]
      · have hsorted := Entries.ascending_ofList fields
        have hcount := Entries.length_ofList_le fields
        obtain ⟨choices', hcanonical, hreads⟩ := rereads_sequence
          (Nat.lt_of_le_of_lt hcount hlength) fun f hf => hrereads f (Entries.mem_of_mem_ofList hf)
        refine ⟨choices' ++ [.fields ((Entries.ofList fields).map Prod.fst)],
          List.forall_mem_append.2 ⟨hcanonical, ?_⟩, fun rest => ?_⟩
        · exact fun c hc => List.mem_singleton.1 hc ▸ List.pairwise_map.2 hsorted
        · rw [traceMap_apply, hreads]
          dsimp only
          rw [Value.ofFields, Value.ofFields, Entries.ofList_of_ascending hsorted]
    · cases hrun

theorem traces_valueWithin : ∀ nesting,
    Traces depth (traceValue nesting) (readValueWithin nesting) fun v written =>
      written = writeValue v
  | 0 => Traces.throw _
  | nesting + 1 => by
    have hvalue := traces_valueWithin nesting
    refine traces_tag.bind fun n tag htag => ?_
    match n with
    | 0 => exact Traces.pure (by rw [htag (by decide)]; rfl)
    | 1 => exact traces_bool.map _ fun b written hb => by rw [htag (by decide), hb]; rfl
    | 2 => exact traces_integer.map _ fun n written hn => by rw [htag (by decide), hn]; rfl
    | 3 => exact traces_double.map _ fun d written hd => by rw [htag (by decide), hd]; rfl
    | 4 => exact traces_text.map _ fun s written hs => by rw [htag (by decide), hs]; rfl
    | 5 =>
      refine (traces_sequence hvalue).map _ fun items written hitems => ?_
      rw [htag (by decide), hitems.2.1, writeValue_list]
      rfl
    | 6 =>
      refine (traces_map hvalue).mono fun v written hv => ?_
      rw [htag (by decide), ← hv]
      rfl
    | 7 => exact traces_containerId.map _ fun id written hid => by rw [htag (by decide), hid]; rfl
    | n + 8 => exact Traces.throw _

/-- The reader takes its own input for the bound, which the depth is not below. -/
theorem traces_value : Traces depth (traceValue depth) readValue fun v written =>
    written = writeValue v := by
  have hvalue : Traces depth (traceValue depth) _ _ := traces_valueWithin depth
  refine ⟨fun input hinput => ?_, hvalue.normal⟩
  rw [readValue_eq hinput, hvalue.follows input hinput]

/-! ## Operations -/

theorem traces_inserted : Traces depth (traceInserted depth) readInserted fun content written =>
    written = writeInserted content := by
  refine traces_tag.bind fun n tag htag => ?_
  match n with
  | 0 =>
    refine (traces_sequence traces_value).map _ fun vs written hvs => ?_
    rw [htag (by decide), hvs.2.1]
    rfl
  | 1 => exact traces_text.map _ fun t written ht => by rw [htag (by decide), ht]; rfl
  | n + 2 => exact Traces.throw _

theorem traces_anchor : Traces depth (traceOption traceAtomId) (readOption readAtomId)
    fun anchor written => written = writeOption writeAtomId anchor :=
  traces_option traces_atomId

theorem traces_atomIds : Traces depth (traceSequence traceAtomId) (readSequence readAtomId)
    fun ids written => written = writeSequence writeAtomId ids :=
  (traces_sequence traces_atomId).mono fun _ _ h => h.2.1

theorem traces_slot : Traces depth traceSlot readSlot fun slot written =>
    written = writeSlot slot := by
  refine traces_tag.bind fun n tag htag => ?_
  match n with
  | 0 => exact traces_anchor.map _ fun a written ha => by rw [htag (by decide), ha]; rfl
  | 1 => exact traces_text.map _ fun name written hname => by rw [htag (by decide), hname]; rfl
  | n + 2 => exact Traces.throw _

theorem traces_action : Traces depth (traceAction depth) readAction fun action written =>
    written = writeAction action := by
  refine traces_tag.bind fun n tag htag => ?_
  match n with
  | 0 =>
    refine traces_anchor.bind fun anchor written ha => traces_inserted.map _
      fun content written' hcontent => ?_
    rw [htag (by decide), ha, hcontent]
    rfl
  | 1 => exact traces_atomIds.map _ fun ids written hids => by rw [htag (by decide), hids]; rfl
  | 2 =>
    refine traces_text.bind fun key written hkey => (traces_option traces_value).map _
      fun value written' hvalue => ?_
    rw [htag (by decide), hkey, hvalue]
    rfl
  | 3 =>
    refine traces_slot.bind fun slot written hslot => traces_kind.map _
      fun kind written' hkind => ?_
    rw [htag (by decide), hslot, hkind]
    rfl
  | n + 4 => exact Traces.throw _

theorem traces_operation : Traces depth (traceOperation depth) readOperation fun op written =>
    written = writeOperation op := by
  refine traces_atomId.bind fun id _ hid => traces_word.bind fun lamport _ hlamport =>
    traces_atomIds.bind fun deps _ hdeps => traces_containerId.bind fun container _ hcontainer =>
      traces_long.bind fun timestamp _ htimestamp => traces_action.map _ fun action _ haction => ?_
  rw [hid, hlamport, hdeps, hcontainer, htimestamp.2, haction]
  simp only [writeOperation, List.append_assoc]

end

end Wire

/-! ## Batches -/

namespace Batch

open Wire

/-- Decoding normalises. Whatever was decoded, canonical or not, is of sound operations and is
written in no more bytes than it was read from, which decode to the same batch; and it is written in
the very bytes that it was read from exactly when every number in them has as few groups as possible
and the keys of every map ascend. -/
theorem decode_normalises {bytes : Bytes} {batch : Batch} (h : decode bytes = .ok batch) :
    (∀ op ∈ batch.operations, op.flaw? = none) ∧ decode batch.encode = .ok batch ∧
      batch.encode.length ≤ bytes.length ∧
      ∃ choices, tracePayload (bytes.drop 3) = .ok ((batch.operations, choices), []) ∧
        (batch.encode = bytes ↔ ∀ c ∈ choices, c.Canonical) := by
  obtain ⟨payload, rfl, hread, hflaw⟩ := decode_ok h
  have htraces : Traces payload.length (traceSequence (traceOperation payload.length)) _ _ :=
    traces_sequence traces_operation
  obtain ⟨choices, htrace⟩ := htraces.exists_run (Nat.le_refl _) hread
  obtain ⟨used, written, hused, ⟨-, rfl, -⟩, hnormal⟩ := htraces.normal _ _ _ _ htrace
  rw [List.append_nil] at hused
  subst hused
  obtain ⟨choices', hcanonical, hreads⟩ := hnormal.rereads
  have hrerun := hreads []
  rw [List.append_nil] at hrerun
  refine ⟨fun op hop => (decode_sound h op hop).1, ?_, ?_, choices, htrace, ?_⟩
  · have hreread : readSequence readOperation
        (writeSequence writeOperation batch.operations) = .ok (batch.operations, []) := by
      rw [htraces.follows _ hnormal.length_le, hrerun]
      rfl
    rw [encode, decode_header]
    simp only [decodePayload, hreread, List.isEmpty_nil, if_true, hflaw]
  · simp only [encode, List.length_cons, Nat.add_le_add_iff_right]
    exact hnormal.length_le
  · simp only [encode, List.cons.injEq, true_and]
    constructor
    · -- What is written holds canonical choices only, and the same bytes hold the same choices.
      intro heq
      rw [heq, htrace] at hrerun
      cases hrerun
      exact hcanonical
    · exact fun hall => (hnormal.eq hall).symm

/-- A counter in two groups and keys out of order: a byte fewer is needed, and the choices tell. -/
theorem decode_normalises_unordered :
    let bytes : Bytes :=
      [0xCD, 1, 2, 1, 7, 0x80, 0, 0, 0, 0, 1, 108, 1, 5, 2, 1, 107, 1, 6, 2, 1, 98, 0, 1, 97, 2, 3]
    let fields := [("a", Value.int (-2)), ("b", .null)]
    let batch : Batch :=
      ⟨.snapshot, [⟨⟨7, 0⟩, 0, [], .root "l" .map, 5, .setField "k" (some (.map fields))⟩]⟩
    decode bytes = .ok batch ∧ decode batch.encode = .ok batch ∧
      batch.encode.length < bytes.length ∧
      ∃ choices, tracePayload (bytes.drop 3) = .ok ((batch.operations, choices), []) ∧
        ∃ c ∈ choices, ¬ c.Canonical := by
  intro bytes fields batch
  have hdecode : decode bytes = .ok batch := rfl
  obtain ⟨-, hagain, -, choices, htrace, hiff⟩ := decode_normalises hdecode
  have hne : batch.encode ≠ bytes := by decide +kernel
  refine ⟨hdecode, hagain, by decide +kernel, choices, htrace, ?_⟩
  simpa using mt hiff.2 hne

end Batch

end CausalDoc
