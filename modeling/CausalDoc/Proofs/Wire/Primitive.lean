import CausalDoc.Wire.Primitive
import Mathlib.Algebra.Group.Nat.Defs

/- Readers and writers of the building blocks.

   Two things are said of a reader. `Reads`: where a writer's bytes start, it takes
   exactly these and gives back what was written, whatever follows. `Yields`: what it
   gives, whatever the input, has a property, such as a width. Both go along with
   sequencing, so that a composite reader follows from its parts. -/

namespace CausalDoc.Wire

variable {α β : Type}

/-- The reader takes these bytes off the input and gives `x`. -/
def Reads (read : Reader α) (bytes : Bytes) (x : α) : Prop :=
  ∀ rest, read (bytes ++ rest) = .ok (x, rest)

/-- Whatever the reader gives has the property. -/
def Yields (read : Reader α) (P : α → Prop) : Prop :=
  ∀ input x rest, read input = .ok (x, rest) → P x

theorem bind_apply (read : Reader α) (next : α → Reader β) (input : Bytes) :
    (read >>= next) input =
      match read input with
      | .ok (x, rest) => next x rest
      | .error e => .error e := by
  show (read input >>= fun p => next p.1 p.2) = _
  cases read input <;> rfl

namespace Reads

theorem pure (x : α) : Reads (pure x) [] x := fun _ => rfl

theorem bind {read : Reader α} {next : α → Reader β} {bytes bytes' : Bytes} {x : α} {y : β}
    (h : Reads read bytes x) (h' : Reads (next x) bytes' y) :
    Reads (read >>= next) (bytes ++ bytes') y := by
  intro rest
  rw [bind_apply, List.append_assoc, h]
  exact h' rest

theorem map {read : Reader α} {bytes : Bytes} {x : α} (f : α → β) (h : Reads read bytes x) :
    Reads (read >>= fun a => Pure.pure (f a)) bytes (f x) := by
  intro rest
  rw [bind_apply, h]
  rfl

end Reads

namespace Yields

theorem pure {P : α → Prop} {x : α} (h : P x) : Yields (pure x) P := by
  intro input y rest hy
  cases hy
  exact h

theorem throw {P : α → Prop} (fault : Fault) : Yields (throw fault : Reader α) P := by
  intro input y rest hy
  cases hy

theorem bind {P : α → Prop} {Q : β → Prop} {read : Reader α} {next : α → Reader β}
    (h : Yields read P) (h' : ∀ x, P x → Yields (next x) Q) : Yields (read >>= next) Q := by
  intro input y rest hy
  rw [bind_apply] at hy
  split at hy
  · next x middle hx => exact h' x (h _ _ _ hx) _ _ _ hy
  · cases hy

theorem any (read : Reader α) : Yields read fun _ => True := fun _ _ _ _ => trivial

end Yields

/-! ## Numbers -/

theorem toNat_toUInt8 {n : Nat} (h : n < 256) : n.toUInt8.toNat = n := by
  rw [Nat.toUInt8, UInt8.toNat_ofNat', Nat.mod_eq_of_lt h]

theorem readByte_ok {b : UInt8} {input rest : Bytes} (h : readByte input = .ok (b, rest)) :
    input = b :: rest := by
  cases input with
  | nil => cases h
  | cons b' input =>
    cases h
    rfl

theorem reads_byte (b : UInt8) : Reads readByte [b] b := fun _ => rfl

theorem readBytes_ok {n : Nat} {input bytes rest : Bytes}
    (h : readBytes n input = .ok (bytes, rest)) : input = bytes ++ rest ∧ bytes.length = n := by
  unfold readBytes at h
  split at h
  · next hn =>
    cases h
    exact ⟨(List.take_append_drop n input).symm, List.length_take_of_le hn⟩
  · cases h

theorem reads_bytes (bytes : Bytes) : Reads (readBytes bytes.length) bytes bytes := by
  intro rest
  unfold readBytes
  rw [if_pos (by simp), List.take_left, List.drop_left]

theorem writeVarint_of_lt {n : Nat} (h : n < 128) : writeVarint n = [n.toUInt8] := by
  unfold writeVarint
  rw [if_pos h]

theorem writeVarint_length_pos (n : Nat) : 0 < (writeVarint n).length := by
  unfold writeVarint
  split <;> simp

theorem writeVarint_length_mono {n m : Nat} (h : n ≤ m) :
    (writeVarint n).length ≤ (writeVarint m).length := by
  induction m using Nat.strongRecOn generalizing n with
  | ind m ih =>
    by_cases hn : n < 128
    · rw [writeVarint_of_lt hn]
      exact writeVarint_length_pos m
    · unfold writeVarint
      rw [if_neg hn, if_neg (by omega)]
      simp only [List.length_cons, Nat.add_le_add_iff_right]
      exact ih (m / 128) (by omega) (by omega)

theorem reads_varint (top : Nat) (htop : top < 128) :
    ∀ (groups n : Nat), n < (top + 1) * 128 ^ groups →
      Reads (readVarint top (groups + 1)) (writeVarint n) n
  | groups, n, h => by
    unfold readVarint writeVarint
    split
    · next hlast =>
      have hb : n.toUInt8.toNat = n := toNat_toUInt8 (by omega)
      intro rest
      rw [bind_apply, reads_byte]
      dsimp only
      rw [hb, if_pos hlast, if_neg]
      · rfl
      · intro hgiven
        obtain ⟨rfl, hlt⟩ := hgiven
        omega
    · next hmore =>
      have hb : (n % 128 + 128).toUInt8.toNat = n % 128 + 128 := toNat_toUInt8 (by omega)
      cases groups with
      | zero => omega
      | succ groups =>
        have hhigh : n / 128 < (top + 1) * 128 ^ groups := by
          rw [Nat.pow_succ, ← Nat.mul_assoc] at h
          exact Nat.div_lt_of_lt_mul (Nat.mul_comm _ _ ▸ h)
        intro rest
        rw [List.cons_append, ← List.singleton_append, bind_apply, reads_byte]
        dsimp only
        rw [hb, if_neg (by omega), bind_apply, reads_varint top htop groups _ hhigh rest]
        show Except.ok (n % 128 + 128 - 128 + 128 * (n / 128), rest) = _
        rw [show n % 128 + 128 - 128 + 128 * (n / 128) = n by omega]

theorem yields_varint (top groups : Nat) :
    Yields (readVarint top (groups + 1)) fun n => n < (top + 1) * 128 ^ groups := by
  induction groups with
  | zero =>
    unfold readVarint
    refine (Yields.any readByte).bind fun b _ => ?_
    split
    · split
      · exact Yields.throw _
      · next hb =>
        apply Yields.pure
        omega
    · exact (Yields.throw (P := fun _ => False) _).bind fun _ h => h.elim
  | succ groups ih =>
    have hroom : 128 ≤ (top + 1) * 128 ^ (groups + 1) := by
      have : 0 < 128 ^ groups := Nat.pow_pos (by omega)
      rw [Nat.pow_succ, ← Nat.mul_assoc]
      exact Nat.le_mul_of_pos_left 128 (Nat.mul_pos (Nat.succ_pos top) this)
    unfold readVarint
    refine (Yields.any readByte).bind fun b _ => ?_
    split
    · next hlast =>
      split
      · exact Yields.throw _
      · exact Yields.pure (Nat.lt_of_lt_of_le hlast hroom)
    · refine ih.bind fun n hn => Yields.pure ?_
      have hb := b.toNat_lt
      rw [Nat.pow_succ, ← Nat.mul_assoc]
      omega

theorem reads_word {n : Nat} (h : n < 0x100000000) : Reads readWord (writeVarint n) n :=
  reads_varint 15 (by omega) 4 n h

theorem reads_long {n : Nat} (h : n < 0x10000000000000000) : Reads readLong (writeVarint n) n :=
  reads_varint 1 (by omega) 9 n h

theorem yields_word : Yields readWord (· < 0x100000000) := by
  intro input n rest h
  have := yields_varint 15 4 input n rest h
  omega

theorem yields_long : Yields readLong (· < 0x10000000000000000) := by
  intro input n rest h
  have := yields_varint 1 9 input n rest h
  omega

theorem reads_tag {n : Nat} (h : n < 128) : Reads readWord [n.toUInt8] n := by
  have := reads_word (n := n) (by omega)
  rwa [writeVarint_of_lt h] at this

theorem zigzag_lt (n : Int64) : zigzag n < 0x10000000000000000 := by
  have := n.toInt_lt
  have := n.le_toInt
  unfold zigzag
  split <;> omega

theorem unzigzag_zigzag (n : Int64) : unzigzag (zigzag n) = n := by
  have hvalue : (if zigzag n % 2 = 0 then ((zigzag n / 2 : Nat) : Int)
      else -((zigzag n / 2 : Nat) + 1 : Int)) = n.toInt := by
    unfold zigzag
    split
    · rw [if_pos (by omega)]
      omega
    · rw [if_neg (by omega)]
      omega
  rw [unzigzag, hvalue, Int64.ofInt_toInt]

theorem zigzag_unzigzag {m : Nat} (h : m < 0x10000000000000000) : zigzag (unzigzag m) = m := by
  have hvalue : (unzigzag m).toInt =
      if m % 2 = 0 then ((m / 2 : Nat) : Int) else -((m / 2 : Nat) + 1 : Int) := by
    unfold unzigzag
    apply Int64.toInt_ofInt_of_le
    · split <;> omega
    · split <;> omega
  unfold zigzag
  rw [hvalue]
  split <;> split <;> omega

theorem reads_integer (n : Int64) : Reads readInteger (writeInteger n) n := by
  have := (reads_long (zigzag_lt n)).map unzigzag
  rwa [unzigzag_zigzag] at this

theorem littleEndian_length (n count : Nat) : (littleEndian n count).length = count := by
  induction count generalizing n with
  | zero => rfl
  | succ count ih => rw [littleEndian, List.length_cons, ih]

theorem ofLittleEndian_littleEndian (n count : Nat) (h : n < 256 ^ count) :
    ofLittleEndian (littleEndian n count) = n := by
  induction count generalizing n with
  | zero =>
    rw [Nat.pow_zero] at h
    rw [littleEndian, ofLittleEndian]
    omega
  | succ count ih =>
    have hb : (n % 256).toUInt8.toNat = n % 256 := toNat_toUInt8 (by omega)
    rw [littleEndian, ofLittleEndian, ih, hb]
    · omega
    · rw [Nat.pow_succ] at h
      exact Nat.div_lt_of_lt_mul (Nat.mul_comm _ _ ▸ h)

theorem ofLittleEndian_lt : ∀ bytes : Bytes, ofLittleEndian bytes < 256 ^ bytes.length
  | [] => by decide
  | b :: bytes => by
    have hb := b.toNat_lt
    have := ofLittleEndian_lt bytes
    rw [ofLittleEndian, List.length_cons, Nat.pow_succ]
    omega

theorem littleEndian_ofLittleEndian : ∀ bytes : Bytes,
    littleEndian (ofLittleEndian bytes) bytes.length = bytes
  | [] => rfl
  | b :: bytes => by
    have hb := b.toNat_lt
    have hlow : (b.toNat + 256 * ofLittleEndian bytes) % 256 = b.toNat := by omega
    have hhigh : (b.toNat + 256 * ofLittleEndian bytes) / 256 = ofLittleEndian bytes := by omega
    rw [ofLittleEndian, List.length_cons, littleEndian, hlow, hhigh,
      littleEndian_ofLittleEndian bytes, Nat.toUInt8, UInt8.ofNat_toNat]

theorem reads_double (d : Double) : Reads readDouble (writeDouble d) d := by
  have hbytes := reads_bytes (writeDouble d)
  rw [writeDouble, littleEndian_length] at hbytes
  have hread := hbytes.map fun bytes => (⟨(ofLittleEndian bytes).toUInt64⟩ : Double)
  rw [ofLittleEndian_littleEndian _ 8 d.bits.toNat_lt] at hread
  have hbits : d.bits.toNat.toUInt64 = d.bits := UInt64.ofNat_toNat
  rw [hbits] at hread
  exact hread

theorem reads_bool (b : Bool) : Reads readBool (writeBool b) b := by
  intro rest
  cases b <;> rfl

/-! ## Composite parts -/

theorem fromUTF8?_toUTF8 (s : String) : String.fromUTF8? s.toUTF8 = some s := by
  have hvalid : s.toUTF8.IsValidUTF8 := s.isValidUTF8
  unfold String.fromUTF8?
  split
  · rfl
  · next hnot => exact absurd hvalid hnot

theorem bytes_of_fromUTF8? {bytes : ByteArray} {s : String}
    (h : String.fromUTF8? bytes = some s) : s.toUTF8 = bytes := by
  unfold String.fromUTF8? at h
  split at h
  · cases h
    rfl
  · cases h

theorem reads_text {s : String} (h : s.toUTF8.size < 0x10000000000000000) :
    Reads readText (writeText s) s := by
  refine (reads_long h).bind ?_
  have hbytes := reads_bytes s.toUTF8.data.toList
  have hlength : s.toUTF8.data.toList.length = s.toUTF8.size := rfl
  rw [hlength] at hbytes
  intro rest
  rw [bind_apply, hbytes]
  dsimp only
  rw [Array.toArray_toList, fromUTF8?_toUTF8]
  rfl

theorem reads_option {read : Reader α} {write : α → Bytes} {o : Option α}
    (h : ∀ x, o = some x → Reads read (write x) x) :
    Reads (readOption read) (writeOption write o) o := by
  cases o with
  | none => exact fun rest => rfl
  | some x =>
    have hmap := (h x rfl).map some
    intro rest
    exact hmap rest

theorem yields_option {read : Reader α} {P : α → Prop} (h : Yields read P) :
    Yields (readOption read) fun o => ∀ x, o = some x → P x := by
  unfold readOption
  refine (Yields.any readByte).bind fun b _ => ?_
  split
  · exact Yields.pure (by simp)
  · exact h.bind fun x hx => Yields.pure (by simpa using hx)
  · exact Yields.throw _

theorem reads_items {read : Reader α} {write : α → Bytes} :
    ∀ {items : List α}, (∀ x ∈ items, Reads read (write x) x) →
      Reads (readItems read items.length) (items.flatMap write) items
  | [], _ => Reads.pure []
  | x :: items, h => by
    have hx := h x List.mem_cons_self
    have hitems := reads_items fun y hy => h y (List.mem_cons_of_mem _ hy)
    exact hx.bind (hitems.map (x :: ·))

theorem reads_sequence {read : Reader α} {write : α → Bytes} {items : List α}
    (h : ∀ x ∈ items, Reads read (write x) x) (hlength : items.length < 0x10000000000000000) :
    Reads (readSequence read) (writeSequence write items) items :=
  (reads_long hlength).bind (reads_items h)

theorem yields_items {read : Reader α} {P : α → Prop} (h : Yields read P) :
    ∀ n, Yields (readItems read n) fun items => ∀ x ∈ items, P x
  | 0 => Yields.pure (by simp)
  | n + 1 => by
    unfold readItems
    refine h.bind fun x hx => (yields_items h n).bind fun items hitems => Yields.pure ?_
    intro y hy
    rcases List.mem_cons.1 hy with rfl | hy
    · exact hx
    · exact hitems y hy

theorem yields_sequence {read : Reader α} {P : α → Prop} (h : Yields read P) :
    Yields (readSequence read) fun items => ∀ x ∈ items, P x :=
  (Yields.any readLong).bind fun n _ => yields_items h n

/-- A sequence is written in as many bytes as it has items, and more. -/
theorem length_le_writeSequence {write : α → Bytes} (hpos : ∀ x, 0 < (write x).length)
    (items : List α) : items.length < (writeSequence write items).length := by
  have hbody : items.length ≤ (items.flatMap write).length := by
    induction items with
    | nil => exact Nat.le_refl 0
    | cons x items ih =>
      have := hpos x
      rw [List.flatMap_cons, List.length_append, List.length_cons]
      omega
  have := writeVarint_length_pos items.length
  rw [writeSequence, List.length_append]
  omega

theorem length_item_le_writeSequence (write : α → Bytes) {items : List α} {x : α}
    (hx : x ∈ items) : (write x).length < (writeSequence write items).length := by
  have hbody : (write x).length ≤ (items.flatMap write).length := by
    obtain ⟨front, back, rfl⟩ := List.append_of_mem hx
    rw [List.flatMap_append, List.flatMap_cons, List.length_append, List.length_append]
    omega
  have := writeVarint_length_pos items.length
  rw [writeSequence, List.length_append]
  omega

theorem size_lt_writeText (s : String) : s.toUTF8.size < (writeText s).length := by
  have := writeVarint_length_pos s.toUTF8.size
  have hlength : s.toUTF8.data.toList.length = s.toUTF8.size := rfl
  rw [writeText, List.length_append, hlength]
  omega

end CausalDoc.Wire
