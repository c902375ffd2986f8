import Mathlib.Algebra.Group.Nat.Defs
import Mathlib.Data.List.Lex

/- The order of texts is that of their UTF-8 bytes.

   Texts are compared character by character, and characters by code point. UTF-8 keeps
   this order: of two characters the one with the smaller code point has the smaller byte
   where their encodings first differ, and that byte is inside both of them
   (`encoded_lt`). So field names ascend bytewise (`bytes_lt_of_compare`). -/

namespace CausalDoc.Text

/-- The UTF-8 bytes of a text. -/
def bytes (s : String) : List UInt8 := s.toUTF8.data.toList

theorem bytes_eq (s : String) : bytes s = s.toList.flatMap String.utf8EncodeChar := by
  rw [bytes, String.toUTF8, ← String.utf8Encode_toList, List.utf8Encode]
  simp

/-! ## Encoded characters -/

/-- How many bytes follow the first one in the encoding of a code point. -/
def following (v : Nat) : Nat :=
  if v ≤ 0x7F then 0 else if v ≤ 0x7FF then 1 else if v ≤ 0xFFFF then 2 else 3

/-- What the first byte is marked with when so many bytes follow it. -/
def marker : Nat → Nat
  | 0 => 0
  | 1 => 192
  | 2 => 224
  | _ => 240

/-- The first byte: the uppermost bits of the code point, marked. -/
def lead (v : Nat) : Nat := v / 64 ^ following v + marker (following v)

/-- The last `k` bytes: six bits each of the code point. -/
def trail (v : Nat) : Nat → List UInt8
  | 0 => []
  | k + 1 => UInt8.ofNat (v / 64 ^ k % 64 + 128) :: trail v k

theorem following_cases (v : Nat) :
    v ≤ 0x7F ∧ following v = 0 ∨ (0x7F < v ∧ v ≤ 0x7FF) ∧ following v = 1 ∨
      (0x7FF < v ∧ v ≤ 0xFFFF) ∧ following v = 2 ∨ 0xFFFF < v ∧ following v = 3 := by
  unfold following
  split <;> [skip; split <;> [skip; split]] <;> omega

theorem toNat_lt (c : Char) : c.val.toNat < 0x110000 := by
  have hvalid := c.valid
  simp only [UInt32.isValidChar, Nat.isValidChar] at hvalid
  omega

theorem encode_eq (c : Char) : String.utf8EncodeChar c =
    UInt8.ofNat (lead c.val.toNat) :: trail c.val.toNat (following c.val.toNat) := by
  have hlimit := toNat_lt c
  unfold String.utf8EncodeChar lead
  generalize c.val.toNat = v at hlimit
  dsimp only
  rcases following_cases v with ⟨hv, hk⟩ | ⟨hv, hk⟩ | ⟨hv, hk⟩ | ⟨hv, hk⟩
  · rw [hk, if_pos hv]
    simp [trail, marker]
  · rw [hk, if_neg (by omega), if_pos hv.2, Nat.mod_eq_of_lt (show v / 64 < 32 by omega)]
    simp [trail, marker]
  · rw [hk, if_neg (by omega), if_neg (by omega), if_pos hv.2,
      Nat.mod_eq_of_lt (show v / 4096 < 16 by omega)]
    simp [trail, marker]
  · rw [hk, if_neg (by omega), if_neg (by omega), if_neg (by omega),
      Nat.mod_eq_of_lt (show v / 262144 < 8 by omega)]
    simp [trail, marker]

/-! ## Comparing encodings -/

theorem cons_lt_of_lt {m n : Nat} {xs ys : List UInt8} (hn : n < 256) (h : m < n) :
    UInt8.ofNat m :: xs < UInt8.ofNat n :: ys := by
  refine List.cons_lt_cons_iff.2 (.inl (UInt8.lt_iff_toNat_lt.2 ?_))
  rw [UInt8.toNat_ofNat_of_lt' hn, UInt8.toNat_ofNat_of_lt' (Nat.lt_trans h hn)]
  exact h

theorem cons_lt_of_eq {m n : Nat} {xs ys : List UInt8} (h : m = n) (hrest : xs < ys) :
    UInt8.ofNat m :: xs < UInt8.ofNat n :: ys :=
  List.cons_lt_cons_iff.2 (.inr ⟨congrArg _ h, hrest⟩)

/-- Six bits after six bits, the first difference decides. -/
theorem trail_lt {v w : Nat} {xs ys : List UInt8} :
    ∀ {k : Nat}, v % 64 ^ k < w % 64 ^ k → trail v k ++ xs < trail w k ++ ys
  | 0, h => by simp [Nat.mod_one] at h
  | k + 1, h => by
    rw [Nat.pow_succ, Nat.mod_mul, Nat.mod_mul] at h
    rcases Nat.lt_trichotomy (v / 64 ^ k % 64) (w / 64 ^ k % 64) with hless | hsame | hmore
    · exact cons_lt_of_lt (by omega) (by omega)
    · rw [hsame] at h
      exact cons_lt_of_eq (by rw [hsame]) (trail_lt (Nat.lt_of_add_lt_add_right h))
    · have hrest : w % 64 ^ k < 64 ^ k := Nat.mod_lt _ (Nat.pow_pos (by decide))
      have hstep : 64 ^ k * (w / 64 ^ k % 64 + 1) ≤ 64 ^ k * (v / 64 ^ k % 64) :=
        Nat.mul_le_mul_left _ hmore
      rw [Nat.mul_add_one] at hstep
      omega

theorem following_mono {v w : Nat} (h : v < w) : following v ≤ following w := by
  rcases following_cases v with hv | hv | hv | hv <;>
    rcases following_cases w with hw | hw | hw | hw <;> omega

theorem lead_lt {v w : Nat} (hlimit : w < 0x110000) (h : following v < following w) :
    lead v < lead w := by
  unfold lead
  rcases following_cases v with ⟨hv, hk⟩ | ⟨hv, hk⟩ | ⟨hv, hk⟩ | ⟨hv, hk⟩ <;>
    rcases following_cases w with ⟨hw, hl⟩ | ⟨hw, hl⟩ | ⟨hw, hl⟩ | ⟨hw, hl⟩ <;>
    simp only [hk, hl, marker] at h ⊢ <;> omega

theorem lead_lt_256 {v : Nat} (hlimit : v < 0x110000) : lead v < 256 := by
  unfold lead
  rcases following_cases v with ⟨hv, hk⟩ | ⟨hv, hk⟩ | ⟨hv, hk⟩ | ⟨hv, hk⟩ <;>
    simp only [hk, marker] <;> omega

/-- Of two characters the smaller one has the smaller encoding, whatever follows either. -/
theorem encoded_lt {c d : Char} (h : c < d) (xs ys : List UInt8) :
    String.utf8EncodeChar c ++ xs < String.utf8EncodeChar d ++ ys := by
  have hlt : c.val.toNat < d.val.toNat := UInt32.lt_iff_toNat_lt.1 (Char.lt_def.1 h)
  have hlimit := toNat_lt d
  rw [encode_eq, encode_eq]
  generalize c.val.toNat = v at hlt
  generalize d.val.toNat = w at hlt hlimit
  rcases Nat.lt_or_eq_of_le (following_mono hlt) with hshorter | hsame
  · exact cons_lt_of_lt (lead_lt_256 hlimit) (lead_lt hlimit hshorter)
  · have hupper := Nat.div_le_div_right (c := 64 ^ following w) (Nat.le_of_lt hlt)
    rcases Nat.lt_or_eq_of_le hupper with hless | heq
    · refine cons_lt_of_lt (lead_lt_256 hlimit) ?_
      rw [lead, lead, hsame]
      exact Nat.add_lt_add_right hless _
    · have hrest : v % 64 ^ following w < w % 64 ^ following w := by
        have hv := Nat.div_add_mod v (64 ^ following w)
        have hw := Nat.div_add_mod w (64 ^ following w)
        rw [heq] at hv
        omega
      refine cons_lt_of_eq (by rw [lead, lead, hsame, heq]) ?_
      rw [hsame]
      exact trail_lt hrest

theorem flatMap_lt : ∀ {cs ds : List Char}, cs < ds →
    cs.flatMap String.utf8EncodeChar < ds.flatMap String.utf8EncodeChar
  | _, [], h => absurd h (List.not_lt_nil _)
  | [], d :: ds, _ => by
    rw [List.flatMap_nil, List.flatMap_cons, encode_eq]
    exact List.nil_lt_cons _ _
  | c :: cs, d :: ds, h => by
    rw [List.flatMap_cons, List.flatMap_cons]
    rcases List.cons_lt_cons_iff.1 h with hless | ⟨rfl, hrest⟩
    · exact encoded_lt hless _ _
    · exact List.append_left_lt (flatMap_lt hrest)

theorem bytes_lt_of_compare {s t : String} (h : compare s t = .lt) : bytes s < bytes t := by
  rw [bytes_eq, bytes_eq]
  exact flatMap_lt (String.lt_iff.1 (compareOfLessAndEq_eq_lt.1 h))

end CausalDoc.Text
