import CausalDoc.Error
import CausalDoc.Proofs.Container.Id
import CausalDoc.Proofs.Wire.Writable
import Mathlib.Data.List.Basic

/- The grammar of container names.

   A text names a container when it is a slash, any name, a colon and a kind, or two decimal
   numbers with `@` between them, a colon and a kind (`ContainerId.Spells`). Reading follows
   this to the letter: the last colon is the one before the kind, as no kind has a colon; the
   first `@` is the one behind the counter, as no number has an `@`; and as no number starts
   with a slash, no text is of both forms. -/

namespace CausalDoc

namespace Text

/-! ## Cutting -/

theorem not_mem_of_splitLast?_eq_none {separator : Char} :
    ∀ {cs : List Char}, splitLast? separator cs = none → separator ∉ cs
  | [], _ => List.not_mem_nil
  | c :: cs, h => by
    rw [splitLast?] at h
    cases hlater : splitLast? separator cs with
    | some parts => simp [hlater] at h
    | none =>
      have hne : c ≠ separator := by simpa [hlater] using h
      rw [List.mem_cons, not_or]
      exact ⟨hne.symm, not_mem_of_splitLast?_eq_none hlater⟩

/-- A list is cut at the separator that has none behind it. -/
theorem splitLast?_eq_some_iff {separator : Char} {cs before behind : List Char} :
    splitLast? separator cs = some (before, behind) ↔
      cs = before ++ separator :: behind ∧ separator ∉ behind := by
  refine ⟨fun h => ?_, fun ⟨heq, hbehind⟩ => heq ▸ splitLast?_append hbehind before⟩
  induction cs generalizing before with
  | nil => cases h
  | cons c cs ih =>
    rw [splitLast?] at h
    cases hlater : splitLast? separator cs with
    | some parts =>
      simp only [hlater, Option.some.injEq, Prod.mk.injEq] at h
      obtain ⟨rfl, rfl⟩ := h
      obtain ⟨hcs, hbehind⟩ := ih hlater
      exact ⟨by rw [List.cons_append, ← hcs], hbehind⟩
    | none =>
      simp only [hlater, Option.ite_none_right_eq_some, Option.some.injEq, Prod.mk.injEq] at h
      obtain ⟨rfl, rfl, rfl⟩ := h
      exact ⟨rfl, not_mem_of_splitLast?_eq_none hlater⟩

theorem splitFirst?_append {separator : Char} {before : List Char} (h : separator ∉ before)
    (behind : List Char) :
    splitFirst? separator (before ++ separator :: behind) = some (before, behind) := by
  induction before with
  | nil => simp [splitFirst?]
  | cons c before ih =>
    rw [List.mem_cons, not_or] at h
    simp [splitFirst?, Ne.symm h.1, ih h.2]

/-- A list is cut at the separator that has none before it. -/
theorem splitFirst?_eq_some_iff {separator : Char} {cs before behind : List Char} :
    splitFirst? separator cs = some (before, behind) ↔
      cs = before ++ separator :: behind ∧ separator ∉ before := by
  refine ⟨fun h => ?_, fun ⟨heq, hbefore⟩ => heq ▸ splitFirst?_append hbefore behind⟩
  induction cs generalizing before with
  | nil => cases h
  | cons c cs ih =>
    rw [splitFirst?] at h
    split at h
    · next hc =>
      rw [Option.some.injEq, Prod.mk.injEq] at h
      obtain ⟨rfl, rfl⟩ := h
      exact ⟨by rw [hc, List.nil_append], List.not_mem_nil⟩
    · next hc =>
      obtain ⟨⟨before, behind⟩, hparts, heq⟩ := Option.map_eq_some_iff.1 h
      rw [Prod.mk.injEq] at heq
      obtain ⟨rfl, rfl⟩ := heq
      obtain ⟨hcs, hbefore⟩ := ih hparts
      refine ⟨by rw [hcs, List.cons_append], ?_⟩
      rw [List.mem_cons, not_or]
      exact ⟨Ne.symm hc, hbefore⟩

/-! ## Decimal numbers -/

/-- The number is written in decimal digits, at least one of them, behind a plus sign or nothing. -/
inductive Decimal : List Char → Nat → Prop where
  | unsigned {digits : List Char} : digits ≠ [] → (∀ d ∈ digits, d.isDigit = true) →
      Decimal digits (Nat.ofDigitChars 10 digits 0)
  | signed {digits : List Char} : digits ≠ [] → (∀ d ∈ digits, d.isDigit = true) →
      Decimal ('+' :: digits) (Nat.ofDigitChars 10 digits 0)

theorem decimalValue_eq (digits : List Char) :
    decimalValue digits = Nat.ofDigitChars 10 digits 0 := by
  simp only [decimalValue, Nat.ofDigitChars, Nat.mul_comm]

theorem readDecimal?_eq_some_iff {limit n : Nat} {cs : List Char} :
    readDecimal? limit cs = some n ↔ Decimal cs n ∧ n < limit := by
  have hread : ∀ digits : List Char,
      (if !digits.isEmpty && digits.all Char.isDigit && decimalValue digits < limit then
        some (decimalValue digits) else none) = some n ↔
      digits ≠ [] ∧ (∀ d ∈ digits, d.isDigit = true) ∧ Nat.ofDigitChars 10 digits 0 = n ∧
        n < limit := by
    intro digits
    simp only [decimalValue_eq, Option.ite_none_right_eq_some, Option.some.injEq, Bool.and_eq_true,
      Bool.not_eq_true', List.isEmpty_eq_false_iff, List.all_eq_true, decide_eq_true_eq]
    constructor
    · rintro ⟨⟨⟨hne, hall⟩, hlt⟩, rfl⟩
      exact ⟨hne, hall, rfl, hlt⟩
    · rintro ⟨hne, hall, rfl, hlt⟩
      exact ⟨⟨⟨hne, hall⟩, hlt⟩, rfl⟩
  unfold readDecimal?
  split
  · next ds =>
    rw [hread]
    constructor
    · rintro ⟨hne, hall, rfl, hlt⟩
      exact ⟨.signed hne hall, hlt⟩
    · rintro ⟨hdecimal, hlt⟩
      cases hdecimal with
      | signed hne hall => exact ⟨hne, hall, rfl, hlt⟩
      | unsigned hne hall => exact absurd (hall '+' List.mem_cons_self) (by decide)
  · next hsign =>
    rw [hread]
    constructor
    · rintro ⟨hne, hall, rfl, hlt⟩
      exact ⟨.unsigned hne hall, hlt⟩
    · rintro ⟨hdecimal, hlt⟩
      cases hdecimal with
      | signed hne hall => exact absurd rfl (hsign _)
      | unsigned hne hall => exact ⟨hne, hall, rfl, hlt⟩

theorem decimal_toString (n : Nat) : Decimal (toString n).toList n := by
  have hdigits : (toString n).toList = Nat.toDigits 10 n := by
    rw [Nat.toString_eq_repr, Nat.toList_repr]
  have hdecimal : Decimal (Nat.toDigits 10 n) (Nat.ofDigitChars 10 (Nat.toDigits 10 n) 0) :=
    .unsigned Nat.toDigits_ne_nil
      fun d hd => Nat.isDigit_of_mem_toDigits (by decide) (by decide) hd
  rwa [Nat.ofDigitChars_toDigits (by decide) (by decide), ← hdigits] at hdecimal

namespace Decimal

variable {cs : List Char} {n : Nat}

/-- A number consists of digits and, in front, a plus sign. -/
theorem mem (h : Decimal cs n) : ∀ c ∈ cs, c = '+' ∨ c.isDigit = true := by
  intro c hc
  cases h with
  | unsigned _ hall => exact .inr (hall c hc)
  | signed _ hall =>
    rcases List.mem_cons.1 hc with rfl | hc
    · exact .inl rfl
    · exact .inr (hall c hc)

theorem at_not_mem (h : Decimal cs n) : '@' ∉ cs := by
  intro hmem
  rcases h.mem '@' hmem with heq | hdigit
  · cases heq
  · exact absurd hdigit (by decide)

theorem append_ne_slash (h : Decimal cs n) (behind name : List Char) :
    cs ++ behind ≠ '/' :: name := by
  intro heq
  have hfirst : '/' ∈ cs := by
    cases cs with
    | nil => cases h with
      | unsigned hne _ => exact absurd rfl hne
    | cons c cs =>
      rw [List.cons_append, List.cons.injEq] at heq
      exact heq.1 ▸ List.mem_cons_self
  rcases h.mem '/' hfirst with hplus | hdigit
  · cases hplus
  · exact absurd hdigit (by decide)

/-- The digits tell the number. -/
theorem unique {m : Nat} (h : Decimal cs n) (h' : Decimal cs m) : n = m := by
  have hread := readDecimal?_eq_some_iff.2 ⟨h, show n < n + m + 1 by omega⟩
  rw [readDecimal?_eq_some_iff.2 ⟨h', show m < n + m + 1 by omega⟩] at hread
  exact (Option.some.inj hread).symm

end Decimal

end Text

/-! ## Kinds -/

theorem ContainerKind.read?_eq_some_iff {s : String} {kind : ContainerKind} :
    read? s = some kind ↔ s = toString kind := by
  refine ⟨fun h => ?_, fun h => h ▸ read?_toString kind⟩
  unfold read? at h
  split at h
  · next hs => cases h; exact hs
  split at h
  · next hs => cases h; exact hs
  split at h
  · next hs => cases h; exact hs
  · cases h

/-! ## Names -/

namespace ContainerId

/-- The text names the container: a slash, the name, a colon and the kind for a root; the counter,
`@`, the peer, a colon and the kind for any other, with a counter of 32 bits and a peer of 64. -/
inductive Spells : String → ContainerId → Prop where
  | root (name : String) (kind : ContainerKind) :
      Spells ("/" ++ name ++ ":" ++ toString kind) (root name kind)
  | created {left right : String} {counter peer : Nat} (kind : ContainerKind) :
      Text.Decimal left.toList counter → counter < 0x100000000 →
      Text.Decimal right.toList peer → peer < 0x10000000000000000 →
      Spells (left ++ "@" ++ right ++ ":" ++ toString kind) (created ⟨peer, counter⟩ kind)

variable {s : String} {id : ContainerId}

theorem toString_created (creator : AtomId) (kind : ContainerKind) :
    toString (created creator kind) =
      toString creator.counter ++ "@" ++ toString creator.peer ++ ":" ++ toString kind := by
  show (toString creator.counter ++ "@" ++ toString creator.peer) ++ ":" ++ toString kind = _
  rfl

theorem spells_of_read? (h : read? s = some id) : Spells s id := by
  unfold read? at h
  obtain ⟨⟨head, kindText⟩, hcut, hbehind⟩ := Option.bind_eq_some_iff.1 h
  obtain ⟨kind, hkind, hfront⟩ := Option.bind_eq_some_iff.1 hbehind
  have hs : s.toList = head ++ ':' :: (toString kind).toList := by
    rw [← ContainerKind.read?_eq_some_iff.1 hkind, String.toList_ofList]
    exact (Text.splitLast?_eq_some_iff.1 hcut).1
  clear hbehind
  split at hfront
  · next name =>
    obtain rfl := Option.some.inj hfront
    have hspelled : s = "/" ++ String.ofList name ++ ":" ++ toString kind := by
      rw [← String.toList_inj, hs]
      simp
    rw [hspelled]
    exact .root _ kind
  · obtain ⟨⟨left, right⟩, hhead, hnumbers⟩ := Option.bind_eq_some_iff.1 hfront
    obtain ⟨counter, hcounter, hsecond⟩ := Option.bind_eq_some_iff.1 hnumbers
    obtain ⟨peer, hpeer, hresult⟩ := Option.bind_eq_some_iff.1 hsecond
    obtain rfl := Option.some.inj hresult
    obtain ⟨hleft, hcounter⟩ := Text.readDecimal?_eq_some_iff.1 hcounter
    obtain ⟨hright, hpeer⟩ := Text.readDecimal?_eq_some_iff.1 hpeer
    have hspelled :
        s = String.ofList left ++ "@" ++ String.ofList right ++ ":" ++ toString kind := by
      rw [← String.toList_inj, hs, (Text.splitFirst?_eq_some_iff.1 hhead).1]
      simp
    rw [hspelled]
    refine .created kind ?_ hcounter ?_ hpeer
    · rwa [String.toList_ofList]
    · rwa [String.toList_ofList]

theorem read?_of_spells (h : Spells s id) : read? s = some id := by
  cases h with
  | root name kind => exact read?_root name kind
  | @created left right counter peer kind hleft hcounter hright hpeer =>
    have hs : (left ++ "@" ++ right ++ ":" ++ toString kind).toList =
        (left.toList ++ '@' :: right.toList) ++ ':' :: (toString kind).toList := by
      simp
    rw [read?, hs, Text.splitLast?_append kind.colon_not_mem]
    simp only [Option.bind_eq_bind, Option.bind_some, String.ofList_toList,
      ContainerKind.read?_toString]
    split
    · next name hslash => exact absurd hslash (hleft.append_ne_slash _ name)
    · rw [Text.splitFirst?_append hleft.at_not_mem]
      simp only [Option.bind_some, Text.readDecimal?_eq_some_iff.2 ⟨hleft, hcounter⟩,
        Text.readDecimal?_eq_some_iff.2 ⟨hright, hpeer⟩]
      rfl

/-- Exactly the texts of the grammar are read, as what they name. -/
theorem read?_eq_some_iff : read? s = some id ↔ Spells s id :=
  ⟨spells_of_read?, read?_of_spells⟩

theorem spells_toString (h : id.Writable) : Spells (toString id) id := by
  cases id with
  | root name kind => exact .root name kind
  | created creator kind =>
    rw [toString_created]
    exact .created kind (Text.decimal_toString _) h.2 (Text.decimal_toString _) h.1

theorem parse_eq_ok_iff : parse s = .ok id ↔ Spells s id := by
  rw [← read?_eq_some_iff, parse]
  cases read? s <;> simp

theorem parse_eq_error_iff {e : DocumentError} :
    parse s = .error e ↔ e = .invalidContainerId s ∧ ∀ id, ¬ Spells s id := by
  simp only [← read?_eq_some_iff, parse]
  cases read? s <;> simp [eq_comm]

/-! ## One text for each name -/

/-- The written form up to the colon in front of the kind. -/
def address : ContainerId → List Char
  | root name _ => '/' :: name.toList
  | created creator _ => (toString creator.counter).toList ++ '@' :: (toString creator.peer).toList

theorem toList_toString (id : ContainerId) :
    (toString id).toList = id.address ++ ':' :: (toString id.kind).toList := by
  cases id with
  | root name kind => exact toList_root name kind
  | created creator kind =>
    rw [toString_created]
    simp [address, ContainerId.kind]

theorem address_inj {a b : ContainerId} (haddress : a.address = b.address)
    (hkind : a.kind = b.kind) : a = b := by
  cases a with
  | root name kind =>
    cases b with
    | root name' kind' =>
      rw [address, address, List.cons.injEq, String.toList_inj] at haddress
      rw [haddress.2, show kind = kind' from hkind]
    | created creator' kind' =>
      exact absurd haddress.symm ((Text.decimal_toString _).append_ne_slash _ _)
  | created creator kind =>
    cases b with
    | root name' kind' => exact absurd haddress ((Text.decimal_toString _).append_ne_slash _ _)
    | created creator' kind' =>
      -- both are cut at the first `@`, and equal digits are of equal numbers
      have hcut := congrArg (Text.splitFirst? '@') haddress
      rw [address, address, Text.splitFirst?_append (Text.decimal_toString _).at_not_mem,
        Text.splitFirst?_append (Text.decimal_toString _).at_not_mem, Option.some.injEq,
        Prod.mk.injEq] at hcut
      have hcounter : creator.counter = creator'.counter :=
        (Text.decimal_toString creator.counter).unique (hcut.1 ▸ Text.decimal_toString _)
      have hpeer : creator.peer = creator'.peer :=
        (Text.decimal_toString creator.peer).unique (hcut.2 ▸ Text.decimal_toString _)
      rw [AtomId.ext hpeer hcounter, show kind = kind' from hkind]

/-- Different names are written differently, whatever their peers and counters are. -/
theorem toString_injective : Function.Injective (toString : ContainerId → String) := by
  intro a b h
  have hcut : some (a.address, (toString a.kind).toList) =
      some (b.address, (toString b.kind).toList) := by
    rw [← Text.splitLast?_append a.kind.colon_not_mem, ← toList_toString,
      ← Text.splitLast?_append b.kind.colon_not_mem, ← toList_toString, h]
  rw [Option.some.injEq, Prod.mk.injEq, String.toList_inj] at hcut
  have hkind := congrArg ContainerKind.read? hcut.2
  rw [ContainerKind.read?_toString, ContainerKind.read?_toString] at hkind
  exact address_inj hcut.1 (Option.some.inj hkind)

/-- The written form of a name is read back, no two names are written alike, and of all texts
exactly those of the grammar are read, as the container that they name; any other is refused and
reported as it stands. -/
theorem parses_grammar :
    (∀ id : ContainerId, id.Writable → parse (toString id) = .ok id) ∧
    Function.Injective (toString : ContainerId → String) ∧
    (∀ s id, parse s = .ok id ↔ Spells s id) ∧
    ∀ s e, parse s = .error e ↔ e = .invalidContainerId s ∧ ∀ id, ¬ Spells s id := by
  refine ⟨fun id h => ?_, toString_injective, fun s id => parse_eq_ok_iff, fun s e => ?_⟩
  · exact parse_eq_ok_iff.2 (spells_toString h)
  · exact parse_eq_error_iff

/-- The last counter and the last peer, and a root with the signs of the grammar in its name. -/
theorem parses_grammar_widest :
    let last : ContainerId := .created ⟨0xFFFFFFFFFFFFFFFF, 0xFFFFFFFF⟩ .text
    let odd : ContainerId := .root "1@2:Map/" .list
    toString last = "4294967295@18446744073709551615:Text" ∧
      parse "4294967295@18446744073709551615:Text" = .ok last ∧
      toString odd = "/1@2:Map/:List" ∧ parse "/1@2:Map/:List" = .ok odd := by
  intro last odd
  have hlast : toString last = "4294967295@18446744073709551615:Text" := by decide
  have hodd : toString odd = "/1@2:Map/:List" := by decide
  refine ⟨hlast, ?_, hodd, ?_⟩
  · rw [← hlast]
    exact parses_grammar.1 last (show AtomId.Writable _ by decide)
  · rw [← hodd]
    exact parses_grammar.1 odd trivial

end ContainerId

end CausalDoc
