import CausalDoc.Proofs.Wire.Writable
import CausalDoc.Value.Json
import Mathlib.Data.Set.Function

/- What JSON keeps of a value.

   Values go through a form that has neither references nor infinities, and numbers through
   one that tells integers and doubles apart. `kept` says what comes back: a reference as its
   written form, a double that is not finite as nothing, and everything else as it was, at every
   depth. So nothing is lost of exactly the values without either (`kept_eq_iff`), and JSON
   confuses two values only where the same is kept of both (`toJson_eq_iff`). -/

namespace CausalDoc

/-! ## Documents -/

/-- An integer has 64 bits, with or without a sign, and a double is finite. -/
def JsonNumber.Proper : JsonNumber → Prop
  | .integer n => -0x8000000000000000 ≤ n ∧ n < 0x10000000000000000
  | .float d => d.isFinite = true

mutual

/-- The numbers are proper, and the members of every object stand in the order of their names. -/
def Json.Proper : Json → Prop
  | .number n => n.Proper
  | .array items => Json.ItemsProper items
  | .object members => Entries.Ascending members ∧ Json.MembersProper members
  | _ => True

def Json.ItemsProper : List Json → Prop
  | [] => True
  | j :: js => Json.Proper j ∧ Json.ItemsProper js

def Json.MembersProper : List (String × Json) → Prop
  | [] => True
  | (_, j) :: js => Json.Proper j ∧ Json.MembersProper js

end

namespace Value

mutual

/-- The value with the written form in place of every reference, and with no value in place of every
double that is not finite. -/
def kept : Value → Value
  | null => null
  | bool b => bool b
  | int n => int n
  | double d => if d.isFinite then double d else null
  | string s => string s
  | list items => list (itemsKept items)
  | map fields => map (fieldsKept fields)
  | container id => string (toString id)

def itemsKept : List Value → List Value
  | [] => []
  | v :: vs => kept v :: itemsKept vs

def fieldsKept : List (String × Value) → List (String × Value)
  | [] => []
  | (k, v) :: vs => (k, kept v) :: fieldsKept vs

end

mutual

/-- The doubles in the value are finite, at every depth. -/
def Finite : Value → Prop
  | double d => d.isFinite = true
  | list items => ItemsFinite items
  | map fields => FieldsFinite fields
  | _ => True

def ItemsFinite : List Value → Prop
  | [] => True
  | v :: vs => Finite v ∧ ItemsFinite vs

def FieldsFinite : List (String × Value) → Prop
  | [] => True
  | (_, v) :: vs => Finite v ∧ FieldsFinite vs

end

/-! ## Values item by item -/

/-- What holds of a list when it holds of its items, and of a map when it holds of its values, and of
everything else, holds of all values. -/
@[elab_as_elim]
theorem induction {motive : Value → Prop} (null : motive null) (bool : ∀ b, motive (bool b))
    (int : ∀ n, motive (int n)) (double : ∀ d, motive (double d))
    (string : ∀ s, motive (string s)) (container : ∀ id, motive (container id))
    (list : ∀ items, (∀ v ∈ items, motive v) → motive (list items))
    (map : ∀ fields, (∀ e ∈ fields, motive e.2) → motive (map fields)) (v : Value) : motive v :=
  @Value.rec motive (fun items => ∀ v ∈ items, motive v) (fun fields => ∀ e ∈ fields, motive e.2)
    (fun e => motive e.2) null bool int double string list map container
    (fun _ h => absurd h List.not_mem_nil) (fun _ _ hv hvs => List.forall_mem_cons.2 ⟨hv, hvs⟩)
    (fun _ h => absurd h List.not_mem_nil) (fun _ _ he hes => List.forall_mem_cons.2 ⟨he, hes⟩)
    (fun _ _ hv => hv) v

theorem itemsKept_eq_map (items : List Value) : itemsKept items = items.map kept := by
  induction items with
  | nil => rfl
  | cons v vs ih => rw [itemsKept, List.map_cons, ih]

theorem fieldsKept_eq_map (fields : List (String × Value)) :
    fieldsKept fields = fields.map fun e => (e.1, e.2.kept) := by
  induction fields with
  | nil => rfl
  | cons e vs ih => rw [fieldsKept, List.map_cons, ih]

theorem itemsToJson_eq_map (items : List Value) : itemsToJson items = items.map toJson := by
  induction items with
  | nil => rfl
  | cons v vs ih => rw [itemsToJson, List.map_cons, ih]

theorem fieldsToJson_eq_map (fields : List (String × Value)) :
    fieldsToJson fields = fields.map fun e => (e.1, e.2.toJson) := by
  induction fields with
  | nil => rfl
  | cons e vs ih => rw [fieldsToJson, List.map_cons, ih]

theorem itemsOfJson_eq_map (items : List Json) : itemsOfJson items = items.map ofJson := by
  induction items with
  | nil => rfl
  | cons j js ih => rw [itemsOfJson, List.map_cons, ih]

theorem fieldsOfJson_eq_map (members : List (String × Json)) :
    fieldsOfJson members = members.map fun e => (e.1, ofJson e.2) := by
  induction members with
  | nil => rfl
  | cons e js ih => rw [fieldsOfJson, List.map_cons, ih]

theorem itemsFinite_iff {items : List Value} : ItemsFinite items ↔ ∀ v ∈ items, v.Finite := by
  induction items with
  | nil => simp [ItemsFinite]
  | cons v vs ih => simp [ItemsFinite, ih]

theorem fieldsFinite_iff {fields : List (String × Value)} :
    FieldsFinite fields ↔ ∀ e ∈ fields, e.2.Finite := by
  induction fields with
  | nil => simp [FieldsFinite]
  | cons e es ih => simp [FieldsFinite, ih]

/-! ## There and back -/

theorem ofJsonNumber_toInt (n : Int64) : ofJsonNumber (.integer n.toInt) = int n := by
  have hle := n.le_toInt
  have hlt := n.toInt_lt
  rw [ofJsonNumber, if_pos ⟨by omega, by omega⟩, Int64.ofInt_toInt]

theorem ofJson_toJson (v : Value) : ofJson (toJson v) = v.kept := by
  induction v using induction with
  | null | bool | string | container => rfl
  | int n => exact ofJsonNumber_toInt n
  | double d =>
    rw [toJson, kept]
    split <;> rfl
  | list items ih =>
    simp only [toJson, ofJson, kept, itemsToJson_eq_map, itemsOfJson_eq_map, itemsKept_eq_map,
      List.map_map]
    exact congrArg list (List.map_congr_left ih)
  | map fields ih =>
    simp only [toJson, ofJson, kept, fieldsToJson_eq_map, fieldsOfJson_eq_map, fieldsKept_eq_map,
      List.map_map]
    exact congrArg map (List.map_congr_left fun e he => congrArg (Prod.mk e.1) (ih e he))

/-! ## What is kept as it is -/

theorem kept_eq_iff (v : Value) : v.kept = v ↔ v.holdsContainer = false ∧ v.Finite := by
  induction v using induction with
  | null | bool | int | string => simp [kept, holdsContainer, Finite]
  | container id => simp [kept, holdsContainer]
  | double d =>
    rw [kept]
    split <;> simp [holdsContainer, Finite, *]
  | list items ih =>
    have hself : items.map kept = items ↔ ∀ v ∈ items, v.kept = v := by
      simpa using List.map_inj_left (l := items) (f := kept) (g := id)
    rw [kept, list.injEq, itemsKept_eq_map, hself, holdsContainer, Finite,
      itemsHoldContainer_eq_false, itemsFinite_iff, ← forall₂_and]
    exact forall₂_congr ih
  | map fields ih =>
    have hself : (fields.map fun e => (e.1, e.2.kept)) = fields ↔ ∀ e ∈ fields, e.2.kept = e.2 := by
      simpa [Prod.ext_iff] using
        List.map_inj_left (l := fields) (f := fun e => (e.1, e.2.kept)) (g := id)
    rw [kept, map.injEq, fieldsKept_eq_map, hself, holdsContainer, Finite,
      fieldsHoldContainer_eq_false, fieldsFinite_iff, ← forall₂_and]
    exact forall₂_congr ih

theorem toJson_kept (v : Value) : toJson v.kept = toJson v := by
  induction v using induction with
  | null | bool | int | string | container => rfl
  | double d =>
    rw [kept, toJson]
    split <;> simp [toJson, *]
  | list items ih =>
    simp only [toJson, kept, itemsToJson_eq_map, itemsKept_eq_map, List.map_map]
    exact congrArg Json.array (List.map_congr_left ih)
  | map fields ih =>
    simp only [toJson, kept, fieldsToJson_eq_map, fieldsKept_eq_map, List.map_map]
    exact congrArg Json.object (List.map_congr_left fun e he => congrArg (Prod.mk e.1) (ih e he))

theorem toJson_eq_iff {v w : Value} : toJson v = toJson w ↔ v.kept = w.kept := by
  refine ⟨fun h => ?_, fun h => ?_⟩
  · rw [← ofJson_toJson v, ← ofJson_toJson w, h]
  · rw [← toJson_kept v, ← toJson_kept w, h]

/-! ## Proper documents -/

theorem itemsProper_iff {items : List Json} :
    Json.ItemsProper items ↔ ∀ j ∈ items, j.Proper := by
  induction items with
  | nil => simp [Json.ItemsProper]
  | cons j js ih => simp [Json.ItemsProper, ih]

theorem membersProper_iff {members : List (String × Json)} :
    Json.MembersProper members ↔ ∀ e ∈ members, e.2.Proper := by
  induction members with
  | nil => simp [Json.MembersProper]
  | cons e es ih => simp [Json.MembersProper, ih]

theorem ascending_fieldsToJson {fields : List (String × Value)} (h : Entries.Ascending fields) :
    Entries.Ascending (fieldsToJson fields) := by
  rw [fieldsToJson_eq_map]
  exact List.pairwise_map.2 h

/-- The document of a value whose maps are in order is proper. -/
theorem proper_toJson {v : Value} (h : v.Writable) : (toJson v).Proper := by
  induction v using induction with
  | null | bool | string | container => trivial
  | int n =>
    have hle := n.le_toInt
    have hlt := n.toInt_lt
    exact ⟨by omega, by omega⟩
  | double d =>
    rw [toJson]
    split
    · next hfinite => exact hfinite
    · trivial
  | list items ih =>
    have hitems : ∀ v ∈ items, v.Writable := itemsWritable_iff.1 h
    show Json.ItemsProper (itemsToJson items)
    rw [itemsToJson_eq_map, itemsProper_iff, List.forall_mem_map]
    exact fun v hv => ih v hv (hitems v hv)
  | map fields ih =>
    have hfields : ∀ e ∈ fields, e.2.Writable := fieldsWritable_iff.1 h.2
    refine ⟨ascending_fieldsToJson h.1, ?_⟩
    rw [fieldsToJson_eq_map, membersProper_iff, List.forall_mem_map]
    exact fun e he => ih e he (hfields e he)

/-- Through JSON and back, a value is kept but for its references, which come back as their written
forms, and its doubles that are not finite, which come back as no value.

Lists keep their order and maps their keys, at every depth. The value comes back as it was exactly
when it has neither references nor such doubles; JSON tells values apart unless the same is kept of
both, so among these it tells all apart; and what a value becomes is a proper document. -/
theorem survives_json :
    (∀ v : Value, ofJson (toJson v) = v.kept) ∧
    (∀ items fields, (list items).kept = list (items.map kept) ∧
      (map fields).kept = map (fields.map fun e => (e.1, e.2.kept))) ∧
    (∀ v : Value, ofJson (toJson v) = v ↔ v.holdsContainer = false ∧ v.Finite) ∧
    (∀ v w : Value, toJson v = toJson w ↔ v.kept = w.kept) ∧
    Set.InjOn toJson {v | v.holdsContainer = false ∧ v.Finite} ∧
    ∀ v : Value, v.Writable → (toJson v).Proper := by
  refine ⟨ofJson_toJson, fun items fields => ⟨?_, ?_⟩, fun v => ?_, fun v w => toJson_eq_iff,
    fun v hv w hw h => ?_, fun v => proper_toJson⟩
  · rw [kept, itemsKept_eq_map]
  · rw [kept, fieldsKept_eq_map]
  · rw [ofJson_toJson, kept_eq_iff]
  · calc v = v.kept := (v.kept_eq_iff.2 hv).symm
      _ = w.kept := toJson_eq_iff.1 h
      _ = w := w.kept_eq_iff.2 hw

/-- The least integer, minus zero, one as a double and a NaN, beside a reference in a map. -/
theorem survives_json_mixed :
    let numbers : Value := list [int Int64.minValue, double ⟨0x8000000000000000⟩,
      double ⟨0x3FF0000000000000⟩, int 1, double ⟨0x7FF8000000000000⟩]
    let fields : List (String × Value) := [("a", numbers), ("b", container (.created ⟨2, 9⟩ .text))]
    ofJson (toJson (map fields)) = map [("a", list [int Int64.minValue, double ⟨0x8000000000000000⟩,
      double ⟨0x3FF0000000000000⟩, int 1, null]), ("b", string "9@2:Text")] ∧
    toJson (int 1) ≠ toJson (double ⟨0x3FF0000000000000⟩) ∧ (toJson (map fields)).Proper := by
  intro numbers fields
  obtain ⟨hback, -, -, -, hinj, hproper⟩ := survives_json
  have hascending : Entries.Ascending fields := by
    simp only [Entries.Ascending, fields, List.pairwise_pair]
    decide
  have hid : AtomId.Writable ⟨2, 9⟩ := by decide
  refine ⟨(hback _).trans (by decide), fun h => ?_, hproper _ ⟨hascending, ?_, hid, trivial⟩⟩
  · have hint : (int 1).holdsContainer = false ∧ (int 1).Finite := ⟨rfl, trivial⟩
    have hdouble : (double ⟨0x3FF0000000000000⟩).holdsContainer = false ∧
        (double ⟨0x3FF0000000000000⟩).Finite := ⟨rfl, by rw [Finite]; decide⟩
    cases hinj hint hdouble h
  · exact ⟨trivial, trivial, trivial, trivial, trivial, trivial⟩

end Value

end CausalDoc
