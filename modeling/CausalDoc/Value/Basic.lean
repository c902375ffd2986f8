import CausalDoc.Container.Id
import CausalDoc.Ordered.Map
import CausalDoc.Value.Double

/- Plain values, as list slots and map fields hold them.

   A slot may also hold the name of a nested container. Only the operation that
   creates a container may put such a reference there, so a value that a user
   writes is searched for references at every depth (`holdsContainer`). -/

namespace CausalDoc

/-- A value. The fields of a map stand in ascending order of their keys. -/
inductive Value where
  /-- No value. -/
  | null
  /-- A truth value. -/
  | bool (b : Bool)
  /-- A whole number. -/
  | int (n : Int64)
  /-- A floating-point number. -/
  | double (d : Double)
  /-- A text. -/
  | string (s : String)
  /-- A list. -/
  | list (items : List Value)
  /-- A map. -/
  | map (fields : List (String × Value))
  /-- A reference to a nested container. -/
  | container (id : ContainerId)
  deriving Repr, Inhabited

namespace Value

/-! ## Equality -/

mutual

/-- Whether two values have the same shape and the same leaves, doubles being compared by
`sameDouble`. -/
def agree (sameDouble : Double → Double → Bool) : Value → Value → Bool
  | null, null => true
  | bool a, bool b => a = b
  | int a, int b => a = b
  | double a, double b => sameDouble a b
  | string a, string b => a = b
  | list a, list b => itemsAgree sameDouble a b
  | map a, map b => fieldsAgree sameDouble a b
  | container a, container b => a = b
  | _, _ => false

def itemsAgree (sameDouble : Double → Double → Bool) : List Value → List Value → Bool
  | [], [] => true
  | v :: vs, w :: ws => agree sameDouble v w && itemsAgree sameDouble vs ws
  | _, _ => false

def fieldsAgree (sameDouble : Double → Double → Bool) :
    List (String × Value) → List (String × Value) → Bool
  | [], [] => true
  | (k, v) :: vs, (l, w) :: ws => k = l && agree sameDouble v w && fieldsAgree sameDouble vs ws
  | _, _ => false

end

/-- Equality of values that takes doubles as numbers: a NaN makes a value differ from itself. -/
def same (a b : Value) : Bool := agree Double.same a b

mutual

theorem agree_iff : ∀ a b : Value, agree (fun x y => x = y) a b = true ↔ a = b
  | null, b | bool _, b | int _, b | double _, b | string _, b | container _, b => by
    cases b <;> simp [agree]
  | list a, b => by
    cases b with
    | list b => simp [agree, itemsAgree_iff a b]
    | _ => simp [agree]
  | map a, b => by
    cases b with
    | map b => simp [agree, fieldsAgree_iff a b]
    | _ => simp [agree]

theorem itemsAgree_iff :
    ∀ a b : List Value, itemsAgree (fun x y => x = y) a b = true ↔ a = b
  | [], b => by cases b <;> simp [itemsAgree]
  | v :: vs, b => by
    cases b with
    | nil => simp [itemsAgree]
    | cons w ws => simp [itemsAgree, agree_iff v w, itemsAgree_iff vs ws]

theorem fieldsAgree_iff :
    ∀ a b : List (String × Value), fieldsAgree (fun x y => x = y) a b = true ↔ a = b
  | [], b => by cases b <;> simp [fieldsAgree]
  | (k, v) :: vs, b => by
    cases b with
    | nil => simp [fieldsAgree]
    | cons f fs => simp [fieldsAgree, agree_iff v f.2, fieldsAgree_iff vs fs, Prod.ext_iff]

end

instance : DecidableEq Value := fun a b => decidable_of_iff _ (agree_iff a b)

/-! ## Parts -/

/-- The map of the given fields; of two fields with one key the later stays. -/
def ofFields (fields : List (String × Value)) : Value := map (Entries.ofList fields)

def container? : Value → Option ContainerId
  | container id => some id
  | _ => none

def string? : Value → Option String
  | string s => some s
  | _ => none

def int? : Value → Option Int64
  | int n => some n
  | _ => none

mutual

/-- Whether a reference to a container stands anywhere in the value. -/
def holdsContainer : Value → Bool
  | container _ => true
  | list items => itemsHoldContainer items
  | map fields => fieldsHoldContainer fields
  | _ => false

def itemsHoldContainer : List Value → Bool
  | [] => false
  | v :: vs => holdsContainer v || itemsHoldContainer vs

def fieldsHoldContainer : List (String × Value) → Bool
  | [] => false
  | (_, v) :: vs => holdsContainer v || fieldsHoldContainer vs

end

end Value

end CausalDoc
