import CausalDoc.Atom
import CausalDoc.Text.Split
import CausalDoc.Text.Decimal

/- Containers and their names.

   A container is a list, a map or a text. A root container is named by the
   application and exists without further ado; every other container is created
   by an operation and named by that operation's atom, so that two replicas can
   never give one name to containers of different kinds.

   The written form is `/name:Kind` for a root and `counter@peer:Kind` otherwise. -/

namespace CausalDoc

/-! ## Kinds -/

/-- What a container holds, fixed when it is created. -/
inductive ContainerKind where
  /-- An ordered sequence of values. -/
  | list
  /-- A map from field names to values. -/
  | map
  /-- A text. -/
  | text
  deriving DecidableEq, Repr, Inhabited

namespace ContainerKind

/-- The place of the kind among the three. -/
def rank : ContainerKind → Nat
  | list => 0
  | map => 1
  | text => 2

theorem rank_inj {a b : ContainerKind} : a.rank = b.rank ↔ a = b := by
  cases a <;> cases b <;> simp [rank]

/-- Lists come before maps and maps before texts. -/
instance : Ord ContainerKind := ⟨compareOn rank⟩

protected def toString : ContainerKind → String
  | list => "List"
  | map => "Map"
  | text => "Text"

instance : ToString ContainerKind := ⟨ContainerKind.toString⟩

def read? (s : String) : Option ContainerKind :=
  if s = "List" then some list
  else if s = "Map" then some map
  else if s = "Text" then some text
  else none

end ContainerKind

/-! ## Names -/

/-- The name of a container. -/
inductive ContainerId where
  /-- A top-level container, named by the application. -/
  | root (name : String) (kind : ContainerKind)
  /-- The container created by the operation that starts at `creator`. -/
  | created (creator : AtomId) (kind : ContainerKind)
  deriving DecidableEq, Repr, Inhabited

namespace ContainerId

def kind : ContainerId → ContainerKind
  | root _ kind => kind
  | created _ kind => kind

def isRoot : ContainerId → Bool
  | root .. => true
  | created .. => false

/-- The name the application gave to a root. -/
def rootName? : ContainerId → Option String
  | root name _ => some name
  | created .. => none

/-- The atom that created a container other than a root. -/
def creator? : ContainerId → Option AtomId
  | root .. => none
  | created creator _ => some creator

/-- Roots come first, by name and then kind; the others follow, by peer, counter and kind. -/
protected def compare : ContainerId → ContainerId → Ordering :=
  compareLex (compareOn fun id => (id.creator?.map AtomId.peer : Option Nat)) <|
    compareLex (compareOn fun id => (id.creator?.map AtomId.counter : Option Nat)) <|
      compareLex (compareOn rootName?) (compareOn fun id => id.kind.rank)

instance : Ord ContainerId := ⟨ContainerId.compare⟩

instance : Std.TransOrd ContainerId := by
  unfold Std.TransOrd
  change Std.TransCmp ContainerId.compare
  unfold ContainerId.compare
  infer_instance

theorem compare_eq_eq_iff {a b : ContainerId} : compare a b = .eq ↔ a = b := by
  change ContainerId.compare a b = .eq ↔ _
  unfold ContainerId.compare
  simp only [compareLex, compareOn, Ordering.then_eq_eq, Std.LawfulEqOrd.compare_eq_iff_eq,
    ContainerKind.rank_inj]
  cases a <;> cases b <;>
    simp [creator?, rootName?, ContainerId.kind, AtomId.ext_iff, and_assoc]

instance : Std.LawfulEqOrd ContainerId where
  compare_self := compare_eq_eq_iff.2 rfl
  eq_of_compare := compare_eq_eq_iff.1

/-! ## Written form -/

protected def toString : ContainerId → String
  | root name kind => s!"/{name}:{kind}"
  | created creator kind => s!"{creator}:{kind}"

instance : ToString ContainerId := ⟨ContainerId.toString⟩

/-- How a handle on the container is shown. -/
def handleText (id : ContainerId) : String :=
  toString id.kind ++ "Handle \x7b id: " ++ toString id ++ " \x7d"

/-- Reads the written form. The kind stands behind the last colon; before it, a slash opens the
name of a root, and otherwise the first `@` divides counter and peer, of 32 and of 64 bits. -/
def read? (s : String) : Option ContainerId := do
  let (head, kind) ← Text.splitLast? ':' s.toList
  let kind ← ContainerKind.read? (String.ofList kind)
  match head with
  | '/' :: name => return root (String.ofList name) kind
  | _ =>
    let (counter, peer) ← Text.splitFirst? '@' head
    let counter ← Text.readDecimal? 0x100000000 counter
    let peer ← Text.readDecimal? 0x10000000000000000 peer
    return created ⟨peer, counter⟩ kind

end ContainerId

end CausalDoc
