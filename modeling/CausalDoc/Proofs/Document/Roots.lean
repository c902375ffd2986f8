import CausalDoc.Document.Content
import CausalDoc.Proofs.Container.Id
import CausalDoc.Proofs.Document.Reachable
import Mathlib.Data.List.Nodup

/- Under which keys the content of a document shows its roots.

   A root that is alone with its name is shown under the name, any other one under its
   written form. Written forms are told apart, and so are names, but a name can be the
   written form of another root: then two roots meet at one key, and the later of the two
   is shown there (`shows_roots`). This is the only way in which a root can be missing. -/

namespace CausalDoc.Document

variable {doc : Document} {id : ContainerId}

/-- Another registered root has the same name. -/
def SharesName (doc : Document) (id : ContainerId) : Prop :=
  ∃ other ∈ doc.registry.roots, other ≠ id ∧ other.rootName? = id.rootName?

/-- The key of a registered root in the content. -/
def keyOf (doc : Document) (id : ContainerId) : String := rootKey doc.registry.roots id

/-- `a` is alone with its name, and this name is the key of `b`, which is not alone with its own. -/
structure TakesKey (doc : Document) (a b : ContainerId) : Prop where
  name : a.rootName? = some (toString b)
  alone : ¬ doc.SharesName a
  shared : doc.SharesName b

theorem nodup_roots (registry : Registry) : registry.roots.Nodup :=
  registry.states.nodup_keys.filter _

theorem mem_roots {registry : Registry} (h : id ∈ registry.roots) :
    ∃ name kind, id = .root name kind := by
  have hroot := (List.mem_filter.1 h).2
  cases id with
  | root name kind => exact ⟨name, kind, rfl⟩
  | created creator kind => cases hroot

theorem one_lt_countP_iff {roots : List ContainerId} (hnodup : roots.Nodup) (hid : id ∈ roots)
    {name : String} (hname : id.rootName? = some name) :
    1 < roots.countP (fun other => other.rootName? = some name) ↔
      ∃ other ∈ roots, other ≠ id ∧ other.rootName? = id.rootName? := by
  have hcount : roots.countP (fun other => other.rootName? = some name) =
      (roots.erase id).countP (fun other => other.rootName? = some name) + 1 := by
    rw [(List.perm_cons_erase hid).countP_eq, List.countP_cons_of_pos (by simp [hname])]
  rw [hcount, Nat.lt_add_left_iff_pos, List.countP_pos_iff, hname]
  refine exists_congr fun other => ?_
  rw [hnodup.mem_erase_iff, decide_eq_true_eq]
  tauto

theorem keyOf_shared (hid : id ∈ doc.registry.roots) (h : doc.SharesName id) :
    doc.keyOf id = toString id := by
  obtain ⟨name, kind, rfl⟩ := mem_roots hid
  exact if_pos ((one_lt_countP_iff (nodup_roots _) hid rfl).2 h)

theorem keyOf_alone {name : String} {kind : ContainerKind}
    (hid : .root name kind ∈ doc.registry.roots) (h : ¬ doc.SharesName (.root name kind)) :
    doc.keyOf (.root name kind) = name :=
  if_neg (mt (one_lt_countP_iff (nodup_roots _) hid rfl).1 h)

theorem takesKey_iff {a b : ContainerId} {name : String} {kind : ContainerKind}
    (ha : a = .root name kind) (halone : ¬ doc.SharesName a) (hshared : doc.SharesName b) :
    doc.TakesKey a b ↔ name = toString b := by
  subst ha
  exact ⟨fun h => Option.some.inj h.name, fun h => ⟨congrArg some h, halone, hshared⟩⟩

/-- Two roots meet at a key when one has the other's written form as its name. -/
theorem keyOf_eq_iff {a b : ContainerId} (ha : a ∈ doc.registry.roots)
    (hb : b ∈ doc.registry.roots) (hne : a ≠ b) :
    doc.keyOf a = doc.keyOf b ↔ doc.TakesKey a b ∨ doc.TakesKey b a := by
  obtain ⟨name, kind, rfl⟩ := mem_roots ha
  obtain ⟨name', kind', rfl⟩ := mem_roots hb
  by_cases hshared : doc.SharesName (.root name kind)
  · have hnot : ¬ doc.TakesKey (.root name kind) (.root name' kind') := fun h => h.alone hshared
    rw [keyOf_shared ha hshared, or_iff_right hnot]
    by_cases hshared' : doc.SharesName (.root name' kind')
    · rw [keyOf_shared hb hshared', ContainerId.toString_root_inj]
      exact iff_of_false hne fun h => h.alone hshared'
    · rw [keyOf_alone hb hshared', takesKey_iff rfl hshared' hshared]
      exact eq_comm
  · have hnot : ¬ doc.TakesKey (.root name' kind') (.root name kind) := fun h => hshared h.shared
    rw [keyOf_alone ha hshared, or_iff_left hnot]
    by_cases hshared' : doc.SharesName (.root name' kind')
    · rw [keyOf_shared hb hshared', takesKey_iff rfl hshared hshared']
    · rw [keyOf_alone hb hshared']
      refine iff_of_false (fun heq => ?_) fun h => hshared' h.shared
      exact hshared ⟨_, hb, hne.symm, congrArg some heq.symm⟩

/-- What the content of a document shows of its roots. -/
structure RootsShown (doc : Document) (fields : List (String × Value)) : Prop where
  content : doc.content = .map fields
  ascending : Entries.Ascending fields
  /-- The key of a root that shares its name is its written form. -/
  shared : ∀ id ∈ doc.registry.roots, doc.SharesName id → doc.keyOf id = toString id
  /-- The key of any other root is its name. -/
  alone : ∀ name kind, .root name kind ∈ doc.registry.roots →
    ¬ doc.SharesName (.root name kind) → doc.keyOf (.root name kind) = name
  /-- No key of a root is missing. -/
  present : ∀ id ∈ doc.registry.roots, ∃ v, (doc.keyOf id, v) ∈ fields
  /-- The entries are the keys of the roots, each with the content of the last root with this key. -/
  entry : ∀ key v, (key, v) ∈ fields ↔ ∃ before id after,
    doc.registry.roots = before ++ id :: after ∧ doc.keyOf id = key ∧
      v = doc.registry.content id ∧ ∀ other ∈ after, doc.keyOf other ≠ key
  /-- Two roots have one key only when one takes the key of the other. -/
  meets : ∀ a ∈ doc.registry.roots, ∀ b ∈ doc.registry.roots, a ≠ b →
    (doc.keyOf a = doc.keyOf b ↔ doc.TakesKey a b ∨ doc.TakesKey b a)
  /-- When none does, every root has an entry of its own, with its own content. -/
  whole : (∀ a ∈ doc.registry.roots, ∀ b ∈ doc.registry.roots, ¬ doc.TakesKey a b) →
    fields.Perm (doc.registry.roots.map fun id => (doc.keyOf id, doc.registry.content id))

/-- The content of a document is a map from the keys of its roots; a root is missing from it only
when a later root has the same key, and this only when the name of the one is the written form of
the other. -/
theorem shows_roots (doc : Document) : ∃ fields, doc.RootsShown fields := by
  obtain ⟨pairs, hpairs⟩ : ∃ pairs, pairs = doc.registry.roots.map fun id =>
      (doc.keyOf id, doc.registry.content id) := ⟨_, rfl⟩
  have hkeys : pairs.map Prod.fst = doc.registry.roots.map doc.keyOf := by
    rw [hpairs, List.map_map]
    rfl
  refine ⟨Entries.ofList pairs, ?_, Entries.ascending_ofList _, fun id hid h => keyOf_shared hid h,
    fun name kind hid h => keyOf_alone hid h, fun id hid => ?_, fun key v => ?_,
    fun a ha b hb hne => keyOf_eq_iff ha hb hne, fun hnone => ?_⟩
  · rw [hpairs]
    rfl
  · obtain ⟨v, hv⟩ := Entries.exists_lastWith (hkeys ▸ List.mem_map_of_mem (f := doc.keyOf) hid)
    exact ⟨v, Entries.mem_ofList.2 hv⟩
  · rw [Entries.mem_ofList, hpairs, Entries.lastWith_map]
    simp only [Prod.mk.injEq, and_assoc, eq_comm (a := v)]
  · rw [← hpairs]
    refine Entries.perm_ofList ?_
    rw [hkeys]
    refine List.Nodup.map_on (fun a ha b hb heq => ?_) (nodup_roots _)
    apply Classical.byContradiction
    intro hne
    rcases (keyOf_eq_iff ha hb hne).1 heq with htakes | htakes
    · exact hnone a ha b hb htakes
    · exact hnone b hb a ha htakes

/-- A map whose name is the written form of a list, and a text that shares the name of the list. -/
def disguised : Document :=
  let empty := new Config.standard 1
  let named := (empty.edit (.root "/x:List" .map) (.setField "k" (some .null)) 0).document
  let listed := (named.edit (.root "x" .list) (.insertValues 0 [.null]) 0).document
  (listed.edit (.root "x" .text) (.insertText 0 "t") 0).document

/-- The map is hidden: there are three roots, but the content has two entries. -/
theorem root_hidden : disguised.Reachable ∧
    disguised.registry.roots = [.root "/x:List" .map, .root "x" .list, .root "x" .text] ∧
    disguised.content = .map [("/x:List", .list [.null]), ("/x:Text", .string "t")] := by
  refine ⟨?_, by decide +kernel, by decide +kernel⟩
  exact .edit _ _ _ (.edit _ _ _ (.edit _ _ _ (.new Config.standard 1 (by decide)) trivial
    (by decide)) (by simp [Edit.Writable, Value.ItemsWritable, Value.Writable]) (by decide))
    trivial (by decide)

end CausalDoc.Document
