import CausalDoc.Proofs.Checked.Operation
import CausalDoc.Proofs.Container.Reading

/- Sequences with checked look-ups.

   A sequence looks up the elements that its tree and its order list, and puts new elements
   into the order at a place that it computes from them. Here a look-up of an element that
   does not exist traps, and so do a place beyond the end of the order and a sum that leaves
   32 bits. A tidy sequence lists nothing but its elements, so nothing of this happens
   (`insertRun_eq`, `deleteAll_eq`, `visibleIds_eq`), at any moment of a run of insertions,
   as long as the names and stamps of the run have 32 bits. -/

namespace CausalDoc.Checked

variable {α : Type}

/-! ## Elements -/

/-- An element that has to exist. -/
def element (s : Sequence α) (id : AtomId) : Checked (Element α) :=
  match s.elements.get? id with
  | some e => return e
  | none => .error .missing

/-- The answers of elements, all of which have to exist, to a question. -/
def ask (s : Sequence α) (question : Element α → Bool) (ids : List AtomId) :
    Checked (List (AtomId × Bool)) :=
  ids.mapM fun id => do return (id, question (← element s id))

def laterSiblings (s : Sequence α) (parent : Option AtomId) (stamp : Stamp) :
    Checked (List AtomId) := do
  let siblings ← ask s (fun e => stamp < e.stamp) (s.childrenOf parent)
  return (siblings.takeWhile Prod.snd).map Prod.fst

def placeFor (s : Sequence α) (parent : Option AtomId) (stamp : Stamp) : Checked Nat := do
  match (← laterSiblings s parent stamp).getLast? with
  | some sibling => return s.position (s.lastDescendant sibling) + 1
  | none =>
    match parent with
    | some p => return s.position p + 1
    | none => return 0

def visibleIds (s : Sequence α) : Checked (List AtomId) := do
  let answers ← ask s (fun e => !e.deleted) s.order
  return (answers.filter Prod.snd).map Prod.fst

/-! ## Insertion and deletion -/

/-- Puts elements into the order at a place, if there are any. -/
def splice (s : Sequence α) (place : Nat) (ids : List AtomId) : Checked (Sequence α) :=
  if ids = [] ∨ place ≤ s.order.length then .ok (s.splice place ids) else .error .splice

/-- Takes element `i` of a run that starts with the name `first` and the stamp `stamp`. -/
def next (run : Sequence.Run α) (first : AtomId) (stamp : Stamp) (i : Nat) (value : α) :
    Checked (Sequence.Run α) := do
  let id ← forward first (← word i)
  if run.sequence.contains id then
    return ⟨← splice run.sequence run.place run.fresh, some id, [], run.place⟩
  else
    let stamp : Stamp := ⟨← word (stamp.lamport + i), stamp.peer⟩
    if run.fresh.isEmpty then
      let s := run.sequence
      let before ← laterSiblings s run.parent stamp
      let siblings := before ++ id :: (s.childrenOf run.parent).drop before.length
      let place ← placeFor s run.parent stamp
      return ⟨s.addElement id stamp value run.parent siblings, some id, [id], place⟩
    else
      return ⟨run.sequence.addElement id stamp value run.parent [id], some id, run.fresh ++ [id],
        run.place⟩

/-- Takes the elements of a run from number `i` on. -/
def extend (run : Sequence.Run α) (first : AtomId) (stamp : Stamp) :
    Nat → List α → Checked (Sequence.Run α)
  | _, [] => return run
  | i, value :: values => do
    extend (← next run first stamp i value) first stamp (i + 1) values

def insertRun (s : Sequence α) (id : AtomId) (stamp : Stamp) (parent : Option AtomId)
    (values : List α) : Checked (Sequence α) := do
  let run ← extend ⟨s, parent, [], 0⟩ id stamp 0 values
  splice run.sequence run.place run.fresh

def delete (s : Sequence α) (id : AtomId) : Checked (Sequence α) := do
  match s.elements.get? id with
  | some e =>
    if e.deleted then
      return s
    else
      return { s with
        elements := s.elements.insert id { e with deleted := true }
        visible := ← minus s.visible 1 }
  | none => return s

def deleteAll (s : Sequence α) (ids : List AtomId) : Checked (Sequence α) := ids.foldlM delete s

/-! ## Reading -/

def idsInRange (s : Sequence α) (index count : Nat) : Checked (List AtomId) := do
  return ((← visibleIds s).drop index).take count

def anchorFor (s : Sequence α) (index : Nat) : Checked (Option AtomId) := do
  if index = 0 then
    return none
  else
    let i ← minus index 1
    return (← visibleIds s)[i]?

section Tidy

variable {s : Sequence α}

theorem ask_eq (question : Element α → Bool) {ids : List AtomId}
    (h : ∀ id ∈ ids, s.contains id = true) :
    ask s question ids = .ok (ids.map fun id => (id, (s.elements.get? id).any question)) := by
  apply mapM_eq
  intro id hid
  obtain ⟨e, he⟩ := Sequence.contains_iff.1 (h id hid)
  rw [element, he]
  rfl

theorem laterSiblings_eq (h : s.Tidy) (parent : Option AtomId) (stamp : Stamp) :
    laterSiblings s parent stamp = .ok (s.laterSiblings parent stamp) := by
  rw [laterSiblings, ask_eq _ fun id hid => h.contains_of_child hid, ok_bind, List.takeWhile_map,
    List.map_map]
  exact congrArg _ (List.map_id _)

theorem placeFor_eq (h : s.Tidy) (parent : Option AtomId) (stamp : Stamp) :
    placeFor s parent stamp = .ok (s.placeFor parent stamp) := by
  unfold placeFor Sequence.placeFor
  rw [laterSiblings_eq h, ok_bind]
  cases (s.laterSiblings parent stamp).getLast? with
  | some sibling => rfl
  | none => cases parent <;> rfl

theorem visibleIds_eq (h : s.Tidy) : visibleIds s = .ok s.visibleIds := by
  have hvisible : ∀ id, (s.elements.get? id).any (fun e => !e.deleted) = (s.value? id).isSome := by
    intro id
    unfold Sequence.value?
    cases s.elements.get? id with
    | none => rfl
    | some e => cases hdeleted : e.deleted <;> simp [hdeleted]
  rw [visibleIds, ask_eq _ fun id hid => (h.mem_order id).1 hid, ok_bind, List.filter_map,
    List.map_map, Sequence.visibleIds]
  simp only [hvisible]
  exact congrArg _ (List.map_id _)

theorem splice_eq {place : Nat} {ids : List AtomId} (h : ids ≠ [] → place ≤ s.order.length) :
    splice s place ids = .ok (s.splice place ids) := by
  apply if_pos
  by_cases hids : ids = []
  · exact .inl hids
  · exact .inr (h hids)

theorem next_eq {run : Sequence.Run α} {first : AtomId} {stamp : Stamp} {i : Nat}
    (hfits : run.Fits) (htidy : run.flush.Tidy) (hcounter : first.counter + i < 0x100000000)
    (hlamport : stamp.lamport + i < 0x100000000) (value : α) :
    next run first stamp i value = .ok (run.next (first.forward i) (stamp.forward i) value) := by
  unfold next Sequence.Run.next
  rw [word_eq (by omega), ok_bind, forward_eq hcounter, ok_bind, splice_eq hfits.within,
    word_eq hlamport]
  split
  · rfl
  · rw [ok_bind]
    split
    · next hfresh =>
      rw [Sequence.Run.flush_eq_of_nil (List.isEmpty_iff.1 hfresh)] at htidy
      dsimp only
      rw [laterSiblings_eq htidy, placeFor_eq htidy]
      rfl
    · rfl

theorem extend_eq (first : AtomId) (stamp : Stamp) :
    ∀ (values : List α) (run : Sequence.Run α) (i : Nat), run.Fits → run.flush.Tidy →
      run.flush.hasAnchor run.parent = true →
      first.counter + (i + values.length) < 0x100000000 →
      stamp.lamport + (i + values.length) < 0x100000000 →
      ∃ after, extend run first stamp i values = .ok after ∧
        after = run.extend (first.forward i) (stamp.forward i) values ∧ after.Fits
  | [], run, _, hfits, _, _, _, _ => ⟨run, rfl, rfl, hfits⟩
  | value :: values, run, i, hfits, htidy, hparent, hcounter, hlamport => by
    rw [List.length_cons] at hcounter hlamport
    obtain ⟨hflush, hfits', hpar⟩ :=
      Sequence.Run.next_spec (first.forward i) (stamp.forward i) value hfits htidy hparent
    have htidy' : (run.next (first.forward i) (stamp.forward i) value).flush.Tidy :=
      hflush ▸ htidy.insert hparent
    have hparent' : (run.next (first.forward i) (stamp.forward i) value).flush.hasAnchor
        (run.next (first.forward i) (stamp.forward i) value).parent = true := by
      rw [hflush, hpar]
      exact Sequence.hasAnchor_insert_self
    obtain ⟨after, hafter, heq, hlast⟩ := extend_eq first stamp values _ (i + 1) hfits' htidy'
      hparent' (by omega) (by omega)
    refine ⟨after, ?_, ?_, hlast⟩
    · rw [extend, next_eq hfits htidy (by omega) (by omega), ok_bind, hafter]
    · rw [Sequence.Run.extend, AtomId.forward_forward, Stamp.forward_forward, heq]

theorem insertRun_eq (h : s.Tidy) {id : AtomId} {stamp : Stamp} {parent : Option AtomId}
    (hparent : s.hasAnchor parent = true) {values : List α}
    (hcounter : id.counter + values.length < 0x100000000)
    (hlamport : stamp.lamport + values.length < 0x100000000) :
    insertRun s id stamp parent values = .ok (s.insertRun id stamp parent values) := by
  have hflush : (⟨s, parent, [], 0⟩ : Sequence.Run α).flush = s :=
    Sequence.Run.flush_eq_of_nil rfl
  obtain ⟨after, hafter, heq, hfits⟩ :=
    extend_eq id stamp values ⟨s, parent, [], 0⟩ 0
      ⟨fun hne => absurd rfl hne, fun hne => absurd rfl hne⟩ (by rwa [hflush]) (by rwa [hflush])
      (by omega) (by omega)
  rw [AtomId.forward_zero, Stamp.forward_zero] at heq
  rw [insertRun, hafter, ok_bind, splice_eq hfits.within, Sequence.insertRun, ← heq]
  rfl

/-- What is visible is counted, so there is something to count down from. -/
theorem delete_eq (h : s.Tidy) (id : AtomId) : delete s id = .ok (s.delete id) := by
  unfold delete Sequence.delete
  cases hget : s.elements.get? id with
  | none => rfl
  | some e =>
    dsimp only
    split
    · rfl
    · next hdeleted =>
      have hvisible : id ∈ s.visibleIds := by
        refine Sequence.mem_visibleIds.2
          ⟨(h.mem_order id).2 (Sequence.contains_iff.2 ⟨e, hget⟩), e.value, ?_⟩
        simp [Sequence.value?, hget, hdeleted]
      have hpos : 1 ≤ s.visible := by
        rw [h.visible]
        exact List.length_pos_of_mem hvisible
      rw [minus_eq hpos]
      rfl

theorem deleteAll_eq (h : s.Tidy) (ids : List AtomId) :
    deleteAll s ids = .ok (s.deleteAll ids) := by
  unfold deleteAll
  induction ids generalizing s with
  | nil => rfl
  | cons id ids ih =>
    rw [List.foldlM_cons, delete_eq h, ok_bind, ih h.delete]
    rfl

theorem idsInRange_eq (h : s.Tidy) (index count : Nat) :
    idsInRange s index count = .ok (s.idsInRange index count) := by
  rw [idsInRange, visibleIds_eq h]
  rfl

theorem anchorFor_eq (h : s.Tidy) (index : Nat) : anchorFor s index = .ok (s.anchorFor index) := by
  unfold anchorFor Sequence.anchorFor
  split
  · rfl
  · rw [minus_eq (by omega), visibleIds_eq h]
    rfl

end Tidy

end CausalDoc.Checked
