import CausalDoc.Proofs.Document.Handle
import CausalDoc.Proofs.Document.Reachable
import CausalDoc.Proofs.Value.References

/- Which edits are refused, and why.

   An edit through a handle is looked at in a fixed order: whether its positions are in the
   sequence, whether there is anything to do, whether its values are free of references,
   and whether counters and Lamport times are left for its atoms. The first question with
   the wrong answer decides (`Edit.Answer`, `edit_answer`), so each answer is given exactly
   when its own condition holds and none before it does (`Reachable.answers_edit`). An edit
   that makes no operation leaves the document as it was. -/

namespace CausalDoc

namespace ContainerState

variable {state : ContainerState}

theorem length_idsInRange (h : state.Tidy) {index count : Nat}
    (hrange : index + count ≤ state.length) : (state.idsInRange index count).length = count := by
  cases state with
  | list s | text s =>
    have hvisible : s.length = s.visibleIds.length := h.visible
    rw [length, hvisible] at hrange
    rw [idsInRange, Sequence.idsInRange, List.length_take, List.length_drop]
    omega
  | map f =>
    rw [length] at hrange
    rw [idsInRange, List.length_nil]
    omega

end ContainerState

namespace Edit

/-- How far into the visible sequence the edit reaches. -/
def reach : Edit → Nat
  | insertValues index _ | insertText index _ | insertContainer index _ => index
  | deleteRange index count => index + count
  | setField .. | setContainer .. => 0

/-- The position that is named when the edit reaches too far. -/
def reported : Edit → Nat
  | deleteRange index count => min (index + count) lastIndex
  | edit => edit.reach

/-- There is nothing to insert or to delete. -/
def Idle : Edit → Prop
  | insertValues _ values => values = []
  | insertText _ text => text = ""
  | deleteRange _ count => count = 0
  | insertContainer .. | setField .. | setContainer .. => False

/-- The plain values that the edit writes. -/
def values : Edit → List Value
  | insertValues _ values => values
  | setField _ value => value.toList
  | insertText .. | insertContainer .. | deleteRange .. | setContainer .. => []

/-- A reference to a container stands in one of the values, at whatever depth. -/
def Mentions (edit : Edit) : Prop := ∃ v ∈ edit.values, ∃ id, v.Mentions id

def atoms : Edit → Nat
  | insertValues _ values => values.length
  | insertText _ text => text.toList.length
  | insertContainer .. | deleteRange .. | setField .. | setContainer .. => 1

variable {edit : Edit} {state : ContainerState} {action : Action} {kind : ContainerKind}

/-! ## The action of an edit -/

theorem action?_eq_error (h : state.length < edit.reach) :
    edit.action? state = .error (.indexOutOfBounds edit.reported state.length) := by
  cases edit with
  | insertValues | insertText | insertContainer | deleteRange => exact if_pos h
  | setField | setContainer => exact absurd h (Nat.not_lt_zero _)

theorem action?_eq_none (h : edit.reach ≤ state.length) (hidle : edit.Idle) :
    edit.action? state = .ok none := by
  have hin := Nat.not_lt.2 h
  cases edit with
  | insertValues index values => exact (if_neg hin).trans (if_pos (List.isEmpty_iff.2 hidle))
  | insertText index text => exact (if_neg hin).trans (if_pos (String.isEmpty_iff.2 hidle))
  | deleteRange index count => exact (if_neg hin).trans (if_pos hidle)
  | insertContainer | setField | setContainer => exact hidle.elim

theorem exists_action (h : edit.reach ≤ state.length) (hidle : ¬ edit.Idle) :
    ∃ action, edit.action? state = .ok (some action) := by
  have hin := Nat.not_lt.2 h
  cases edit with
  | insertValues index values =>
    exact ⟨_, (if_neg hin).trans (if_neg (mt List.isEmpty_iff.1 hidle))⟩
  | insertText index text =>
    exact ⟨_, (if_neg hin).trans (if_neg (mt String.isEmpty_iff.1 hidle))⟩
  | deleteRange index count => exact ⟨_, (if_neg hin).trans (if_neg hidle)⟩
  | insertContainer index kind => exact ⟨_, if_neg hin⟩
  | setField | setContainer => exact ⟨_, rfl⟩

namespace Makes

theorem length_eq (h : edit.Makes state action) : action.length = edit.atoms := by
  cases h <;> rfl

theorem length_pos (h : edit.Makes state action) : 0 < action.length := by
  cases h with
  | insertValues _ hvalues =>
    exact List.length_pos_iff.2 (by simpa using hvalues)
  | insertText _ htext =>
    exact List.length_pos_iff.2 (by simpa using htext)
  | insertContainer _ | deleteRange _ _ | setField | setContainer => exact Nat.one_pos

theorem holdsContainer_iff (h : edit.Makes state action) :
    action.holdsContainer = true ↔ edit.Mentions := by
  cases h with
  | insertValues _ _ =>
    simp [Action.holdsContainer, Mentions, values, Value.itemsHoldContainer_iff,
      Value.holdsContainer_iff]
  | @setField key value =>
    cases value with
    | none => simp [Action.holdsContainer, Mentions, values]
    | some v => simp [Action.holdsContainer, Mentions, values, Value.holdsContainer_iff]
  | insertText _ _ | insertContainer _ | deleteRange _ _ | setContainer =>
    simp [Action.holdsContainer, Mentions, values]

/-- What a handle offers is right for its kind of container; a deletion names what is visible, and
so something. -/
theorem fits (h : edit.Makes state action) (htidy : state.Tidy) (hkind : state.kind = kind)
    (hsuits : edit.suits kind = true) : action.flaw? kind = none := by
  subst hkind
  cases h with
  | @deleteRange index count hrange hcount =>
    have hsome : state.idsInRange index count ≠ [] := by
      have hlength := ContainerState.length_idsInRange htidy hrange
      rw [ne_eq, ← List.length_eq_zero_iff, hlength]
      exact Nat.ne_of_gt hcount
    have hseq : state.kind ≠ .map := by
      intro heq
      rw [heq] at hsuits
      cases hsuits
    rw [Action.flaw?, if_neg (by simpa using hsome), if_neg hseq]
  | insertValues _ _ | insertText _ _ | insertContainer _ | setField | setContainer =>
    cases state <;> first | rfl | cases hsuits

end Makes

end Edit

namespace Document

variable {doc : Document} {container : ContainerId} {edit : Edit} {wallTime : Nat}

/-- The counters or the Lamport times that are left do not do for `n` more atoms: one behind the
last of them would not fit 32 bits. -/
def Exhausts (doc : Document) (n : Nat) : Prop :=
  0xFFFFFFFF < doc.log.version.nextCounter doc.peer + n ∨
    0xFFFFFFFF < doc.log.clock.nextLamport + n

instance (doc : Document) (n : Nat) : Decidable (doc.Exhausts n) :=
  inferInstanceAs (Decidable (_ ∨ _))

/-- The flaw of a new operation for which too little is left. -/
def exhaustion (n : Nat) : Flaw := if 0x100000000 ≤ n then .insertTooLong else .counterOverflow

/-- The answers to an edit in the order in which they are considered. -/
inductive Answer (doc : Document) (container : ContainerId) (edit : Edit) :
    Except DocumentError (Option AtomId) → Prop where
  | outside : (doc.stateAt container).length < edit.reach →
      Answer doc container edit
        (.error (.indexOutOfBounds edit.reported (doc.stateAt container).length))
  | idle : edit.reach ≤ (doc.stateAt container).length → edit.Idle →
      Answer doc container edit (.ok none)
  | reference : edit.reach ≤ (doc.stateAt container).length → ¬ edit.Idle → edit.Mentions →
      Answer doc container edit (.error .containerValue)
  | exhausted : edit.reach ≤ (doc.stateAt container).length → ¬ edit.Idle → ¬ edit.Mentions →
      doc.Exhausts edit.atoms →
      Answer doc container edit
        (.error (.decode (.invalidOperation (doc.log.nextId doc.peer) (exhaustion edit.atoms))))
  | made : edit.reach ≤ (doc.stateAt container).length → ¬ edit.Idle → ¬ edit.Mentions →
      ¬ doc.Exhausts edit.atoms →
      Answer doc container edit (.ok (some (doc.log.nextId doc.peer)))

/-- A new operation that fits its container and writes no reference can only lack room. -/
theorem flaw?_draft (h : doc.log.Coherent) {action : Action} (hpos : 0 < action.length)
    (hplain : action.holdsContainer = false) (hfits : action.flaw? container.kind = none) :
    (doc.draft container action wallTime).flaw? =
      if doc.Exhausts action.length then some (exhaustion action.length) else none := by
  have hfuture : (doc.draft container action wallTime).deps.any (fun d =>
      d.peer = doc.peer && doc.log.version.nextCounter doc.peer ≤ d.counter) = false := by
    refine List.any_eq_false.2 fun d hd => ?_
    have hin := h.contains_of_frontier hd
    rw [Log.contains, VersionVector.includes_iff] at hin
    simp only [Bool.and_eq_true, decide_eq_true_eq, not_and, Nat.not_le]
    intro hpeer
    rwa [hpeer] at hin
  have hsplit : ∀ {n : Nat}, doc.Exhausts n ↔ 0x100000000 ≤ n ∨
      0x100000000 ≤ doc.log.version.nextCounter doc.peer + n ∨
        0x100000000 ≤ doc.log.clock.nextLamport + n := by
    intro n
    unfold Exhausts
    omega
  have hrest : (if (doc.draft container action wallTime).deps.any (fun d =>
      d.peer = doc.peer && doc.log.version.nextCounter doc.peer ≤ d.counter) then
        some Flaw.dependsOnFuture
      else if action.holdsContainer then some .strayReference
      else action.flaw? container.kind) = none := by
    rw [hfuture, hplain]
    exact hfits
  calc (doc.draft container action wallTime).flaw?
      = if 0x100000000 ≤ action.length then some .insertTooLong
        else if 0x100000000 ≤ doc.log.version.nextCounter doc.peer + action.length ∨
          0x100000000 ≤ doc.log.clock.nextLamport + action.length then some .counterOverflow
        else none := by
          rw [← hrest]
          exact if_neg (Nat.ne_of_gt hpos)
    _ = if doc.Exhausts action.length then some (exhaustion action.length) else none := by
          simp only [hsplit, exhaustion]
          split
          · next hlong => rw [if_pos (.inl hlong)]
          · next hshort => simp [hshort]

theorem commit_result (h : doc.registry.isResolvable container = true) (action : Action) :
    (doc.commit container action wallTime).result =
      if action.holdsContainer then .error .containerValue
      else match (doc.draft container action wallTime).flaw? with
        | some flaw => .error (.decode (.invalidOperation (doc.log.nextId doc.peer) flaw))
        | none => .ok (doc.log.nextId doc.peer) := by
  unfold commit
  rw [Registry.resolve_eq h]
  split
  · rfl
  · cases hflaw : (doc.draft container action wallTime).flaw? with
    | some flaw => simp only [hflaw]; rfl
    | none =>
      have happend : doc.log.append (doc.draft container action wallTime) =
          .ok (doc.log.push (doc.draft container action wallTime)) := Log.append_eq rfl
      simp only [hflaw, happend]
      rfl

theorem edit_answer (h : doc.store.Coherent) {kind : ContainerKind}
    (hcheck : doc.check container kind = .ok ()) (hsuits : edit.suits kind = true)
    (wallTime : Nat) :
    doc.Answer container edit (doc.edit container edit wallTime).result := by
  obtain ⟨rfl, hresolvable⟩ := check_iff.1 hcheck
  unfold Document.edit
  by_cases hreach : edit.reach ≤ (doc.stateAt container).length
  · by_cases hidle : edit.Idle
    · rw [Edit.action?_eq_none hreach hidle]
      exact .idle hreach hidle
    · obtain ⟨action, haction⟩ := Edit.exists_action hreach hidle
      have hmakes := Edit.makes_of_action? haction
      rw [haction]
      show doc.Answer container edit ((doc.commit container action wallTime).result.map some)
      rw [commit_result hresolvable]
      cases hholds : action.holdsContainer with
      | true => exact .reference hreach hidle (hmakes.holdsContainer_iff.1 hholds)
      | false =>
        have hplain : ¬ edit.Mentions := fun hmentions => by
          rw [hmakes.holdsContainer_iff.2 hmentions] at hholds
          cases hholds
        have hstate := h.stateOf container
        have hfits := hmakes.fits hstate.2.1 hstate.1 hsuits
        rw [if_neg Bool.false_ne_true, flaw?_draft h.log hmakes.length_pos hholds hfits,
          hmakes.length_eq]
        by_cases hroom : doc.Exhausts edit.atoms
        · rw [if_pos hroom]
          exact .exhausted hreach hidle hplain hroom
        · rw [if_neg hroom]
          exact .made hreach hidle hplain hroom
  · rw [Edit.action?_eq_error (Nat.not_le.1 hreach)]
    exact .outside (Nat.not_le.1 hreach)

theorem Answer.unique {result result' : Except DocumentError (Option AtomId)}
    (h : doc.Answer container edit result) (h' : doc.Answer container edit result') :
    result = result' := by
  cases h <;> cases h' <;> first | rfl | omega | contradiction

/-- What comes of an edit asked for through a handle. -/
structure Answers (doc : Document) (container : ContainerId) (edit : Edit)
    (outcome : Outcome (Option AtomId)) : Prop where
  /-- The edit reaches too far. -/
  outside : ∀ index length, outcome.result = .error (.indexOutOfBounds index length) ↔
    (doc.stateAt container).length < edit.reach ∧
      index = edit.reported ∧ length = (doc.stateAt container).length
  /-- There is nothing to do. -/
  idle : outcome.result = .ok none ↔
    edit.reach ≤ (doc.stateAt container).length ∧ edit.Idle
  /-- A reference would be written as a plain value. -/
  reference : outcome.result = .error .containerValue ↔
    edit.reach ≤ (doc.stateAt container).length ∧ ¬ edit.Idle ∧ edit.Mentions
  /-- No room is left for the atoms. -/
  exhausted : ∀ id flaw, outcome.result = .error (.decode (.invalidOperation id flaw)) ↔
    edit.reach ≤ (doc.stateAt container).length ∧ ¬ edit.Idle ∧ ¬ edit.Mentions ∧
      doc.Exhausts edit.atoms ∧ id = doc.log.nextId doc.peer ∧ flaw = exhaustion edit.atoms
  /-- Nothing is in the way. -/
  made : ∀ id, outcome.result = .ok (some id) ↔
    edit.reach ≤ (doc.stateAt container).length ∧ ¬ edit.Idle ∧ ¬ edit.Mentions ∧
      ¬ doc.Exhausts edit.atoms ∧ id = doc.log.nextId doc.peer
  /-- Without an operation the document stays as it was, in all its parts, and nobody is told. -/
  unchanged : (∀ id, outcome.result ≠ .ok (some id)) → outcome = ⟨doc, outcome.result, [], []⟩

/-- An edit through a handle fails exactly when it has to, with the reason that comes first, and an
edit that fails changes nothing. -/
theorem Reachable.answers_edit (h : doc.Reachable) (container : ContainerId) (kind : ContainerKind)
    (edit : Edit) (wallTime : Nat) (hcheck : doc.check container kind = .ok ())
    (hsuits : edit.suits kind = true) :
    doc.Answers container edit (doc.edit container edit wallTime) := by
  have hcoherent := h.lawful.store
  have hanswer := edit_answer hcoherent hcheck hsuits wallTime
  -- the answers exclude each other, so the one given is each that applies
  have hresult : ∀ result, (doc.edit container edit wallTime).result = result ↔
      doc.Answer container edit result := by
    intro result
    refine ⟨fun heq => heq ▸ hanswer, fun hother => hanswer.unique hother⟩
  refine ⟨fun index length => ?_, ?_, ?_, fun id flaw => ?_, fun id => ?_, fun hnone => ?_⟩
  · rw [hresult]
    refine ⟨fun hgiven => ?_, fun hgiven => ?_⟩
    · cases hgiven with
      | outside hreach => exact ⟨hreach, rfl, rfl⟩
    · obtain ⟨hreach, rfl, rfl⟩ := hgiven
      exact .outside hreach
  · rw [hresult]
    refine ⟨fun hgiven => ?_, fun hgiven => .idle hgiven.1 hgiven.2⟩
    cases hgiven with
    | idle hreach hidle => exact ⟨hreach, hidle⟩
  · rw [hresult]
    refine ⟨fun hgiven => ?_, fun hgiven => .reference hgiven.1 hgiven.2.1 hgiven.2.2⟩
    cases hgiven with
    | reference hreach hidle hmentions => exact ⟨hreach, hidle, hmentions⟩
  · rw [hresult]
    refine ⟨fun hgiven => ?_, fun hgiven => ?_⟩
    · cases hgiven with
      | exhausted hreach hidle hplain hroom => exact ⟨hreach, hidle, hplain, hroom, rfl, rfl⟩
    · obtain ⟨hreach, hidle, hplain, hroom, rfl, rfl⟩ := hgiven
      exact .exhausted hreach hidle hplain hroom
  · rw [hresult]
    refine ⟨fun hgiven => ?_, fun hgiven => ?_⟩
    · cases hgiven with
      | made hreach hidle hplain hroom => exact ⟨hreach, hidle, hplain, hroom, rfl⟩
    · obtain ⟨hreach, hidle, hplain, hroom, rfl⟩ := hgiven
      exact .made hreach hidle hplain hroom
  · rcases edit_outcome hcoherent container edit wallTime with
      ⟨result, hedit, -⟩ | ⟨action, -, -, -, hedit⟩
    · rw [hedit]
    · rw [hedit] at hnone
      exact absurd rfl (hnone _)

/-- A reference deep inside a value is refused. The list that it was to be put into does not come
into being, and the two who listen are still there and are not told, as they are of an insertion. -/
theorem answers_edit_reference :
    let doc := (new Config.standard 1).subscribe.document.subscribe.document
    let edit := Edit.insertValues 0 [.list [.null, .container (.root "m" .map)]]
    doc.subscribers.present = [0, 1] ∧
      (doc.edit (.root "l" .list) edit 5).result = .error .containerValue ∧
      (doc.edit (.root "l" .list) edit 5).document = doc ∧
      (doc.edit (.root "l" .list) edit 5).deliveries = [] ∧
      (doc.edit (.root "l" .list) (.insertValues 0 [.null]) 5).deliveries.map Delivery.subscriber =
        [0, 1] := by
  intro doc edit
  have h : doc.Reachable := .subscribe (.subscribe (.new Config.standard 1 (by decide)))
  have hanswers := Reachable.answers_edit h (.root "l" .list) .list edit 5 rfl rfl
  have hmentions : edit.Mentions :=
    ⟨_, List.mem_singleton_self _, _, .item (List.mem_cons_of_mem _ List.mem_cons_self) .here⟩
  have hresult := hanswers.reference.2 ⟨Nat.le_refl 0, List.cons_ne_nil _ _, hmentions⟩
  have hsame := hanswers.unchanged fun id heq => by
    rw [hresult] at heq
    cases heq
  exact ⟨rfl, hresult, congrArg Outcome.document hsame, congrArg Outcome.deliveries hsame, by decide +kernel⟩

end Document

end CausalDoc
