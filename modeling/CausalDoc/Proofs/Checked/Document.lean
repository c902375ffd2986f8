import CausalDoc.Proofs.Checked.Container
import CausalDoc.Proofs.Checked.Log
import CausalDoc.Proofs.Document.Reachable

/- Documents with checked arithmetic.

   An edit drafts an operation behind its peer's last one. A received operation is compared
   with what is known, cut, compared with the Lamport times of its dependencies, applied
   and logged, and what it releases goes the same way. A lawful document stores and parks
   operations without a flaw, and a flaw in a drafted or decoded operation is found before
   anything is computed from it, so neither traps (`edit_eq`, `receive_eq`). Hence nothing
   traps on a reachable document, whatever bytes it receives (`Reachable.never_traps`). -/

namespace CausalDoc

theorem Registry.stateOf_of_resolve {registry found : Registry} {id : ContainerId}
    {state : ContainerState} (h : registry.resolve id = .ok (found, state)) :
    state = registry.stateOf id := by
  unfold resolve at h
  unfold stateOf
  cases hget : registry.get? id with
  | some s =>
    rw [hget] at h
    cases h
    rfl
  | none =>
    rw [hget] at h
    dsimp only at h
    split at h
    · cases h
      rfl
    · cases h

namespace Checked

/-! ## Edits -/

def draft (doc : Document) (container : ContainerId) (action : Action) (wallTime : Nat) :
    Checked Operation := do
  let counter ← nextCounter doc.log.version doc.peer
  return { doc.draft container action wallTime with id := ⟨doc.peer, counter⟩ }

def commit (doc : Document) (container : ContainerId) (action : Action) (wallTime : Nat) :
    Checked (Outcome AtomId) := do
  if action.holdsContainer then
    return doc.fail .containerValue
  else
    let op ← draft doc container action wallTime
    match op.flaw? with
    | some flaw => return doc.fail (.decode (.invalidOperation op.id flaw))
    | none =>
      match doc.registry.resolve container with
      | .error e => return doc.fail e
      | .ok (registry, state) =>
        let written := registry.set container (← apply state op)
        let changed := { doc with registry := Document.registerCreated written op }
        match ← append doc.log op with
        | .error e => return changed.fail e
        | .ok log =>
          let after := { changed with log }
          return ⟨after, .ok op.id, after.notify .edited [container] doc.version, []⟩

def edit (doc : Document) (container : ContainerId) (edit : Edit) (wallTime : Nat) :
    Checked (Outcome (Option AtomId)) := do
  match ← action? (doc.stateAt container) edit with
  | .error e => return doc.fail e
  | .ok none => return doc.unchanged none
  | .ok (some action) => return (← commit doc container action wallTime).map some

/-! ## Received bytes -/

def newPart (op : Operation) (next : Nat) : Checked Operation :=
  if op.id.counter < next then suffix op next else return op

/-- A dependency that the operation is not newer than. -/
def stale? (log : Log) (op : Operation) : Checked (Option AtomId) := do
  let lamports ← op.dependencies.mapM fun d => do return (d, ← lamport? log d)
  return (lamports.find? fun p => p.2.any (op.lamport ≤ ·)).map Prod.fst

def judge (doc : Document) (op : Operation) : Checked Verdict := do
  let next ← nextCounter doc.version op.id.peer
  if (← stop op) ≤ next then
    return .known
  else
    let op ← newPart op next
    match op.dependencies.find? fun d => !doc.log.contains d with
    | some missing => return .waiting missing op
    | none =>
      match ← stale? doc.log op with
      | some dependency => return .stale dependency op
      | none => return if doc.registry.isResolvable op.container then .ready op else .orphan op

def perform (doc : Document) (op : Operation) :
    Checked (Document × Except DocumentError (List Warning)) := do
  match doc.registry.resolve op.container with
  | .error e => return (doc, .error e)
  | .ok (registry, state) =>
    let applies := state.canApply op
    let taken ← take state op
    let registry := if applies then registry.set op.container taken else registry
    let changed := { doc with registry := Document.registerCreated registry op }
    match ← append doc.log op with
    | .error e => return (changed, .error e)
    | .ok log =>
      return ({ changed with log }, .ok (if applies then [] else [.noEffect op.id op.container]))

def release (intake : Intake) (document : Document) (warnings : List Warning) (op : Operation) :
    Checked (Intake × List Operation) := do
  let (ready, pending) := document.pending.takeReady op.id.peer (← stop op)
  return ({ intake with
      document := { document with pending }
      status := { intake.status with applied := intake.status.applied + 1 }
      touched := intake.touched.insert op.container
      warnings := intake.warnings ++ warnings }, ready)

theorem perform_pending {doc after : Document} {op : Operation}
    {result : Except DocumentError (List Warning)} (h : perform doc op = .ok (after, result)) :
    after.pending = doc.pending := by
  unfold perform at h
  split at h
  · cases h
    rfl
  · obtain ⟨state, -, h⟩ := bind_eq_ok h
    obtain ⟨appended, -, h⟩ := bind_eq_ok h
    cases appended <;> cases h <;> rfl

theorem load_release {intake after : Intake} {document : Document} {warnings : List Warning}
    {op : Operation} {ready : List Operation}
    (h : release intake document warnings op = .ok (after, ready)) :
    ready.length + after.document.pending.load = document.pending.load := by
  obtain ⟨n, -, h⟩ := bind_eq_ok h
  cases h
  exact Pending.load_takeReady ..

def drain (intake : Intake) : List Operation → Checked (Intake × Except DocumentError Unit)
  | [] => return (intake, .ok ())
  | op :: queue =>
    match judge intake.document op with
    | .error trap => .error trap
    | .ok .known => drain intake.skip queue
    | .ok (.waiting missing part) => drain (intake.park missing part) queue
    | .ok (.stale dependency part) => drain (intake.reject dependency part) queue
    | .ok (.orphan part) => drain (intake.parkOrphan part) queue
    | .ok (.ready part) =>
      match _performed : perform intake.document part with
      | .error trap => .error trap
      | .ok (document, .error e) => return ({ intake with document }, .error e)
      | .ok (document, .ok warnings) =>
        match _released : release intake document warnings part with
        | .error trap => .error trap
        | .ok (after, ready) => drain after (queue ++ ready)
termination_by queue => Intake.work queue.length intake.document.pending.load
decreasing_by
  · exact Intake.work_lt_of_take (Nat.le_succ _)
  · exact Intake.work_lt_of_take (Intake.load_park ..)
  · exact Intake.work_lt_of_take (Nat.le_succ _)
  · exact Intake.work_lt_of_take (Intake.load_park ..)
  · rw [List.length_append, List.length_cons]
    refine Intake.work_lt_of_release ((load_release _released).trans ?_)
    exact congrArg Pending.load (perform_pending _performed)

def receive (doc : Document) (bytes : Wire.Bytes) : Checked (Outcome ReceiveStatus) := do
  match Batch.decode bytes with
  | .error e => return doc.fail (.decode e)
  | .ok batch =>
    match ← drain (Intake.start doc) batch.operations with
    | (intake, .error e) => return ⟨intake.document, .error e, [], intake.warnings⟩
    | (intake, .ok ()) =>
      let after := intake.document
      let buffered := (intake.parked.filter after.pending.contains).size
      let threshold := doc.config.pendingThreshold
      let grown :=
        if threshold < after.pending.size ∧ doc.pending.size ≤ threshold then
          [.pendingGrew after.pending.size threshold]
        else []
      let deliveries :=
        if 0 < intake.status.applied then
          after.notify .received intake.touched.toList doc.version
        else []
      return ⟨after, .ok { intake.status with buffered }, deliveries, intake.warnings ++ grown⟩

/-! ## Nothing traps -/

section Lawful

variable {doc : Document} {op : Operation}

theorem draft_eq (h : doc.log.Coherent) (container : ContainerId) (action : Action)
    (wallTime : Nat) :
    draft doc container action wallTime = .ok (doc.draft container action wallTime) := by
  rw [draft, nextCounter_eq (version_lt h.toGapless doc.peer)]
  rfl

theorem commit_eq (h : doc.store.Coherent) {container : ContainerId} {action : Action}
    {wallTime : Nat}
    (hnamed : ∀ a ∈ (doc.draft container action wallTime).named,
      (doc.stateAt container).holds a = true) :
    commit doc container action wallTime = .ok (doc.commit container action wallTime) := by
  have hlog : doc.log.Coherent := h.log
  unfold commit Document.commit
  split
  · rfl
  · rw [draft_eq hlog, ok_bind]
    dsimp only
    cases hflaw : (doc.draft container action wallTime).flaw? with
    | some flaw => rfl
    | none =>
      have hop : (doc.draft container action wallTime).Sound := hflaw
      cases hresolve : doc.registry.resolve container with
      | error e => rfl
      | ok found =>
        obtain ⟨registry, state⟩ := found
        obtain rfl : state = doc.registry.stateOf container := Registry.stateOf_of_resolve hresolve
        have htidy : (doc.registry.stateOf container).Tidy := (h.stateOf container).2.1
        dsimp only
        rw [apply_eq htidy hop (Document.canApply_draft h hop hnamed), ok_bind,
          append_eq hlog.toGapless hop, ok_bind]
        cases doc.log.append (doc.draft container action wallTime) <;> rfl

theorem edit_eq (h : doc.store.Coherent) (container : ContainerId) (edit : Edit)
    (wallTime : Nat) :
    Checked.edit doc container edit wallTime = .ok (doc.edit container edit wallTime) := by
  have htidy : (doc.stateAt container).Tidy := (h.stateOf container).2.1
  rw [Checked.edit, action?_eq htidy, ok_bind, Document.edit]
  cases haction : edit.action? (doc.stateAt container) with
  | error e => rfl
  | ok made =>
    cases made with
    | none => rfl
    | some action =>
      have hnamed : ∀ a ∈ (doc.draft container action wallTime).named,
          (doc.stateAt container).holds a = true :=
        (Edit.makes_of_action? haction).named
      dsimp only
      rw [commit_eq h hnamed]
      rfl

theorem newPart_eq (hop : op.Sound) (hnew : doc.version.nextCounter op.id.peer < op.stop) :
    newPart op (doc.version.nextCounter op.id.peer) = .ok (doc.newPart op) := by
  unfold newPart Document.newPart
  split
  · exact suffix_eq hop hnew
  · rfl

theorem stale?_eq (h : doc.log.Coherent) (op : Operation) : stale? doc.log op =
    .ok (op.dependencies.find? fun d => (doc.log.lamport? d).any (op.lamport ≤ ·)) := by
  have hlamport : ∀ d ∈ op.dependencies,
      (do return (d, ← lamport? doc.log d) : Checked (AtomId × Option Nat)) =
        .ok (d, doc.log.lamport? d) := by
    intro d _
    rw [lamport?_eq h.toGapless]
    rfl
  rw [stale?, mapM_eq hlamport, ok_bind, List.find?_map, Option.map_map]
  exact congrArg _ Option.map_id'

theorem judge_eq (h : doc.log.Coherent) (hop : op.Sound) :
    judge doc op = .ok (doc.judge op) := by
  have hnext : nextCounter doc.version op.id.peer = .ok (doc.version.nextCounter op.id.peer) :=
    nextCounter_eq (version_lt h.toGapless op.id.peer)
  rw [judge, hnext, ok_bind, stop_eq hop, ok_bind]
  by_cases hnew : doc.version.nextCounter op.id.peer < op.stop
  · rw [if_neg (Nat.not_le.2 hnew), newPart_eq hop hnew, ok_bind, Document.judge_of_lt hnew,
      Document.missing?, stale?_eq h, ok_bind]
    cases (doc.newPart op).dependencies.find? fun d => !doc.log.contains d with
    | some m => rfl
    | none =>
      cases (doc.newPart op).dependencies.find? fun d =>
        (doc.log.lamport? d).any ((doc.newPart op).lamport ≤ ·) <;> rfl
  · rw [if_pos (Nat.not_lt.1 hnew), Document.judge_of_le (Nat.not_lt.1 hnew)]
    rfl

theorem perform_eq (h : doc.store.Coherent) (hop : op.Sound) :
    perform doc op = .ok (doc.perform op) := by
  have hlog : doc.log.Coherent := h.log
  unfold perform Document.perform
  cases hresolve : doc.registry.resolve op.container with
  | error e => rfl
  | ok found =>
    obtain ⟨registry, state⟩ := found
    obtain rfl : state = doc.registry.stateOf op.container := Registry.stateOf_of_resolve hresolve
    have htidy : (doc.registry.stateOf op.container).Tidy := (h.stateOf op.container).2.1
    -- what the container becomes matters only when the operation applies
    have hset : (if (doc.registry.stateOf op.container).canApply op then
          registry.set op.container ((doc.registry.stateOf op.container).take op)
        else registry) =
        if (doc.registry.stateOf op.container).canApply op then
          registry.set op.container ((doc.registry.stateOf op.container).apply op)
        else registry := by
      unfold ContainerState.take
      split <;> rfl
    dsimp only
    rw [take_eq htidy hop, ok_bind, append_eq hlog.toGapless hop, ok_bind, hset]
    cases doc.log.append op <;> rfl

theorem drain_cons {intake : Intake} (h : intake.document.Lawful) (hop : op.Sound)
    (hw : op.Writable) (queue : List Operation) :
    drain intake (op :: queue) =
      drain (intake.advance op) (queue ++ (intake.document.advance op).2) := by
  have hjudged := judge_eq h.log hop
  unfold Intake.advance Document.advance
  cases hjudge : intake.document.judge op with
  | known | waiting m part | stale dependency part | orphan part =>
    rw [drain, hjudged, hjudge, List.append_nil]
  | ready part =>
    obtain ⟨hnew, hpart, -, -, hresolvable⟩ := Document.judge_eq_ready hjudge
    have hsound : part.Sound := hpart ▸ (Document.Lawful.newPart hop hw hnew).1
    have hperform := perform_eq h.store hsound
    rw [Document.perform_eq hresolvable (Document.next_of_ready hjudge)] at hperform
    have hrelease : ∀ document warnings, release intake document warnings part =
        .ok (intake.release document warnings part) := by
      intro document warnings
      rw [release, stop_eq hsound]
      rfl
    rw [drain, hjudged, hjudge]
    dsimp only
    split
    · next htrapped =>
      rw [hperform] at htrapped
      cases htrapped
    · next hfailed =>
      rw [hperform] at hfailed
      cases hfailed
    · next hdone =>
      rw [hperform] at hdone
      cases hdone
      split
      · next htrapped =>
        rw [hrelease] at htrapped
        cases htrapped
      · next hreleased =>
        rw [hrelease] at hreleased
        cases hreleased
        rfl

theorem drain_eq {intake : Intake} {queue : List Operation} (h : intake.document.Lawful)
    (hqueue : ∀ op ∈ queue, op.Sound ∧ op.Writable) :
    drain intake queue = .ok (intake.drain queue) := by
  have hend : ∀ {start finish : Intake × List Operation},
      Relation.ReflTransGen Intake.Turn start finish → finish.2 = [] →
        start.1.document.Lawful → (∀ op ∈ start.2, op.Sound ∧ op.Writable) →
          drain start.1 start.2 = .ok (finish.1, .ok ()) := by
    intro start finish hturns hempty
    induction hturns using Relation.ReflTransGen.head_induction_on with
    | refl =>
      intro _ _
      rw [hempty, drain]
      rfl
    | head hturn _ ih =>
      intro hlawful hall
      cases hturn with
      | off intake op queue =>
        obtain ⟨hop, hw⟩ := hall op List.mem_cons_self
        obtain ⟨hlawful', hreleased⟩ := hlawful.advance hop hw
        rw [drain_cons hlawful hop hw]
        apply ih
        · rw [Intake.advance_document]
          exact hlawful'
        · intro o ho
          rcases List.mem_append.1 ho with ho | ho
          · exact hall o (List.mem_cons_of_mem _ ho)
          · exact hreleased o ho
  obtain ⟨after, hturns, hdrain⟩ := Intake.exists_turns intake queue
  rw [hdrain]
  exact hend hturns rfl h hqueue

theorem receive_eq (h : doc.Lawful) (bytes : Wire.Bytes) :
    receive doc bytes = .ok (doc.receive bytes) := by
  unfold receive Document.receive
  cases hdecode : Batch.decode bytes with
  | error e => rfl
  | ok batch =>
    dsimp only
    rw [drain_eq h (Batch.decode_sound hdecode), ok_bind]
    rcases (Intake.start doc).drain batch.operations with ⟨intake, error | _⟩ <;> rfl

end Lawful

end Checked

namespace Document

variable {doc : Document}

/-- Nothing traps on a reachable document.

Receiving any bytes, making any edit, and cutting out what any version lacks that has no entry
2^32 - 1 give with all sums, differences, slices, look-ups and places checked what they give
without: no sum leaves 32 bits, no difference falls below zero, no slice starts beyond the end of
its content, every element that is looked up exists, and every place is within the order. -/
theorem Reachable.never_traps (h : doc.Reachable) :
    (∀ bytes, Checked.receive doc bytes = .ok (doc.receive bytes)) ∧
      (∀ container edit wallTime, Checked.edit doc container edit wallTime =
        .ok (doc.edit container edit wallTime)) ∧
      ∀ version : VersionVector,
        (∀ peer c, version.get? peer = some c → c < 0xFFFFFFFF) →
          Checked.since doc.log version = .ok (doc.log.since version) := by
  refine ⟨Checked.receive_eq h.lawful, Checked.edit_eq h.lawful.store, ?_⟩
  intro version hversion
  apply Checked.since_eq h.lawful.log.toGapless
  intro peer
  unfold VersionVector.nextCounter
  cases hget : version.get? peer with
  | none => exact Nat.succ_pos _
  | some c => exact Nat.succ_lt_succ (hversion peer c hget)

/-- A text of two characters is deleted again, and the second one is cut out for a version that
has the first. -/
theorem never_traps_typed :
    let doc := ((new Config.standard 1).edit (.root "t" .text) (.insertText 0 "ab") 5).document
    let version := VersionVector.empty.setLast ⟨1, 0⟩
    Checked.edit doc (.root "t" .text) (.deleteRange 0 2) 5 =
        .ok (doc.edit (.root "t" .text) (.deleteRange 0 2) 5) ∧
      Checked.since doc.log version = .ok (doc.log.since version) ∧
      (doc.log.since version).map Operation.id = [⟨1, 1⟩] := by
  intro doc version
  have h : doc.Reachable := .edit _ _ _ (.new Config.standard 1 (by decide)) trivial (by decide)
  obtain ⟨-, hedit, hsince⟩ := Reachable.never_traps h
  refine ⟨hedit _ _ _, hsince version ?_, by decide⟩
  intro peer c hget
  rw [VersionVector.get?_eq_some_iff] at hget
  by_cases hpeer : peer = 1
  · subst hpeer
    cases hget
    decide
  · rw [VersionVector.nextCounter_setLast_of_ne _ _ hpeer] at hget
    cases hget

/-- The last counter of 32 bits has no next one. -/
example :
    let doc := ((new Config.standard 1).edit (.root "t" .text) (.insertText 0 "ab") 5).document
    Checked.since doc.log (VersionVector.empty.setLast ⟨1, 0xFFFFFFFF⟩) = .error .overflow := by
  decide

end Document

end CausalDoc
