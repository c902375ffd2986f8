import CausalDoc.Proofs.Document.Reachable
import CausalDoc.Proofs.Log.Closure
import Mathlib.Logic.Relation

/- Frontiers stand for their causal closure.

   Told one atom at a time, the walk over what atoms depend on passes over an atom on the
   stack that is covered and follows one that is new (`Log.Follows`). It ends in any log,
   since a turn covers more of the log or leaves less on the stack (`Log.acc_follows`). In
   a coherent log all that it puts on the stack is stored, so it can only stop at a given
   atom, and at the last one of the list that is not stored, as the stack starts with the
   last on top (`Coherent.versionOf_unknown`). Of sorted frontiers this is the largest one
   (`Lacks`). When it gets through it has found the least version that covers the given
   atoms and is closed under dependencies (`Coherent.closes`). -/

namespace CausalDoc.Log

variable {log : Log} {version : VersionVector} {stack : List AtomId} {a b id : AtomId}

/-! ## One turn of the walk -/

/-- One turn: the atom on top of the stack is passed over when it is covered, and when it is new and
stored it becomes covered, with what its operations depend on put on top. -/
inductive Follows (log : Log) :
    VersionVector × List AtomId → VersionVector × List AtomId → Prop where
  | pass {version : VersionVector} {id : AtomId} {stack : List AtomId} :
      version.includes id = true → Follows log (version, id :: stack) (version, stack)
  | follow {version : VersionVector} {id : AtomId} {stack : List AtomId} :
      version.includes id = false → log.contains id = true →
      Follows log (version, id :: stack)
        (version.extend id, (log.newDependencies version id).reverse ++ stack)

variable {now next : VersionVector × List AtomId}

/-- A turn leaves fewer stored atoms uncovered, or as many and fewer on the stack. -/
theorem Follows.lex (h : log.Follows now next) :
    Prod.Lex (· < ·) (· < ·) (log.uncovered next.1, next.2.length)
      (log.uncovered now.1, now.2.length) := by
  cases h with
  | pass _ => exact .right _ (Nat.lt_succ_self _)
  | follow hnew hstored => exact .left _ _ (uncovered_extend_lt hnew hstored)

/-- No walk goes on for ever. -/
theorem acc_follows (log : Log) (start : VersionVector × List AtomId) :
    Acc (fun next now => log.Follows now next) start :=
  Subrelation.accessible Follows.lex
    (InvImage.accessible (fun s : VersionVector × List AtomId => (log.uncovered s.1, s.2.length))
      ((Prod.lex Nat.lt_wfRel Nat.lt_wfRel).wf.apply _))

theorem dropWhile_of_new {rest : List AtomId} (hnew : version.includes id = false) :
    (id :: rest).dropWhile version.includes = id :: rest :=
  List.dropWhile_cons_of_neg (by rw [hnew]; exact Bool.false_ne_true)

theorem Follows.closeOver_eq (h : log.Follows now next) :
    log.closeOver now.1 now.2 = log.closeOver next.1 next.2 := by
  cases h with
  | pass hcovered =>
    dsimp only
    rw [closeOver, closeOver, List.dropWhile_cons_of_pos hcovered]
  | follow hnew hstored =>
    dsimp only
    rw [closeOver, dropWhile_of_new hnew]
    dsimp only
    rw [dif_pos hstored]

/-- What the walk comes to when it stops: with nothing left on the stack it has found the version,
and otherwise an atom on top that is not stored. -/
def outcome (version : VersionVector) : List AtomId → Except DocumentError VersionVector
  | [] => .ok version
  | id :: _ => .error (.unknownFrontier id)

/-- An atom that the walk stops at is new and not stored. -/
theorem unknown_of_stops {rest : List AtomId}
    (hstops : ∀ next, ¬ log.Follows (version, id :: rest) next) :
    version.includes id = false ∧ log.contains id = false := by
  have hnew : version.includes id = false := by
    rw [← Bool.not_eq_true]
    exact fun hcovered => hstops _ (.pass hcovered)
  refine ⟨hnew, ?_⟩
  rw [← Bool.not_eq_true]
  exact fun hstored => hstops _ (.follow hnew hstored)

/-- The walk stops, and there its outcome is read off. -/
theorem exists_stop (log : Log) (start : VersionVector × List AtomId) :
    ∃ last, Relation.ReflTransGen log.Follows start last ∧ (∀ next, ¬ log.Follows last next) ∧
      log.closeOver start.1 start.2 = outcome last.1 last.2 := by
  induction log.acc_follows start with
  | intro now _ ih =>
    by_cases hturn : ∃ next, log.Follows now next
    · obtain ⟨next, hturn⟩ := hturn
      obtain ⟨last, hreach, hstops, houtcome⟩ := ih next hturn
      exact ⟨last, .head hturn hreach, hstops, hturn.closeOver_eq.trans houtcome⟩
    · have hstops : ∀ next, ¬ log.Follows now next := fun next h => hturn ⟨next, h⟩
      refine ⟨now, .refl, hstops, ?_⟩
      obtain ⟨version, stack⟩ := now
      cases stack with
      | nil =>
        dsimp only
        rw [closeOver]
        rfl
      | cons id rest =>
        obtain ⟨hnew, hunknown⟩ := unknown_of_stops hstops
        dsimp only
        rw [closeOver, dropWhile_of_new hnew]
        dsimp only
        rw [dif_neg (by rw [hunknown]; exact Bool.false_ne_true)]
        rfl

/-! ## Closed versions -/

/-- With every atom of a stored operation the version covers what the operation lists, and the
creation of its container. -/
def Closed (log : Log) (version : VersionVector) : Prop :=
  ∀ op a, log.Stored op → op.covers a = true → version.includes a = true →
    ∀ d, d ∈ op.deps ∨ op.container.creator? = some d → version.includes d = true

/-- Versions cover predecessors of the same peer anyway, so a closed one is closed under causality. -/
theorem Closed.includes_of_precedes (hclosed : log.Closed version) (h : log.Gapless)
    (hb : version.includes b = true) (hab : log.Precedes a b) : version.includes a = true := by
  obtain ⟨op, hget, hpast⟩ := hab
  obtain ⟨hop, hcovers⟩ := h.get?_eq_some_iff.1 hget
  obtain ⟨hpeer, hfirst, -⟩ := Operation.covers_iff.1 hcovers
  rcases hpast with hdep | ⟨hsame, hlt⟩
  · rcases Operation.mem_dependencies.1 hdep with hdep | ⟨hsame, hprevious⟩ | hdep
    · exact hclosed op b hop hcovers hb a (.inl hdep)
    · exact VersionVector.includes_of_le hb (hsame.trans hpeer.symm) (by omega)
    · exact hclosed op b hop hcovers hb a (.inr hdep)
  · exact VersionVector.includes_of_le hb hsame (Nat.le_of_lt hlt)

theorem Closed.includes_of_below (hclosed : log.Closed version) (h : log.Gapless)
    {ids : List AtomId} (hids : ∀ id ∈ ids, version.includes id = true) (ha : log.Below ids a) :
    version.includes a = true := by
  obtain ⟨f, hf, rfl | hpast⟩ := ha
  · exact hids a hf
  · -- down the causal past one step at a time
    induction hpast using Relation.TransGen.head_induction_on with
    | single hab => exact hclosed.includes_of_precedes h (hids f hf) hab
    | head hab _ ih => exact hclosed.includes_of_precedes h ih hab

/-- The version is the causal closure of the frontiers, and compares to that of the log. -/
structure Closes (log : Log) (frontiers : Frontiers) (version : VersionVector) : Prop where
  /-- It covers the given atoms. -/
  given : ∀ id ∈ frontiers.toList, version.includes id = true
  /-- With every atom it covers what the atom's operation depends on. -/
  closed : log.Closed version
  /-- No version that does covers less. -/
  least : ∀ other, (∀ id ∈ frontiers.toList, other.includes id = true) → log.Closed other →
    other.includesAll version = true
  /-- It covers no more than the log has. -/
  within : log.version.includesAll version = true
  /-- So the log has it all, or it all and more. -/
  order : log.orderOf frontiers = .ok (some (if version = log.version then .eq else .gt))

namespace Coherent

variable (h : log.Coherent) {frontiers : Frontiers}

include h

theorem closes (hstored : ∀ id ∈ frontiers.toList, log.contains id = true) :
    ∃ v, log.versionOf frontiers = .ok v ∧ log.Closes frontiers v := by
  obtain ⟨v, hv, hcovers⟩ := h.versionOf_eq hstored
  have hwithin : log.version.includesAll v = true := by
    refine VersionVector.includesAll_iff.2 fun a ha => ?_
    obtain ⟨f, hf, rfl | hpast⟩ := (hcovers a).1 ha
    · exact hstored a hf
    · exact hpast.contains h
  refine ⟨v, hv, fun id hid => (hcovers id).2 ⟨id, hid, .inl rfl⟩, ?_, ?_, hwithin, ?_⟩
  · intro op a hop hin ha d hd
    have hprecedes : log.Precedes d a :=
      ⟨op, h.get?_eq_some_iff.2 ⟨hop, hin⟩,
        .inl (Operation.mem_dependencies.2 (hd.imp_right .inr))⟩
    obtain ⟨f, hf, rfl | hpast⟩ := (hcovers a).1 ha
    · exact (hcovers d).2 ⟨a, hf, .inr (.single hprecedes)⟩
    · exact (hcovers d).2 ⟨f, hf, .inr (.head hprecedes hpast)⟩
  · intro other hgiven hclosed
    refine VersionVector.includesAll_iff.2 fun a ha => ?_
    exact hclosed.includes_of_below h.toGapless hgiven ((hcovers a).1 ha)
  · unfold orderOf
    rw [hv]
    show Except.ok (log.version.order? v) = _
    rw [VersionVector.order?_of_includesAll hwithin]

end Coherent

/-! ## Atoms that are not stored -/

/-- The first atom of a stack that is not stored. -/
def firstUnknown? (log : Log) (stack : List AtomId) : Option AtomId :=
  stack.find? fun a => !log.contains a

theorem firstUnknown?_append {ids : List AtomId} (hids : ∀ a ∈ ids, log.contains a = true) :
    log.firstUnknown? (ids ++ stack) = log.firstUnknown? stack := by
  have hnone : ids.find? (fun a => !log.contains a) = none := by
    refine List.find?_eq_none.2 fun a ha => ?_
    rw [hids a ha]
    exact Bool.false_ne_true
  rw [firstUnknown?, List.find?_append, hnone, Option.none_or, firstUnknown?]

theorem firstUnknown?_cons (hid : log.contains id = true) :
    log.firstUnknown? (id :: stack) = log.firstUnknown? stack :=
  List.find?_cons_of_neg (by rw [hid]; exact Bool.false_ne_true)

/-- A turn covers stored atoms only, and leaves the first unknown atom where it is: what it takes
off the stack and what it puts there is stored. -/
theorem Follows.firstUnknown?_eq (h : log.Follows now next) (hlog : log.Coherent)
    (hknown : log.version.includesAll now.1 = true) :
    log.version.includesAll next.1 = true ∧
      log.firstUnknown? next.2 = log.firstUnknown? now.2 := by
  cases h with
  | @pass version id stack hcovered =>
    have hstored : log.contains id = true := VersionVector.includesAll_iff.1 hknown id hcovered
    exact ⟨hknown, (firstUnknown?_cons hstored).symm⟩
  | @follow version id stack hnew hstored =>
    refine ⟨VersionVector.includesAll_iff.2 fun a ha => ?_, ?_⟩
    · rcases includes_extend.1 ha with ha | ⟨hpeer, hle⟩
      · exact VersionVector.includesAll_iff.1 hknown a ha
      · exact contains_of_le hstored hpeer hle
    · calc log.firstUnknown? ((log.newDependencies version id).reverse ++ stack)
          = log.firstUnknown? stack := firstUnknown?_append fun a ha =>
            (happensBefore_of_newDependency hlog hstored (List.mem_reverse.1 ha)).contains hlog
        _ = log.firstUnknown? (id :: stack) := (firstUnknown?_cons hstored).symm

theorem firstUnknown?_of_walk (hlog : log.Coherent) (h : Relation.ReflTransGen log.Follows now next)
    (hknown : log.version.includesAll now.1 = true) :
    log.version.includesAll next.1 = true ∧
      log.firstUnknown? next.2 = log.firstUnknown? now.2 := by
  induction h with
  | refl => exact ⟨hknown, rfl⟩
  | tail _ hturn ih =>
    obtain ⟨hmore, hsame⟩ := hturn.firstUnknown?_eq hlog ih.1
    exact ⟨hmore, hsame.trans ih.2⟩

theorem Coherent.closeOver_unknown (h : log.Coherent)
    (hknown : log.version.includesAll version = true) (hfirst : log.firstUnknown? stack = some id) :
    log.closeOver version stack = .error (.unknownFrontier id) := by
  obtain ⟨⟨last, left⟩, hwalk, hstops, houtcome⟩ := log.exists_stop (version, stack)
  obtain ⟨-, hsame⟩ := firstUnknown?_of_walk h hwalk hknown
  rw [hfirst] at hsame
  cases left with
  | nil => cases hsame
  | cons top rest =>
    have hunknown := (unknown_of_stops hstops).2
    have htop : log.firstUnknown? (top :: rest) = some top :=
      List.find?_cons_of_pos (by rw [hunknown]; rfl)
    rw [htop, Option.some.injEq] at hsame
    rw [houtcome, hsame]
    rfl

/-- The atom that frontiers are refused for. -/
structure Lacks (log : Log) (frontiers : Frontiers) (id : AtomId) : Prop where
  unknown : log.contains id = false
  /-- Of the given atoms that are not stored it stands last. -/
  last : ∃ before after, frontiers.toList = before ++ id :: after ∧
    ∀ other ∈ after, log.contains other = true
  /-- In sorted frontiers it is the largest of them. -/
  largest : frontiers.Sorted → ∀ other ∈ frontiers.toList, log.contains other = false →
    other.counter < id.counter ∨ other.counter = id.counter ∧ other.peer ≤ id.peer

/-- What stands behind the last one that is not stored is stored, and what stands before it in sorted
frontiers is not larger. -/
theorem lacks_of_last {frontiers : Frontiers} {before after : List AtomId}
    (hlist : frontiers.toList = before ++ id :: after) (hunknown : log.contains id = false)
    (hafter : ∀ other ∈ after, log.contains other = true) : log.Lacks frontiers id where
  unknown := hunknown
  last := ⟨before, after, hlist, hafter⟩
  largest := by
    intro hsorted other hother hmissing
    rw [Frontiers.Sorted, show frontiers.ids = before ++ id :: after from hlist,
      List.pairwise_append] at hsorted
    rw [hlist, List.mem_append, List.mem_cons] at hother
    rcases hother with hbefore | rfl | hbehind
    · have hle := hsorted.2.2 other hbefore id List.mem_cons_self
      rcases Ordering.isLE_iff_eq_lt_or_eq_eq.1 hle with hlt | heq
      · exact (AtomId.compare_eq_lt_iff.1 hlt).imp_right fun hgiven =>
          ⟨hgiven.1, Nat.le_of_lt hgiven.2⟩
      · rw [AtomId.compare_eq_eq_iff.1 heq]
        exact .inr ⟨rfl, Nat.le_refl _⟩
    · exact .inr ⟨rfl, Nat.le_refl _⟩
    · rw [hafter other hbehind] at hmissing
      cases hmissing

/-- Among given atoms the last that is not stored is reported: the stack starts with the last on
top. -/
theorem Coherent.versionOf_unknown (h : log.Coherent) {frontiers : Frontiers}
    (hunknown : ∃ id ∈ frontiers.toList, log.contains id = false) :
    ∃ id, log.Lacks frontiers id ∧ log.versionOf frontiers = .error (.unknownFrontier id) := by
  cases hfirst : log.firstUnknown? frontiers.toList.reverse with
  | none =>
    obtain ⟨id, hid, hnot⟩ := hunknown
    have := List.find?_eq_none.1 hfirst id (List.mem_reverse.2 hid)
    rw [hnot] at this
    exact absurd rfl this
  | some id =>
    obtain ⟨hnot, above, below, hsplit, habove⟩ := List.find?_eq_some_iff_append.1 hfirst
    have hlist : frontiers.toList = below.reverse ++ id :: above.reverse := by
      rw [← List.reverse_reverse frontiers.toList, hsplit]
      simp
    refine ⟨id, lacks_of_last hlist (by simpa using hnot) fun other hother => ?_,
      h.closeOver_unknown rfl hfirst⟩
    simpa using habove other (List.mem_reverse.1 hother)

end CausalDoc.Log

namespace CausalDoc.Document

variable {doc : Document}

/-- A letter behind the first one of peer 1. -/
def comment : Operation :=
  ⟨⟨2, 0⟩, 1, [⟨1, 0⟩], .root "t" .text, 0, .insert (some ⟨1, 0⟩) (.text "x")⟩

/-- Peer 1 has typed two letters when the comment on the first one comes in. -/
def commented : Document :=
  (((new Config.standard 1).edit (.root "t" .text) (.insertText 0 "ab") 5).document.receive
    (Batch.mk .updates [comment]).encode).document

end CausalDoc.Document
