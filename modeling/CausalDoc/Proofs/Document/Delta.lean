import CausalDoc.Proofs.Document.Reachable
import CausalDoc.Proofs.Log.Delta
import CausalDoc.Proofs.Store.Contiguity

/- What a version is sent, exactly and in which order.

   However a log was filled, as long as every operation was sound and continued its peer's
   history (`Log.Built`), a version is sent the atoms that it lacks and no others, each
   once: operations as they are, and of an operation that the version ends in the middle
   of the rest (`Log.Sends`). In the log of a document Lamport times grow along
   dependencies, so the listing by stamps is strict and no operation comes before what it
   depends on (`Log.Causal`). -/

namespace CausalDoc.Log

variable {log : Log} {v : VersionVector} {op : Operation} {a : AtomId}

/-! ## Logs without gaps -/

theorem append_eq_ok_iff {log' : Log} : log.append op = .ok log' ↔
    op.id.counter = log.version.nextCounter op.id.peer ∧ log.push op = log' := by
  by_cases hnext : op.id.counter = log.version.nextCounter op.id.peer
  · rw [append_eq hnext, Except.ok.injEq]
    exact ⟨fun heq => ⟨hnext, heq⟩, And.right⟩
  · unfold append
    rw [if_pos hnext]
    exact ⟨fun heq => (by cases heq), fun hboth => absurd hboth.1 hnext⟩

/-- Logs that are filled by appending sound operations, whatever these refer to. -/
inductive Built : Log → Prop where
  | empty : Built empty
  | append {log log' : Log} {op : Operation} :
      Built log → op.Sound → log.append op = .ok log' → Built log'

theorem Built.gapless (h : log.Built) : log.Gapless := by
  induction h with
  | empty => exact gapless_empty
  | append _ hsound happend ih =>
    obtain ⟨hnext, rfl⟩ := append_eq_ok_iff.1 happend
    exact ih.push hsound hnext

/-! ## What is sent -/

/-- The list is what the version lacks of the log. -/
structure Sends (log : Log) (v : VersionVector) (ops : List Operation) : Prop where
  /-- The atoms are those of the log that the version does not cover. -/
  atoms : ∀ a, a ∈ ops.flatMap Operation.atoms ↔
    (∃ o, log.Stored o ∧ o.covers a = true) ∧ v.includes a = false
  /-- Each atom is sent once. -/
  once : (ops.flatMap Operation.atoms).Nodup
  /-- Operations that are new to the version are sent as they are, and insertions that it covers
  in part are cut: the first atom left has the atom before it as its anchor. -/
  parts : ∀ op, op ∈ ops ↔
    log.Stored op ∧ v.nextCounter op.id.peer ≤ op.id.counter ∨
    ∃ o anchor content, log.Stored o ∧ o.action = .insert anchor content ∧
      o.id.counter < v.nextCounter o.id.peer ∧ v.nextCounter o.id.peer < o.stop ∧
      op = { o with
        id := ⟨o.id.peer, v.nextCounter o.id.peer⟩
        lamport := o.lamport + (v.nextCounter o.id.peer - o.id.counter)
        action := .insert (some ⟨o.id.peer, v.nextCounter o.id.peer - 1⟩)
          (content.drop (v.nextCounter o.id.peer - o.id.counter)) }

theorem mem_atoms : a ∈ op.atoms ↔ op.covers a = true := by
  rw [Operation.atoms, List.mem_map]
  refine ⟨?_, ?_⟩
  · intro hgiven
    obtain ⟨n, hn, rfl⟩ := hgiven
    exact Operation.covers_forward (List.mem_range.1 hn)
  · intro hcovers
    obtain ⟨n, hn, rfl⟩ := Operation.exists_forward hcovers
    exact ⟨n, List.mem_range.2 hn, rfl⟩

theorem nodup_atoms (op : Operation) : op.atoms.Nodup :=
  List.Nodup.map (fun _ _ heq => AtomId.forward_inj.1 heq) List.nodup_range

namespace Gapless

variable (h : log.Gapless)

include h

theorem covers_of_mem_since (hop : op ∈ log.since v) (ha : op.covers a = true) :
    ∃ o, log.Stored o ∧ o.covers a = true ∧ v.includes a = false ∧
      op = o.suffix (v.nextCounter o.id.peer) := by
  obtain ⟨o, ho, hlt, rfl⟩ := h.mem_since.1 hop
  obtain ⟨hcovers, hle⟩ := (Operation.covers_suffix hlt).1 ha
  refine ⟨o, ho, hcovers, ?_, rfl⟩
  rw [← Bool.not_eq_true, VersionVector.includes_iff, (Operation.covers_iff.1 hcovers).1]
  omega

theorem covers_id_of_mem_since (hop : op ∈ log.since v) : op.covers op.id = true := by
  obtain ⟨o, ho, hlt, rfl⟩ := h.mem_since.1 hop
  exact Operation.covers_id ((h.sound ho).suffix hlt).length_pos

theorem exists_mem_since {o : Operation} (ho : log.Stored o) (ha : o.covers a = true)
    (hnew : v.includes a = false) : ∃ op ∈ log.since v, op.covers a = true := by
  obtain ⟨hpeer, hfirst, hstop⟩ := Operation.covers_iff.1 ha
  rw [← Bool.not_eq_true, VersionVector.includes_iff, hpeer] at hnew
  have hlt : v.nextCounter o.id.peer < o.stop := by omega
  exact ⟨_, h.mem_since.2 ⟨o, ho, hlt, rfl⟩,
    (Operation.covers_suffix hlt).2 ⟨ha, Nat.not_lt.1 hnew⟩⟩

/-- Two operations that are sent have no atom in common. -/
theorem eq_of_mem_since {op' : Operation} (hop : op ∈ log.since v) (hop' : op' ∈ log.since v)
    (ha : op.covers a = true) (ha' : op'.covers a = true) : op = op' := by
  obtain ⟨o, ho, hcovers, -, rfl⟩ := h.covers_of_mem_since hop ha
  obtain ⟨o', ho', hcovers', -, rfl⟩ := h.covers_of_mem_since hop' ha'
  rw [h.eq_of_covers ho ho' hcovers hcovers']

theorem sends_since (v : VersionVector) : log.Sends v (log.since v) where
  atoms := by
    intro a
    simp only [List.mem_flatMap, mem_atoms]
    refine ⟨?_, ?_⟩
    · intro hgiven
      obtain ⟨op, hop, ha⟩ := hgiven
      obtain ⟨o, ho, hcovers, hnew, -⟩ := h.covers_of_mem_since hop ha
      exact ⟨⟨o, ho, hcovers⟩, hnew⟩
    · intro hgiven
      obtain ⟨⟨o, ho, hcovers⟩, hnew⟩ := hgiven
      exact h.exists_mem_since ho hcovers hnew
  once := by
    rw [List.nodup_flatMap]
    refine ⟨fun op _ => nodup_atoms op, (h.nodup_since v).imp_of_mem ?_⟩
    intro x y hx hy hne a hax hay
    exact hne (h.eq_of_mem_since hx hy (mem_atoms.1 hax) (mem_atoms.1 hay))
  parts := by
    intro op
    rw [h.mem_since]
    refine ⟨?_, ?_⟩
    · intro hgiven
      obtain ⟨o, ho, hlt, rfl⟩ := hgiven
      by_cases hinside : o.id.counter < v.nextCounter o.id.peer
      · obtain ⟨anchor, content, haction, heq⟩ := Operation.suffix_eq hinside hlt
        exact .inr ⟨o, anchor, content, ho, haction, hinside, hlt, heq⟩
      · rw [Operation.suffix_of_le (Nat.not_lt.1 hinside)]
        exact .inl ⟨ho, Nat.not_lt.1 hinside⟩
    · intro hcase
      rcases hcase with ⟨hop, hle⟩ | ⟨o, anchor, content, ho, haction, hinside, hlt, rfl⟩
      · refine ⟨op, hop, ?_, (Operation.suffix_of_le hle).symm⟩
        exact Nat.lt_of_le_of_lt hle (Nat.lt_add_of_pos_right (h.sound hop).length_pos)
      · refine ⟨o, ho, hlt, ?_⟩
        obtain ⟨anchor', content', haction', heq⟩ := Operation.suffix_eq hinside hlt
        rw [haction, Action.insert.injEq] at haction'
        rw [heq, haction'.2]

end Gapless

/-! ## In which order -/

/-- A list that is sent to a version in causal order. -/
structure Causal (v : VersionVector) (ops : List Operation) : Prop where
  /-- The stamps ascend strictly. -/
  ascending : ops.Pairwise fun a b => a.stamp < b.stamp
  /-- What an operation depends on is known, or is new and has been sent before it. -/
  grounded : ∀ before op after, ops = before ++ op :: after → ∀ d ∈ op.dependencies,
    v.includes d = true ∨ v.includes d = false ∧ ∃ o ∈ before, o.covers d = true

/-- What has an earlier stamp stands before. -/
theorem mem_before {before after : List Operation} {x : Operation}
    (hascending : (before ++ op :: after).Pairwise fun a b => a.stamp < b.stamp)
    (hx : x ∈ before ++ op :: after) (hlt : x.stamp < op.stamp) : x ∈ before := by
  have hlater := (List.pairwise_cons.1 (List.pairwise_append.1 hascending).2.1).1
  rcases List.mem_append.1 hx with hx | hx
  · exact hx
  · rcases List.mem_cons.1 hx with rfl | hx
    · exact absurd hlt (Stamp.lt_irrefl _)
    · exact absurd (Stamp.lt_trans (hlater x hx) hlt) (Stamp.lt_irrefl _)

namespace Coherent

variable (h : log.Coherent)

include h

theorem lamport?_of_mem_since (hop : op ∈ log.since v) (ha : op.covers a = true) :
    log.lamport? a = some (op.lamport + (a.counter - op.id.counter)) := by
  obtain ⟨o, ho, hcovers, -, rfl⟩ := h.covers_of_mem_since hop ha
  refine lamport?_eq_some_iff.2 ⟨o, h.get?_eq_some_iff.2 ⟨ho, hcovers⟩, ?_⟩
  have hfirst := (Operation.covers_iff.1 ha).2.1
  rw [Operation.suffix_id] at hfirst ⊢
  rw [Operation.suffix_lamport]
  dsimp only at hfirst ⊢
  omega

/-- What an operation that is sent depends on is known to the version, or older. -/
theorem dep_of_mem_since (hop : op ∈ log.since v) {d : AtomId} (hd : d ∈ op.dependencies) :
    v.includes d = true ∨ ∃ l, log.lamport? d = some l ∧ l < op.lamport := by
  obtain ⟨o, ho, hlt, rfl⟩ := h.mem_since.1 hop
  have hlamport : o.lamport ≤ (o.suffix (v.nextCounter o.id.peer)).lamport := by
    rw [Operation.suffix_lamport]
    exact Nat.le_add_right _ _
  rw [Operation.mem_dependencies, Operation.suffix_deps, Operation.suffix_container,
    Operation.suffix_id] at hd
  have hwhole : d ∈ o.dependencies → ∃ l, log.lamport? d = some l ∧
      l < (o.suffix (v.nextCounter o.id.peer)).lamport := by
    intro hmem
    obtain ⟨l, hl, hltl⟩ := h.deps ho d hmem
    exact ⟨l, hl, Nat.lt_of_lt_of_le hltl hlamport⟩
  rcases hd with hd | ⟨hpeer, hcounter⟩ | hd
  · exact .inr (hwhole (Operation.mem_dependencies.2 (.inl hd)))
  · -- the atom before a part is covered, and the one before a whole operation is its dependency
    dsimp only at hpeer hcounter
    by_cases hinside : o.id.counter < v.nextCounter o.id.peer
    · left
      rw [VersionVector.includes_iff, hpeer]
      omega
    · exact .inr (hwhole (Operation.mem_dependencies.2 (.inr (.inl ⟨hpeer, by omega⟩))))
  · exact .inr (hwhole (Operation.mem_dependencies.2 (.inr (.inr hd))))

theorem ascending_since (v : VersionVector) :
    (log.since v).Pairwise fun a b => a.stamp < b.stamp := by
  refine ((log.pairwise_since v).and (h.nodup_since v)).imp_of_mem ?_
  intro x y hx hy hxy
  by_cases hlt : x.stamp < y.stamp
  · exact hlt
  · have hsame := Stamp.eq_of_not_lt hlt hxy.1
    rw [Stamp.ext_iff] at hsame
    have hxid := h.covers_id_of_mem_since hx
    have hyid := h.covers_id_of_mem_since hy
    have hxl := h.lamport?_of_mem_since hx hxid
    have hyl := h.lamport?_of_mem_since hy hyid
    rw [Nat.sub_self, Nat.add_zero] at hxl hyl
    rw [show x.lamport = y.lamport from hsame.1] at hxl
    have hid := h.eq_of_lamport? (show x.id.peer = y.id.peer from hsame.2) hxl hyl
    exact absurd (h.eq_of_mem_since hx hy hxid (hid ▸ hyid)) hxy.2

theorem causal_since (v : VersionVector) : Causal v (log.since v) := by
  refine ⟨h.ascending_since v, fun before op after hsplit d hd => ?_⟩
  have hop : op ∈ log.since v := by rw [hsplit]; simp
  rcases h.dep_of_mem_since hop hd with hknown | ⟨l, hl, hlt⟩
  · exact .inl hknown
  · cases hnew : v.includes d with
    | true => exact .inl rfl
    | false =>
      right
      obtain ⟨o, hget, -⟩ := lamport?_eq_some_iff.1 hl
      obtain ⟨ho, hcovers⟩ := h.get?_eq_some_iff.1 hget
      obtain ⟨x, hx, hxd⟩ := h.exists_mem_since ho hcovers hnew
      -- its operation is older, so it stands before
      have hold : x.lamport < op.lamport := by
        rw [h.lamport?_of_mem_since hx hxd, Option.some.injEq] at hl
        omega
      have hascending := h.ascending_since v
      rw [hsplit] at hx hascending
      exact ⟨rfl, x, mem_before hascending hx (Stamp.lt_of_lamport_lt hold), hxd⟩

end Coherent

end CausalDoc.Log

namespace CausalDoc.Document

/-- A version is sent exactly what it lacks of a log of sound operations; and if the log is that of a
reachable document, the listing is strict and puts everything behind what it depends on. -/
theorem deltas_exact :
    (∀ log : Log, log.Built → ∀ version, log.Sends version (log.since version)) ∧
      ∀ doc : Document, doc.Reachable → ∀ version,
        doc.log.Sends version (doc.log.since version) ∧
          Log.Causal version (doc.log.since version) := by
  refine ⟨fun log hlog version => hlog.gapless.sends_since version, fun doc hdoc version => ?_⟩
  have hlog := hdoc.lawful.log
  exact ⟨hlog.sends_since version, hlog.causal_since version⟩

/-- Three letters that depend on an atom that nobody has. -/
def dangling : Operation :=
  ⟨⟨1, 0⟩, 4, [⟨9, 3⟩], .root "t" .text, 0, .insert none (.text "abc")⟩

/-- A version that has the first letter is sent the others, anchored to it. -/
theorem deltas_exact_cut :
    let log := Log.empty.push dangling
    let doc := ((new Config.standard 1).edit (.root "t" .text) (.insertText 0 "ab") 5).document
    let version := VersionVector.empty.setLast ⟨1, 0⟩
    log.since version =
        [⟨⟨1, 1⟩, 5, [⟨9, 3⟩], .root "t" .text, 0, .insert (some ⟨1, 0⟩) (.text "bc")⟩] ∧
      log.Sends version (log.since version) ∧ Log.Causal version (doc.log.since version) := by
  intro log doc version
  have hsound : dangling.Sound := by decide
  have hlog : log.Built := .append .empty hsound rfl
  have hdoc : doc.Reachable := .edit _ _ _ (.new Config.standard 1 (by decide)) trivial (by decide)
  exact ⟨by decide, deltas_exact.1 log hlog version, (deltas_exact.2 doc hdoc version).2⟩

end CausalDoc.Document
