import CausalDoc.Proofs.Container.Reading
import CausalDoc.Proofs.Log.Past

/- What a log makes of one container.

   Read without regard to arrival, a log says which insertions have a place: those at the
   head, and those behind an element of an insertion that has a place and an earlier
   stamp (`Placed`). An element is deleted when a deletion of later stamp names it. A
   sequence that holds exactly this mirrors the log (`Mirrors`), and only one sequence
   does (`Mirrors.unique`).

   A sequence that mirrors its log still does after the next operation, if that one comes
   in order: it refers to older operations only, and no stored operation that refers to
   it is the newer one (`InOrder`). -/

namespace CausalDoc

namespace Log

/-- What the operation refers to and is stored has an earlier stamp, and what refers to the
operation and is stored has none that is later. -/
structure InOrder (log : Log) (op : Operation) : Prop where
  older : ∀ a ∈ op.named, ∀ o, log.get? a = some o → o.stamp < op.stamp
  newer : ∀ o, log.Stored o → ∀ a ∈ o.named, op.covers a = true → ¬ op.stamp < o.stamp

end Log

/-! ## Sequences -/

section Mirror

variable {α : Type} (read : Operation → Option (Insertion α))

/-- The insertion stands at the head, or behind an element of an earlier insertion that has a
place. -/
inductive Placed (log : Log) (id : ContainerId) : Operation → Prop where
  | head {op : Operation} {i : Insertion α} :
      log.Stored op → op.container = id → read op = some i → i.anchor = none →
      Placed log id op
  | behind {op o : Operation} {i : Insertion α} {a : AtomId} :
      log.Stored op → op.container = id → read op = some i → i.anchor = some a →
      Placed log id o → o.covers a = true → o.stamp < op.stamp → Placed log id op

/-- A deletion that is newer than the insertion `op` names the element `a`. -/
def Deleted (log : Log) (id : ContainerId) (op : Operation) (a : AtomId) : Prop :=
  ∃ d, log.Stored d ∧ d.container = id ∧ a ∈ d.targets ∧ op.stamp < d.stamp

/-- The log puts the element `e` under the name `a` behind `p`. -/
def Puts (log : Log) (id : ContainerId) (a : AtomId) (p : Option AtomId) (e : Element α) : Prop :=
  ∃ op i n, Placed read log id op ∧ read op = some i ∧ i.values[n]? = some e.value ∧
    a = op.id.forward n ∧ p = Sequence.anchorAt op.id i.anchor n ∧
    e.stamp = op.stamp.forward n ∧ (e.deleted = true ↔ Deleted log id op a)

/-- The sequence holds what the log puts into the container. -/
structure Mirrors (log : Log) (id : ContainerId) (s : Sequence α) : Prop where
  tidy : s.Tidy
  element : ∀ a e, s.elements.get? a = some e ↔ ∃ p, Puts read log id a p e
  child : ∀ a p, a ∈ s.childrenOf p ↔ ∃ e, Puts read log id a p e

variable {read} {log : Log} {id : ContainerId} {s : Sequence α} {op : Operation}

theorem Placed.stored (h : Placed read log id op) :
    log.Stored op ∧ op.container = id ∧ ∃ i, read op = some i := by
  cases h with
  | head hop hid hi _ => exact ⟨hop, hid, _, hi⟩
  | behind hop hid hi _ _ _ _ => exact ⟨hop, hid, _, hi⟩

theorem Placed.puts_value (h : Placed read log id op) {i : Insertion α} (hi : read op = some i)
    {n : Nat} {v : α} (hv : i.values[n]? = some v) :
    ∃ e, Puts read log id (op.id.forward n) (Sequence.anchorAt op.id i.anchor n) e ∧
      e.value = v := by
  have := Classical.propDecidable (Deleted log id op (op.id.forward n))
  exact ⟨⟨v, op.stamp.forward n, decide (Deleted log id op (op.id.forward n))⟩,
    ⟨op, i, n, h, hi, hv, rfl, rfl, rfl, decide_eq_true_iff⟩, rfl⟩

theorem Placed.puts (hread : Reading read) (h : Placed read log id op) {a : AtomId}
    (ha : op.covers a = true) : ∃ p e, Puts read log id a p e := by
  obtain ⟨-, -, i, hi⟩ := h.stored
  obtain ⟨n, hn, rfl⟩ := Operation.exists_forward ha
  rw [← hread.length hi] at hn
  obtain ⟨e, he, -⟩ := h.puts_value hi (List.getElem?_eq_getElem hn)
  exact ⟨_, e, he⟩

theorem Puts.placed (hread : Reading read) {a : AtomId} {p : Option AtomId} {e : Element α}
    (h : Puts read log id a p e) : ∃ o, Placed read log id o ∧ o.covers a = true := by
  obtain ⟨o, i, n, ho, hi, hv, rfl, -⟩ := h
  obtain ⟨hn, -⟩ := List.getElem?_eq_some_iff.1 hv
  exact ⟨o, ho, Operation.covers_forward (hread.length hi ▸ hn)⟩

/-- The stamp of an element is that of its atom. -/
theorem Puts.lamport (hread : Reading read) (hlog : log.Coherent) {a : AtomId}
    {p : Option AtomId} {e : Element α} (h : Puts read log id a p e) :
    log.lamport? a = some e.stamp.lamport ∧ a.peer = e.stamp.peer := by
  obtain ⟨o, i, n, ho, hi, hv, rfl, -, hstamp, -⟩ := h
  obtain ⟨hn, -⟩ := List.getElem?_eq_some_iff.1 hv
  have hget := hlog.get?_eq_some_iff.2
    ⟨ho.stored.1, Operation.covers_forward (hread.length hi ▸ hn)⟩
  rw [hstamp]
  refine ⟨Log.lamport?_eq_some_iff.2 ⟨o, hget, ?_⟩, rfl⟩
  show o.lamport + n = o.lamport + (o.id.counter + n - o.id.counter)
  omega

namespace Mirrors

theorem contains_iff (hread : Reading read) (h : Mirrors read log id s) {a : AtomId} :
    s.contains a = true ↔ ∃ o, Placed read log id o ∧ o.covers a = true := by
  rw [Sequence.contains_iff]
  refine ⟨?_, ?_⟩
  · intro hgiven
    obtain ⟨e, he⟩ := hgiven
    obtain ⟨p, hp⟩ := (h.element a e).1 he
    exact hp.placed hread
  · intro hgiven
    obtain ⟨o, ho, ha⟩ := hgiven
    obtain ⟨p, e, hp⟩ := ho.puts hread ha
    exact ⟨e, (h.element a e).2 ⟨p, hp⟩⟩

/-- The elements that a log puts have different stamps, as its atoms do. -/
theorem distinct (hread : Reading read) (hlog : log.Coherent) (h : Mirrors read log id s) :
    s.Distinct := by
  intro a b x y hx hy hstamp
  obtain ⟨p, hx⟩ := (h.element a x).1 hx
  obtain ⟨q, hy⟩ := (h.element b y).1 hy
  obtain ⟨hxl, hxp⟩ := hx.lamport hread hlog
  obtain ⟨hyl, hyp⟩ := hy.lamport hread hlog
  apply hlog.eq_of_lamport? _ hxl
  · rw [hstamp]
    exact hyl
  · rw [hxp, hyp, hstamp]

theorem unique (hread : Reading read) (hlog : log.Coherent) {t : Sequence α}
    (h : Mirrors read log id s) (ht : Mirrors read log id t) : s = t := by
  refine h.tidy.ext_of_distinct ht.tidy (h.distinct hread hlog) (fun a e => ?_) fun a p => ?_
  · rw [h.element, ht.element]
  · rw [h.child, ht.child]

theorem empty (hnone : ∀ o, log.Stored o → o.container ≠ id) :
    Mirrors read log id Sequence.empty := by
  have hputs : ∀ a p e, ¬ Puts read log id a p e := by
    intro a p e hgiven
    obtain ⟨o, i, n, ho, -⟩ := hgiven
    exact hnone o ho.stored.1 ho.stored.2.1
  refine ⟨Sequence.tidy_empty, fun a e => ?_, fun a p => ?_⟩
  · refine ⟨?_, ?_⟩
    · exact fun h => by cases h
    · intro hgiven
      obtain ⟨p, hp⟩ := hgiven
      exact absurd hp (hputs a p e)
  · refine ⟨?_, ?_⟩
    · exact fun h => by cases h
    · intro hgiven
      obtain ⟨e, hp⟩ := hgiven
      exact absurd hp (hputs a p e)

end Mirrors

/-! ## The next operation -/

/-- The next operation's anchor is the head or an element that the log puts there. -/
def HasPlace (read : Operation → Option (Insertion α)) (log : Log) (id : ContainerId) (i : Insertion α) : Prop :=
  ∀ a, i.anchor = some a → ∃ o, Placed read log id o ∧ o.covers a = true

theorem Placed.push {x : Operation} (h : Placed read log id x) : Placed read (log.push op) id x := by
  induction h with
  | head hop hid hi hhead => exact .head (Log.stored_push.2 (.inl hop)) hid hi hhead
  | behind hop hid hi hanchor _ hcovers hlt ih =>
    exact .behind (Log.stored_push.2 (.inl hop)) hid hi hanchor ih hcovers hlt

/-- The new operation gives no place to stored ones, and gets one if its anchor is there. -/
theorem placed_push (hread : Reading read) (hlog : log.Coherent)
    (hin : op.container = id → log.InOrder op) {x : Operation} :
    Placed read (log.push op) id x ↔ Placed read log id x ∨
      x = op ∧ op.container = id ∧ ∃ i, read op = some i ∧ HasPlace read log id i := by
  refine ⟨?_, ?_⟩
  · intro hx
    induction hx with
    | head hop hid hi hhead =>
      rcases Log.stored_push.1 hop with hop | rfl
      · exact .inl (.head hop hid hi hhead)
      · refine .inr ⟨rfl, hid, _, hi, fun a hanchor => ?_⟩
        rw [hhead] at hanchor
        cases hanchor
    | @behind x o i a hop hid hi hanchor _ hcovers hlt ih =>
      rcases ih with ho | ⟨rfl, hid', -⟩
      · rcases Log.stored_push.1 hop with hop | rfl
        · exact .inl (.behind hop hid hi hanchor ho hcovers hlt)
        · refine .inr ⟨rfl, hid, i, hi, fun b hb => ?_⟩
          rw [hanchor, Option.some.injEq] at hb
          exact ⟨o, ho, hb ▸ hcovers⟩
      · -- behind the new operation stands nothing newer
        rcases Log.stored_push.1 hop with hop | rfl
        · have hnamed : a ∈ x.named := by
            rw [Operation.named, hread.anchor hi, hanchor]
            simp
          exact absurd hlt ((hin hid').newer x hop a hnamed hcovers)
        · exact absurd hlt (Stamp.lt_irrefl _)
  · intro hcase
    rcases hcase with hx | ⟨rfl, hid, i, hi, hplace⟩
    · exact hx.push
    · have hop : (log.push x).Stored x := Log.stored_push.2 (.inr rfl)
      cases hanchor : i.anchor with
      | none => exact .head hop hid hi hanchor
      | some a =>
        obtain ⟨o, ho, hcovers⟩ := hplace a hanchor
        have hnamed : a ∈ x.named := by
          rw [Operation.named, hread.anchor hi, hanchor]
          simp
        have hlt : o.stamp < x.stamp :=
          (hin hid).older a hnamed o (hlog.get?_eq_some_iff.2 ⟨ho.stored.1, hcovers⟩)
        exact .behind hop hid hi hanchor ho.push hcovers hlt

theorem deleted_push (hlog : log.Coherent) (hin : op.container = id → log.InOrder op)
    {x : Operation} {a : AtomId} (hx : log.Stored x) (hcovers : x.covers a = true) :
    Deleted (log.push op) id x a ↔ Deleted log id x a ∨ op.container = id ∧ a ∈ op.targets := by
  refine ⟨?_, ?_⟩
  · intro hgiven
    obtain ⟨d, hd, hid, htarget, hlt⟩ := hgiven
    rcases Log.stored_push.1 hd with hd | rfl
    · exact .inl ⟨d, hd, hid, htarget, hlt⟩
    · exact .inr ⟨hid, htarget⟩
  · intro hcase
    rcases hcase with ⟨d, hd, hid, htarget, hlt⟩ | ⟨hid, htarget⟩
    · exact ⟨d, Log.stored_push.2 (.inl hd), hid, htarget, hlt⟩
    · have hnamed : a ∈ op.named := List.mem_append_right _ htarget
      exact ⟨op, Log.stored_push.2 (.inr rfl), hid, htarget,
        (hin hid).older a hnamed x (hlog.get?_eq_some_iff.2 ⟨hx, hcovers⟩)⟩

theorem not_deleted_push (hin : log.InOrder op) {a : AtomId} (hcovers : op.covers a = true) :
    ¬ Deleted (log.push op) id op a := by
  intro hgiven
  obtain ⟨d, hd, -, htarget, hlt⟩ := hgiven
  rcases Log.stored_push.1 hd with hd | rfl
  · exact hin.newer d hd a (List.mem_append_right _ htarget) hcovers hlt
  · exact Stamp.lt_irrefl _ hlt

/-- After the next operation the log puts there what it put before, less what the operation
deletes, and the operation's elements, if its anchor is there. -/
theorem puts_push (hread : Reading read) (hlog : log.Coherent)
    (hin : op.container = id → log.InOrder op) {a : AtomId} {p : Option AtomId}
    {e : Element α} :
    Puts read (log.push op) id a p e ↔
      (op.container = id ∧ ∃ i n v, read op = some i ∧ HasPlace read log id i ∧
        i.values[n]? = some v ∧ a = op.id.forward n ∧ p = Sequence.anchorAt op.id i.anchor n ∧
        e = ⟨v, op.stamp.forward n, false⟩) ∨
      ∃ e₀, Puts read log id a p e₀ ∧
        e = e₀.marked (decide (op.container = id ∧ a ∈ op.targets)) := by
  have hcovers : ∀ {x : Operation} {i : Insertion α} {n : Nat} {v : α}, read x = some i →
      i.values[n]? = some v → x.covers (x.id.forward n) = true := by
    intro x i n v hi hv
    obtain ⟨hn, -⟩ := List.getElem?_eq_some_iff.1 hv
    exact Operation.covers_forward (hread.length hi ▸ hn)
  obtain ⟨value, stamp, deleted⟩ := e
  refine ⟨?_, ?_⟩
  · intro hgiven
    obtain ⟨x, i, n, hx, hi, hv, rfl, rfl, rfl, hdel⟩ := hgiven
    rcases (placed_push hread hlog hin).1 hx with hx | ⟨rfl, hid, i', hi', hplace⟩
    · right
      rw [deleted_push hlog hin hx.stored.1 (hcovers hi hv)] at hdel
      -- the element as it was put before: marked if the old log deletes it
      have := Classical.propDecidable (Deleted log id x (x.id.forward n))
      refine ⟨⟨value, x.stamp.forward n, decide (Deleted log id x (x.id.forward n))⟩,
        ⟨x, i, n, hx, hi, hv, rfl, rfl, rfl, decide_eq_true_iff⟩, ?_⟩
      rw [Element.marked, Element.mk.injEq]
      refine ⟨rfl, rfl, Bool.eq_iff_iff.2 ?_⟩
      rw [Bool.or_eq_true, decide_eq_true_eq, decide_eq_true_eq]
      exact hdel
    · left
      obtain rfl : i' = i := Option.some.inj (hi'.symm.trans hi)
      have hkept : deleted = false := by
        rw [← Bool.not_eq_true]
        intro h
        exact not_deleted_push (hin hid) (hcovers hi hv) (hdel.1 h)
      exact ⟨hid, i', n, value, hi, hplace, hv, rfl, rfl, by rw [hkept]⟩
  · intro hcase
    rcases hcase with ⟨hid, i, n, v, hi, hplace, hv, rfl, rfl, heq⟩ | ⟨e₀, hputs, heq⟩
    · cases heq
      refine ⟨op, i, n, (placed_push hread hlog hin).2 (.inr ⟨rfl, hid, i, hi, hplace⟩), hi, hv,
        rfl, rfl, rfl, ?_⟩
      refine ⟨?_, ?_⟩
      · exact fun h => by cases h
      · exact fun h => absurd h (not_deleted_push (hin hid) (hcovers hi hv))
    · obtain ⟨x, i, n, hx, hi, hv, rfl, rfl, hstamp, hdel⟩ := hputs
      cases heq
      refine ⟨x, i, n, (placed_push hread hlog hin).2 (.inl hx), hi, hv, rfl, rfl, hstamp, ?_⟩
      rw [deleted_push hlog hin hx.stored.1 (hcovers hi hv), ← hdel, Bool.or_eq_true,
        decide_eq_true_eq]

namespace Mirrors

theorem hasAnchor_iff (hread : Reading read) (h : Mirrors read log id s) {i : Insertion α} :
    s.hasAnchor i.anchor = true ↔ HasPlace read log id i := by
  unfold HasPlace Sequence.hasAnchor
  cases i.anchor with
  | none => simp
  | some a => simp [h.contains_iff hread]

theorem push_of_ne (hread : Reading read) (hlog : log.Coherent) (h : Mirrors read log id s)
    (hne : op.container ≠ id) : Mirrors read (log.push op) id s := by
  have hputs : ∀ a p e, Puts read (log.push op) id a p e ↔ Puts read log id a p e := by
    intro a p e
    rw [puts_push hread hlog fun hid => absurd hid hne]
    simp [hne, Element.marked]
  refine ⟨h.tidy, fun a e => ?_, fun a p => ?_⟩
  · rw [h.element]
    simp [hputs]
  · rw [h.child]
    simp [hputs]

/-- A deletion marks in the sequence what it marks in the log. -/
theorem deleteAll (hread : Reading read) (hlog : log.Coherent) (h : Mirrors read log id s)
    (hin : log.InOrder op) (hid : op.container = id) (hi : read op = none) :
    Mirrors read (log.push op) id (s.deleteAll op.targets) := by
  have hputs : ∀ a p e, Puts read (log.push op) id a p e ↔
      ∃ e₀, Puts read log id a p e₀ ∧ e = e₀.marked (decide (a ∈ op.targets)) := by
    intro a p e
    rw [puts_push hread hlog fun _ => hin]
    simp [hi, hid]
  refine ⟨h.tidy.deleteAll op.targets, fun a e => ?_, fun a p => ?_⟩
  · rw [Sequence.get?_deleteAll, Option.map_eq_some_iff]
    refine ⟨?_, ?_⟩
    · intro hgiven
      obtain ⟨e₀, he₀, rfl⟩ := hgiven
      obtain ⟨p, hp⟩ := (h.element a e₀).1 he₀
      exact ⟨p, (hputs a p _).2 ⟨e₀, hp, rfl⟩⟩
    · intro hgiven
      obtain ⟨p, hp⟩ := hgiven
      obtain ⟨e₀, he₀, rfl⟩ := (hputs a p e).1 hp
      exact ⟨e₀, (h.element a e₀).2 ⟨p, he₀⟩, rfl⟩
  · rw [Sequence.childrenOf_deleteAll, h.child]
    refine ⟨?_, ?_⟩
    · intro hgiven
      obtain ⟨e₀, he₀⟩ := hgiven
      exact ⟨_, (hputs a p _).2 ⟨e₀, he₀, rfl⟩⟩
    · intro hgiven
      obtain ⟨e, he⟩ := hgiven
      obtain ⟨e₀, he₀, -⟩ := (hputs a p e).1 he
      exact ⟨e₀, he₀⟩

/-- The elements that a new operation inserts are new. -/
theorem fresh (hread : Reading read) (hlog : log.Coherent) (h : Mirrors read log id s)
    (ha : log.Admits op) {i : Insertion α} (hi : read op = some i) :
    s.Fresh op.id i.values.length := by
  intro n hn
  rw [← Bool.not_eq_true, h.contains_iff hread]
  intro hgiven
  obtain ⟨o, ho, hcovers⟩ := hgiven
  rw [hread.length hi] at hn
  have hstored := hlog.contains_of_covers ho.stored.1 hcovers
  rw [ha.not_contains (Operation.covers_forward hn)] at hstored
  cases hstored

theorem insertEach (hread : Reading read) (hlog : log.Coherent) (h : Mirrors read log id s)
    (ha : log.Admits op) (hin : log.InOrder op) (hid : op.container = id) {i : Insertion α}
    (hi : read op = some i) :
    Mirrors read (log.push op) id
      (if s.hasAnchor i.anchor then s.insertEach op.id op.stamp i.anchor i.values else s) := by
  -- an insertion deletes nothing
  have hputs : ∀ a p e, Puts read (log.push op) id a p e ↔
      (s.hasAnchor i.anchor = true ∧ ∃ n v, i.values[n]? = some v ∧ a = op.id.forward n ∧
        p = Sequence.anchorAt op.id i.anchor n ∧ e = ⟨v, op.stamp.forward n, false⟩) ∨
      Puts read log id a p e := by
    intro a p e
    rw [puts_push hread hlog fun _ => hin, h.hasAnchor_iff hread]
    simp [hi, hid, hread.targets hi, Element.marked]
  split
  · next hanchor =>
    simp only [hanchor, true_and] at hputs
    have hfresh := h.fresh hread hlog ha hi
    refine ⟨Sequence.Tidy.insertEach i.values h.tidy hanchor, fun a e => ?_, fun a p => ?_⟩
    · rw [Sequence.get?_insertEach i.values hfresh, h.element]
      refine ⟨?_, ?_⟩
      · intro hcase
        rcases hcase with ⟨n, v, hv, rfl, rfl⟩ | ⟨p, hp⟩
        · exact ⟨_, (hputs _ _ _).2 (.inl ⟨n, v, hv, rfl, rfl, rfl⟩)⟩
        · exact ⟨p, (hputs _ _ _).2 (.inr hp)⟩
      · intro hgiven
        obtain ⟨p, hp⟩ := hgiven
        rcases (hputs a p e).1 hp with ⟨n, v, hv, ha, -, he⟩ | hp
        · exact .inl ⟨n, v, hv, ha, he⟩
        · exact .inr ⟨p, hp⟩
    · rw [Sequence.mem_childrenOf_insertEach i.values hfresh, h.child]
      refine ⟨?_, ?_⟩
      · intro hcase
        rcases hcase with ⟨n, hn, rfl, rfl⟩ | ⟨e, he⟩
        · exact ⟨_, (hputs _ _ _).2 (.inl ⟨n, i.values[n], by simp [hn], rfl, rfl, rfl⟩)⟩
        · exact ⟨e, (hputs _ _ _).2 (.inr he)⟩
      · intro hgiven
        obtain ⟨e, he⟩ := hgiven
        rcases (hputs a p e).1 he with ⟨n, v, hv, ha, hp, -⟩ | he
        · obtain ⟨hn, -⟩ := List.getElem?_eq_some_iff.1 hv
          exact .inl ⟨n, hn, ha, hp⟩
        · exact .inr ⟨e, he⟩
  · next hanchor =>
    simp only [hanchor, Bool.false_eq_true, false_and, false_or] at hputs
    refine ⟨h.tidy, fun a e => ?_, fun a p => ?_⟩
    · rw [h.element]
      simp [hputs]
    · rw [h.child]
      simp [hputs]

/-- A sequence that mirrors its log does so after the next operation, if that one comes in
order. -/
theorem take (hread : Reading read) (hlog : log.Coherent) (h : Mirrors read log id s)
    (ha : log.Admits op) (hin : log.InOrder op) (hid : op.container = id) :
    Mirrors read (log.push op) id (s.take op (read op)) := by
  cases hi : read op with
  | none => exact h.deleteAll hread hlog hin hid hi
  | some i =>
    have hinserted := h.insertEach hread hlog ha hin hid hi
    unfold Sequence.take
    dsimp only
    split
    · next hanchor =>
      rw [if_pos hanchor] at hinserted
      rw [h.tidy.insertRun_eq_insertEach hanchor]
      exact hinserted
    · next hanchor =>
      rw [if_neg hanchor] at hinserted
      exact hinserted

end Mirrors

end Mirror

end CausalDoc
