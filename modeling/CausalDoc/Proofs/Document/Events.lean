import CausalDoc.Proofs.Document.Run

/- What a subscriber is told.

   A request that applies something tells every subscriber once, and any other request tells
   nobody (`Lawful.deliveries_cases`). The event says from which version to which the
   document went and which containers were touched, and these are right (`Reports`). As
   each event starts where the one before it ended (`Linked`), a subscriber that asks the log
   for what lies between the two versions of its events, whenever it does, misses nothing
   and gets nothing twice (`events_gap_free`). -/

namespace CausalDoc

/-! ## Subscribers -/

namespace Subscribers

/-- Nobody is present twice, and the next number is new. -/
structure Orderly (subscribers : Subscribers) : Prop where
  nodup : subscribers.present.Nodup
  below : ∀ n ∈ subscribers.present, n < subscribers.next

theorem orderly_none : none.Orderly where
  nodup := List.nodup_nil
  below := fun _ hn => absurd hn List.not_mem_nil

variable {subscribers : Subscribers}

theorem Orderly.add (h : subscribers.Orderly) : subscribers.add.2.Orderly where
  nodup := by
    refine List.nodup_append.2 ⟨h.nodup, List.nodup_singleton _, fun a ha b hb heq => ?_⟩
    have hlt := h.below a ha
    rw [heq, List.mem_singleton.1 hb] at hlt
    exact Nat.lt_irrefl _ hlt
  below := fun n hn => by
    rcases List.mem_append.1 hn with hn | hn
    · exact Nat.lt_succ_of_lt (h.below n hn)
    · rw [List.mem_singleton.1 hn]
      exact Nat.lt_succ_self _

theorem Orderly.remove (h : subscribers.Orderly) (number : Nat) :
    (subscribers.remove number).2.Orderly where
  nodup := h.nodup.filter _
  below := fun n hn => h.below n (List.mem_filter.1 hn).1

end Subscribers

/-- The events that go to one subscriber. -/
def heard (subscriber : Nat) (deliveries : List Delivery) : List Event :=
  (deliveries.filter fun d => d.subscriber = subscriber).map Delivery.event

/-- The versions of the events make a chain without a gap. -/
def Linked (first : VersionVector) : List Event → VersionVector → Prop
  | [], last => first = last
  | event :: events, last => event.before = first ∧ Linked event.after events last

theorem heard_of_present {n : Nat} {event : Event} {present : List Nat} (hnodup : present.Nodup)
    (hn : n ∈ present) : heard n (present.map fun s => ⟨s, event⟩) = [event] := by
  have hone : present.filter (fun s => s = n) = [n] := by
    rw [List.filter_eq, hnodup.count, if_pos hn]
    rfl
  unfold heard
  rw [List.filter_map, List.map_map]
  show (present.filter fun s => s = n).map (fun _ => event) = [event]
  rw [hone]
  rfl

theorem heard_of_absent {n : Nat} {event : Event} {present : List Nat} (hn : n ∉ present) :
    heard n (present.map fun s => ⟨s, event⟩) = [] := by
  unfold heard
  rw [List.map_eq_nil_iff, List.filter_eq_nil_iff]
  intro d hd heq
  obtain ⟨s, hs, rfl⟩ := List.mem_map.1 hd
  exact hn (of_decide_eq_true heq ▸ hs)

namespace Document

variable {doc : Document} {request : Request} {requests : List Request} {n : Nat}

/-! ## One request -/

/-- The event tells what the request did to the document. -/
structure Reports (doc : Document) (request : Request) (event : Event) : Prop where
  origin : event.origin = .received ↔ ∃ bytes, request = .receive bytes
  before : event.before = doc.version
  after : event.after = (doc.next request).version
  later : event.before.order? event.after = some .lt
  /-- The containers are those that the applied operations change, each once. -/
  containers : ∀ id, id ∈ event.containers ↔ ∃ op ∈ doc.applied request, op.container = id
  ascending : event.containers.Pairwise fun a b => compare a b = .lt
  /-- The store took the applied operations. -/
  taken : (doc.next request).store = doc.store.absorbAll (doc.applied request)
  /-- A registered container that is not listed is as it was. -/
  unlisted : ∀ id state, doc.registry.get? id = some state → id ∉ event.containers →
    (doc.next request).registry.get? id = some state
  /-- At any later time, what lies between the versions are the applied operations. -/
  between : ∀ requests : List Request, (∀ request ∈ requests, request.Writable) →
    (((doc.next request).after requests).log.between event.before event.after).Perm
      (doc.applied request)

/-- At any later time, what lies between the versions before and after a request is what the request
applied. -/
theorem Lawful.between (h : doc.Lawful) (hw : request.Writable)
    (hrequests : ∀ request ∈ requests, request.Writable) :
    (((doc.next request).after requests).log.between doc.version (doc.next request).version).Perm
      (doc.applied request) := by
  obtain ⟨hadmits, hstore⟩ := h.store_next request
  have hnext := h.next hw
  have hlater := hnext.after hrequests
  have hstored : ∀ o, (doc.next request).log.Stored o ↔
      doc.log.Stored o ∨ o ∈ doc.applied request := fun o => by
    rw [show (doc.next request).log = _ from congrArg Store.log hstore]
    exact Store.stored_absorbAll
  have hgrown : ∀ o, (doc.next request).log.Stored o →
      ((doc.next request).after requests).log.Stored o :=
    fun o ho => (hnext.advances_after hrequests).stored ho
  have hnodup := (hlater.log.nodup_since doc.version).filter
    fun op => (doc.next request).version.includes op.lastId
  refine (List.perm_ext_iff_of_nodup hnodup (hadmits.nodup h.store)).2 fun op => ?_
  refine (Log.mem_between hlater.log h.log hnext.log (fun o ho => (hstored o).2 (.inl ho))
    hgrown).trans ?_
  rw [hstored]
  refine ⟨fun hgiven => hgiven.1.resolve_left hgiven.2, fun hop => ⟨.inr hop, ?_⟩⟩
  exact hadmits.not_stored h.store hop

/-- A request that applies something tells all subscribers what it did, and any other one tells
nothing. -/
theorem Lawful.deliveries_cases (h : doc.Lawful) (hw : request.Writable) :
    ¬ doc.Progresses request ∧ doc.deliveries request = [] ∨
      doc.Progresses request ∧ ∃ event, doc.Reports request event ∧
        doc.deliveries request = doc.subscribers.present.map fun s => ⟨s, event⟩ := by
  cases h.effect request with
  | idle hidle _ _ hsilent => exact .inl ⟨hidle, hsilent⟩
  | progress origin containers hprogress hsome hadmits hstore horigin hascending hcontainers
      hdeliveries =>
    refine .inr ⟨hprogress, _, ⟨horigin, rfl, rfl, ?_, hcontainers, hascending, hstore, ?_, ?_⟩,
      hdeliveries⟩
    · show doc.log.version.order? (doc.next request).log.version = some .lt
      rw [show (doc.next request).log = _ from congrArg Store.log hstore]
      exact hadmits.order? hsome
    · intro id state hget hunlisted
      rw [show (doc.next request).registry = _ from congrArg Store.registry hstore]
      refine hadmits.get?_of_not_mem h.store hget fun o ho heq => ?_
      exact hunlisted ((hcontainers id).2 ⟨o, ho, heq⟩)
    · exact fun requests hrequests => h.between hw hrequests

/-! ## All requests -/

/-- The events that a subscriber is told while requests are answered. -/
def told (doc : Document) (subscriber : Nat) : List Request → List Event
  | [] => []
  | request :: requests =>
    heard subscriber (doc.deliveries request) ++ (doc.next request).told subscriber requests

/-- A subscriber is told of a request exactly when it applies something, once, and rightly. -/
structure Tells (doc : Document) (subscriber : Nat) (request : Request) : Prop where
  silent : ¬ doc.Progresses request → heard subscriber (doc.deliveries request) = []
  once : doc.Progresses request →
    ∃ event, heard subscriber (doc.deliveries request) = [event] ∧ doc.Reports request event

theorem Lawful.orderly_next (h : doc.Lawful) (hs : doc.subscribers.Orderly) (request : Request) :
    (doc.next request).subscribers.Orderly := by
  rw [subscribers_next h]
  cases request with
  | edit container edit wallTime | receive bytes => exact hs
  | subscribe => exact hs.add
  | unsubscribe number => exact hs.remove number

theorem Lawful.present_next (h : doc.Lawful) (hn : n ∈ doc.subscribers.present)
    (hkept : request ≠ .unsubscribe n) : n ∈ (doc.next request).subscribers.present := by
  rw [subscribers_next h]
  cases request with
  | edit container edit wallTime | receive bytes => exact hn
  | subscribe => exact List.mem_append_left _ hn
  | unsubscribe number =>
    refine List.mem_filter.2 ⟨hn, ?_⟩
    simpa using fun heq => hkept (congrArg Request.unsubscribe heq.symm)

/-- A number that is given away already does not come back. -/
theorem Lawful.absent_next (h : doc.Lawful) (hn : n ∉ doc.subscribers.present)
    (hlt : n < doc.subscribers.next) (request : Request) :
    n ∉ (doc.next request).subscribers.present ∧ n < (doc.next request).subscribers.next := by
  rw [subscribers_next h]
  cases request with
  | edit container edit wallTime | receive bytes => exact ⟨hn, hlt⟩
  | subscribe =>
    refine ⟨fun hin => ?_, Nat.lt_succ_of_lt hlt⟩
    rcases List.mem_append.1 hin with hin | hin
    · exact hn hin
    · rw [List.mem_singleton.1 hin] at hlt
      exact Nat.lt_irrefl _ hlt
  | unsubscribe number => exact ⟨fun hin => hn (List.mem_filter.1 hin).1, hlt⟩

/-- One request tells a present subscriber what it did, once. -/
theorem Lawful.tells (h : doc.Lawful) (hs : doc.subscribers.Orderly)
    (hn : n ∈ doc.subscribers.present) (hw : request.Writable) : doc.Tells n request := by
  rcases h.deliveries_cases hw with ⟨hidle, hnone⟩ | ⟨hprogress, event, hreports, hall⟩
  · refine ⟨fun _ => ?_, fun hprogress => absurd hprogress hidle⟩
    rw [hnone]
    rfl
  · refine ⟨fun hidle => absurd hprogress hidle, fun _ => ⟨event, ?_, hreports⟩⟩
    rw [hall, heard_of_present hs.nodup hn]

theorem Lawful.heard_absent (h : doc.Lawful) (hn : n ∉ doc.subscribers.present)
    (hw : request.Writable) : heard n (doc.deliveries request) = [] := by
  rcases h.deliveries_cases hw with ⟨-, hnone⟩ | ⟨-, event, -, hall⟩
  · rw [hnone]
    rfl
  · rw [hall, heard_of_absent hn]

theorem Lawful.version_idle (h : doc.Lawful) (hidle : ¬ doc.Progresses request) :
    (doc.next request).version = doc.version := by
  cases h.effect request with
  | idle _ _ hstore _ => exact congrArg (fun store => store.log.version) hstore
  | progress _ _ hprogress => exact absurd hprogress hidle

/-- What a subscriber that is present gets to know while requests are answered. -/
structure Informs (doc : Document) (subscriber : Nat) (requests : List Request) : Prop where
  /-- The first event starts at the version of the document, each next one where the one before it
  ended, and the last one ends at the present version. -/
  linked : Linked doc.version (doc.told subscriber requests) (doc.after requests).version
  /-- There is one event for each request that makes progress, and no other. -/
  each : ∀ earlier request later, requests = earlier ++ request :: later →
    (doc.after earlier).Tells subscriber request

theorem Lawful.informs (h : doc.Lawful) (hs : doc.subscribers.Orderly)
    (hn : n ∈ doc.subscribers.present) (hw : ∀ request ∈ requests, request.Writable)
    (hkept : .unsubscribe n ∉ requests) : doc.Informs n requests := by
  induction requests generalizing doc with
  | nil =>
    refine ⟨rfl, fun earlier request later heq => ?_⟩
    exact absurd heq.symm (List.append_ne_nil_of_right_ne_nil _ (List.cons_ne_nil _ _))
  | cons first requests ih =>
    rw [List.mem_cons, not_or] at hkept
    have hfirst := hw first List.mem_cons_self
    have htells := h.tells hs hn hfirst
    have hrest : (doc.next first).Informs n requests :=
      ih (h.next hfirst) (h.orderly_next hs first) (h.present_next hn (Ne.symm hkept.1))
        (fun request hr => hw request (List.mem_cons_of_mem _ hr)) hkept.2
    refine ⟨?_, fun earlier request later heq => ?_⟩
    · rw [told, after_cons]
      by_cases hprogress : doc.Progresses first
      · obtain ⟨event, hheard, hreports⟩ := htells.once hprogress
        rw [hheard]
        refine ⟨hreports.before, ?_⟩
        rw [hreports.after]
        exact hrest.linked
      · rw [htells.silent hprogress, ← h.version_idle hprogress]
        exact hrest.linked
    · rcases List.cons_eq_append_iff.1 heq with ⟨rfl, hsplit⟩ | ⟨tail, rfl, hsplit⟩
      · cases hsplit
        exact htells
      · exact hrest.each tail request later hsplit

/-- Who was let go is told nothing. -/
theorem Lawful.told_absent (h : doc.Lawful) (hn : n ∉ doc.subscribers.present)
    (hlt : n < doc.subscribers.next) (hw : ∀ request ∈ requests, request.Writable) :
    doc.told n requests = [] := by
  induction requests generalizing doc with
  | nil => rfl
  | cons request requests ih =>
    have hfirst := hw request List.mem_cons_self
    obtain ⟨hn', hlt'⟩ := h.absent_next hn hlt request
    rw [told, h.heard_absent hn hfirst, ih (h.next hfirst) hn' hlt'
      fun r hr => hw r (List.mem_cons_of_mem _ hr)]
    rfl

theorem Lawful.orderly_after (h : doc.Lawful) (hs : doc.subscribers.Orderly)
    (hw : ∀ request ∈ requests, request.Writable) : (doc.after requests).subscribers.Orderly := by
  induction requests generalizing doc with
  | nil => exact hs
  | cons request requests ih =>
    exact ih (h.next (hw request List.mem_cons_self)) (h.orderly_next hs request)
      fun r hr => hw r (List.mem_cons_of_mem _ hr)

theorem Lawful.next_le_after (h : doc.Lawful) (hw : ∀ request ∈ requests, request.Writable) :
    doc.subscribers.next ≤ (doc.after requests).subscribers.next := by
  induction requests generalizing doc with
  | nil => exact Nat.le_refl _
  | cons request requests ih =>
    refine Nat.le_trans ?_ (ih (h.next (hw request List.mem_cons_self))
      fun r hr => hw r (List.mem_cons_of_mem _ hr))
    rw [subscribers_next h]
    cases request with
    | edit container edit wallTime | receive bytes | unsubscribe number => exact Nat.le_refl _
    | subscribe => exact Nat.le_succ _

theorem Lawful.told_before (h : doc.Lawful) (hs : doc.subscribers.Orderly)
    (hw : ∀ request ∈ requests, request.Writable)
    (hle : (doc.after requests).subscribers.next ≤ n) : doc.told n requests = [] := by
  induction requests generalizing doc with
  | nil => rfl
  | cons request requests ih =>
    have hfirst := hw request List.mem_cons_self
    have hn : n ∉ doc.subscribers.present := fun hin => by
      have hbelow := hs.below n hin
      have hgrown := h.next_le_after hw
      omega
    rw [told, h.heard_absent hn hfirst, ih (h.next hfirst) (h.orderly_next hs request)
      (fun r hr => hw r (List.mem_cons_of_mem _ hr)) hle]
    rfl

/-- The events that a subscriber is told have no gap.

Whatever is asked of a document from its beginning on: a subscriber that comes is told one event for
each request that applies something, as long as it is not let go, and the event is right; the events
lead from the version at which it came to the present one. It is told nothing before it came and
nothing after it was let go. -/
theorem events_gap_free {config : Config} {freshPeer n : Nat} {earlier requests later : List Request}
    (hpeer : (new config freshPeer).peer < 0x10000000000000000)
    (hw : ∀ request ∈ earlier ++ requests ++ later, request.Writable)
    (hn : ((new config freshPeer).after earlier).subscribe.result = .ok n)
    (hkept : .unsubscribe n ∉ requests) :
    let start := new config freshPeer
    let joined := (start.after earlier).next .subscribe
    joined.version = (start.after earlier).version ∧
      joined.Informs n requests ∧
      start.told n earlier = [] ∧
      ((joined.after requests).next (.unsubscribe n)).told n later = [] := by
  intro start joined
  simp only [List.mem_append, or_imp, forall_and] at hw
  obtain ⟨⟨hwEarlier, hwRequests⟩, hwLater⟩ := hw
  have hstart : start.Lawful := Lawful.new config freshPeer hpeer
  have hdoc : (start.after earlier).Lawful := hstart.after hwEarlier
  have hjoined : joined.Lawful := hdoc.next trivial
  have horderly : (start.after earlier).subscribers.Orderly :=
    hstart.orderly_after Subscribers.orderly_none hwEarlier
  have hnumber : (start.after earlier).subscribers.next = n := Except.ok.inj hn
  have hpresent : n ∈ joined.subscribers.present :=
    List.mem_append_right _ (List.mem_singleton.2 hnumber.symm)
  refine ⟨rfl, hjoined.informs horderly.add hpresent hwRequests hkept,
    hstart.told_before Subscribers.orderly_none hwEarlier (Nat.le_of_eq hnumber), ?_⟩
  have hgone : ((joined.after requests).next (.unsubscribe n)).Lawful :=
    (hjoined.after hwRequests).next trivial
  refine hgone.told_absent (fun hin => ?_) ?_ hwLater
  · have hkeeps := (List.mem_filter.1 hin).2
    simp at hkeeps
  · calc n
        = (start.after earlier).subscribers.next := hnumber.symm
      _ < joined.subscribers.next := Nat.lt_succ_self _
      _ ≤ (joined.after requests).subscribers.next := hjoined.next_le_after hwRequests

/-- A letter that comes too early, one that is typed, and the letter that the first one waited for. -/
def crossed : List Request :=
  [.receive (Batch.mk .updates [nextLetter]).encode, .edit (.root "t" .text) (.insertText 0 "z") 5,
    .receive (Batch.mk .updates [letter]).encode]

/-- Of the early letter the subscriber is not told, of the typed one it is, and of the other two
together when they are applied. -/
theorem events_gap_free_crossed :
    let joined := (new Config.standard 4).next .subscribe
    joined.Informs 0 crossed ∧
      (joined.told 0 crossed).map (fun event => (event.origin, event.containers)) =
        [(.edited, [.root "t" .text]), (.received, [.root "t" .text])] ∧
      (joined.after crossed).log.operationCount = 3 := by
  intro joined
  have hw : ∀ request ∈ [] ++ crossed ++ [], request.Writable := by
    intro request hrequest
    simp only [crossed, List.nil_append, List.append_nil, List.mem_cons, List.not_mem_nil,
      or_false] at hrequest
    rcases hrequest with rfl | rfl | rfl
    · trivial
    · exact ⟨trivial, by decide⟩
    · trivial
  obtain ⟨-, hinforms, -⟩ := @events_gap_free Config.standard 4 0 [] crossed [] (by decide) hw rfl
    (by simp [crossed])
  exact ⟨hinforms, by decide +kernel, by decide +kernel⟩

end Document

end CausalDoc
