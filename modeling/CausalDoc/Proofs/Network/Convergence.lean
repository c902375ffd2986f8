import CausalDoc.Document.Content
import CausalDoc.Proofs.Network.Faithful

/- Strong convergence.

   The logs of all replicas of an honest run hold operations of one corpus, and a version
   tells which of them a log holds. What containers hold is a function of the log, for
   operations refer to their past only. So the version of a document determines all the
   rest of it that can be observed. -/

namespace CausalDoc.Network

variable {net after : Network} {peer otherPeer : Nat} {replica other : Replica}

/-- Documents of one honest run that have the same version, be it at different moments, are the
same: they have the same operations, so their snapshots agree byte by byte, the same frontiers,
and the same containers, which hold the same to the last tombstone. -/
theorem Honest.converges (h : net.Honest) (hrun : net.Run after)
    (hreplica : net.replicas peer = some replica)
    (hother : after.replicas otherPeer = some other)
    (hversion : replica.document.version = other.document.version) :
    replica.document.store = other.document.store ∧
      replica.document.log.all = other.document.log.all ∧
      replica.document.snapshot.encode = other.document.snapshot.encode ∧
      replica.document.log.frontiers = other.document.log.frontiers ∧
      replica.document.registry.states.keys = other.document.registry.states.keys ∧
      (∀ id, replica.document.stateAt id = other.document.stateAt id) ∧
      replica.document.content = other.document.content := by
  obtain ⟨hafter, hgrown⟩ := h.faithful.run hrun
  have haccount := (h.faithful.accounts hreplica).mono hgrown
  have haccount' := hafter.accounts hother
  have hstore : replica.document.store = other.document.store :=
    hafter.corpus.store_unique haccount.lawful.store haccount.written hafter.anchored
      haccount.lawful.advances haccount'.lawful.advances haccount'.written hversion
  have hlog : replica.document.log = other.document.log := congrArg Store.log hstore
  have hregistry : replica.document.registry = other.document.registry :=
    congrArg Store.registry hstore
  refine ⟨hstore, ?_, ?_, ?_, ?_, ?_, ?_⟩
  · rw [hlog]
  · rw [Document.snapshot, Document.snapshot, hlog]
  · rw [hlog]
  · rw [hregistry]
  · intro id
    rw [Document.stateAt, Document.stateAt, hregistry]
  · rw [Document.content, Document.content, hregistry]

/-- A replica that typed at the start of a text. -/
def typed (peer : Nat) (text : String) : Replica :=
  (Replica.new Config.standard peer).edit (.root "t" .text) (.insertText 0 text) 5

/-- Two replicas that typed at the same place. -/
theorem honest_typed : ∃ net : Network, net.Honest ∧
    net.replicas 1 = some (typed 1 "ab") ∧ net.replicas 2 = some (typed 2 "xy") := by
  have hjoin := Honest.step .refl (.join Config.standard 1 (by decide) rfl)
  have hjoin' := hjoin.step (.join Config.standard 2 (by decide) rfl)
  have hedit := hjoin'.step
    (@Step.edit _ 1 (.new Config.standard 1) (.root "t" .text) (.insertText 0 "ab") 5 rfl trivial
      (by decide))
  have hedit' := hedit.step
    (@Step.edit _ 2 (.new Config.standard 2) (.root "t" .text) (.insertText 0 "xy") 5 rfl trivial
      (by decide))
  exact ⟨_, hedit', rfl, rfl⟩

theorem honest_typed_edit {edit : Edit} (hedit : edit.Writable) : ∃ net : Network, net.Honest ∧
    net.replicas 1 = some ((typed 1 "ab").edit (.root "t" .text) edit 5) := by
  obtain ⟨net, hnet, hreplica, -⟩ := honest_typed
  have hstep := hnet.step (.edit (.root "t" .text) edit 5 hreplica hedit (by decide))
  exact ⟨_, hstep, by rw [replicas_put, if_pos rfl]⟩

/-- Two replicas type at the same place and send each other what they have. -/
theorem converges_crossed :
    let left := (typed 1 "ab").receive ((typed 2 "xy").batchFor none).encode
    let right := (typed 2 "xy").receive ((typed 1 "ab").batchFor none).encode
    left.document.version = right.document.version ∧
      left.document.content = right.document.content := by
  have hsize : ((typed 1 "ab").batchFor none).encode.length < 0x10000000000000000 := by decide +kernel
  have hsize' : ((typed 2 "xy").batchFor none).encode.length < 0x10000000000000000 := by decide +kernel
  have hversion :
      ((typed 1 "ab").receive ((typed 2 "xy").batchFor none).encode).document.version =
        ((typed 2 "xy").receive ((typed 1 "ab").batchFor none).encode).document.version := by
    decide +kernel
  intro left right
  have hjoin := Honest.step .refl (.join Config.standard 1 (by decide) rfl)
  have hjoin' := hjoin.step (.join Config.standard 2 (by decide) rfl)
  have hedit := hjoin'.step
    (@Step.edit _ 1 (.new Config.standard 1) (.root "t" .text) (.insertText 0 "ab") 5 rfl trivial
      (by decide))
  have hedit' := hedit.step
    (@Step.edit _ 2 (.new Config.standard 2) (.root "t" .text) (.insertText 0 "xy") 5 rfl trivial
      (by decide))
  have hsend := hedit'.step (@Step.send _ 1 (typed 1 "ab") none rfl hsize)
  have hsend' := hsend.step (@Step.send _ 2 (typed 2 "xy") none rfl hsize')
  have hreceive := hsend'.step (@Step.receive _ 1 (typed 1 "ab") _ rfl List.mem_cons_self)
  have hreceive' := hreceive.step
    (@Step.receive _ 2 (typed 2 "xy") _ rfl (List.mem_cons_of_mem _ List.mem_cons_self))
  obtain ⟨-, -, -, -, -, -, hcontent⟩ :=
    @Honest.converges _ _ 1 2 left right hreceive' .refl rfl rfl hversion
  exact ⟨hversion, hcontent⟩

end CausalDoc.Network
