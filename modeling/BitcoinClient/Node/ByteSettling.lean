import BitcoinClient.Node.ByteNetwork

/-! # Transfers settle a network of bytes

While the nodes do nothing but handle messages, the bytes that carry these come to rest as well.
What a worker takes is a delivery between the nodes, and every other transfer brings a message
closer to a worker. A transfer is left as long as a connection that works holds anything.
-/

namespace BitcoinClient

open ByteNetwork

variable {n requests : Nat} {serialize : Message → List UInt8}
  {deserialize : List UInt8 → Option Message} {C : Crypto} {build : Build}
  {geneLoop : Fin n → GeneLoop} {links : Links n} {icoKey : Ed25519KeyPair}
  {mining : Mining C n} {network following : ByteNetwork n requests}
  {start abstract : NodeNetwork n requests} {who source target : Fin n}

namespace ByteNetwork

/-- The broadcasts that wait for a server. -/
def broadcasts (network : ByteNetwork n requests) : Nat :=
  ∑ who, (network.controlChan who).length

/-- What is left to do for the tasks of all connections. -/
def wireRank (network : ByteNetwork n requests) : Nat :=
  ∑ source, ∑ target, (network.wire source target).rank

theorem broadcasts_broadcast_lt {message : Message} (hchan : network.controlChan who ≠ []) :
    (network.broadcast serialize links who message).broadcasts < network.broadcasts := by
  refine Finset.sum_lt_sum (fun other _ => ?_) ⟨who, Finset.mem_univ who, ?_⟩
  · by_cases heq : other = who
    · subst heq
      simp [ByteNetwork.broadcast]
    · simp [ByteNetwork.broadcast, Function.update_of_ne heq]
  · have hpos := List.length_pos_of_ne_nil hchan
    simp only [ByteNetwork.broadcast, Function.update_self, List.length_tail]
    omega

theorem wireRank_proceed_lt {wire : Wire} (hlower : wire.rank < (network.wire source target).rank) :
    (network.proceed source target wire).wireRank < network.wireRank := by
  have hwire : ∀ i j, ((network.proceed source target wire).wire i j).rank ≤
      (network.wire i j).rank := by
    intro i j
    by_cases hi : i = source
    · subst hi
      by_cases hj : j = target
      · subst hj
        simpa [ByteNetwork.proceed] using hlower.le
      · simp [ByteNetwork.proceed, Function.update_of_ne hj]
    · simp [ByteNetwork.proceed, Function.update_of_ne hi]
  refine Finset.sum_lt_sum (fun i _ => Finset.sum_le_sum fun j _ => hwire i j)
    ⟨source, Finset.mem_univ source, ?_⟩
  refine Finset.sum_lt_sum (fun j _ => hwire source j) ⟨target, Finset.mem_univ target, ?_⟩
  simpa [ByteNetwork.proceed] using hlower

/-- A network without payloads, broadcasts and bytes has no transfer left. -/
theorem next_eq_none_of_empty (hcontrol : ∀ who, network.controlChan who = [])
    (hchan : ∀ who, network.newMsgChan who = [])
    (hwire : ∀ source target, (network.wire source target).connection.writeQueue = [] ∧
      (network.wire source target).connection.written.length ≤
        (network.wire source target).arrived ∧
      (network.wire source target).next .read = none)
    {event : Event n requests} (htransfer : event.isTransfer = true) :
    network.next serialize deserialize C build geneLoop links event = none := by
  cases event with
  | act who action => cases htransfer
  | handle who => simp only [ByteNetwork.next, hchan]
  | dispatch who => simp only [ByteNetwork.next, hcontrol]
  | task source target event =>
      obtain ⟨hqueue, harrived, hread⟩ := hwire source target
      cases event with
      | write => simp [ByteNetwork.next, Wire.next, Connection.write, hqueue]
      | receive bytes =>
          have hnone : ¬ (0 < bytes ∧ (network.wire source target).arrived + bytes ≤
              (network.wire source target).connection.written.length) := by omega
          simp only [ByteNetwork.next, Wire.next, if_neg hnone, Option.map_none]
      | read => simp [ByteNetwork.next, hread]
      | _ => cases htransfer

/-- A worker that cannot go on has no message in front of it. -/
theorem Simulates.newMsgChan_eq_nil (h : Simulates serialize links network abstract)
    (hprogress : ∀ source target i, i < (abstract.channel source target).length →
      (abstract.next (nodeProtocol C build geneLoop links) (.deliver source target i)).isSome =
        true)
    (hencodes : network.Encodes serialize deserialize) {who : Fin n}
    (hstuck : network.next serialize deserialize C build geneLoop links (.handle who) = none) :
    network.newMsgChan who = [] := by
  by_contra hne
  obtain ⟨⟨payload, source⟩, later, hcons⟩ := List.exists_cons_of_ne_nil hne
  obtain ⟨i, message, hi, hdecode, _⟩ := h.takePayload hencodes hcons
  obtain ⟨following, hdeliver⟩ := Option.isSome_iff_exists.mp
    (hprogress source who i (List.getElem?_eq_some_iff.mp hi).1)
  obtain ⟨message', node, sent, hi', hhandle, _⟩ := Network.next_deliver.mp hdeliver
  obtain rfl := Option.some.inj (hi.symm.trans hi')
  have hround := (nodeTurn_eq_some.mp hhandle).1
  rw [h.state] at hround
  have hhandled : network.next serialize deserialize C build geneLoop links (.handle who) =
      some _ :=
    handle_eq_some.mpr ⟨payload, source, later, message, node, hcons, hdecode, hround, rfl⟩
  cases hhandled.symm.trans hstuck

/-- When no transfer is left and all connections work, no message is on its way. -/
theorem Simulates.quiet (h : Simulates serialize links network abstract)
    (hprogress : ∀ source target i, i < (abstract.channel source target).length →
      (abstract.next (nodeProtocol C build geneLoop links) (.deliver source target i)).isSome =
        true)
    (hencodes : network.Encodes serialize deserialize)
    (hwriters : ∀ source target, (network.wire source target).connection.writer = .running)
    (hstuck : ∀ event, event.isTransfer = true →
      network.next serialize deserialize C build geneLoop links event = none) :
    abstract.Quiet := by
  have hcontrol : ∀ who, network.controlChan who = [] := by
    intro who
    by_contra hne
    obtain ⟨message, later, hchan⟩ := List.exists_cons_of_ne_nil hne
    cases (dispatch_eq_some.mpr ⟨message, later, hchan, rfl⟩).symm.trans
      (hstuck (.dispatch who) rfl)
  have hchan : ∀ who, network.newMsgChan who = [] := fun who =>
    h.newMsgChan_eq_nil hprogress hencodes (hstuck (.handle who) rfl)
  intro source target
  obtain ⟨taken, left, hcarries, hperm⟩ := h.carries source target
  have hwire : ∀ event, event.isTransfer = true →
      (network.wire source target).next event = none := by
    intro event htransfer
    have htask := hstuck (.task source target event) htransfer
    cases event with
    | read =>
        simp only [ByteNetwork.next, hchan, List.length_nil] at htask
        rw [if_pos (by decide), Option.map_eq_none_iff] at htask
        exact htask
    | push buffer => cases htransfer
    | _ => exact Option.map_eq_none_iff.mp htask
  have hfits : ∀ newMsg ∈ (taken ++ left).map serialize, newMsg.length < 2 ^ 32 := by
    refine List.forall_mem_map.mpr fun message hmem => ?_
    obtain ⟨sent, hsent, rfl⟩ := List.mem_map.mp (hcarries.sent message hmem)
    exact (hencodes source sent hsent).2
  have hdelivered := hcarries.sound.delivered_of_stuck hfits (hwriters source target) hwire
  have hwaiting : network.waiting source target = [] := by
    rw [waiting, hchan, List.filterMap_nil]
  rw [hcarries.delivered, hwaiting, List.map_append, List.append_right_inj] at hdelivered
  obtain rfl := List.map_eq_nil_iff.mp hdelivered.symm
  rw [hcontrol, ite_self] at hperm
  exact hperm.eq_nil

/-- What lowers the rank of a settling network, with the broadcasts and the wires behind that of
the nodes. -/
abbrev Rank := (Nat × Nat) × Nat × Nat

/-- The network simulates one that settles and has this rank. -/
def Ranked (serialize : Message → List UInt8) (geneLoop : Fin n → GeneLoop) (links : Links n)
    (icoKey : Ed25519KeyPair) (mining : Mining C n) (start : NodeNetwork n requests)
    (network : ByteNetwork n requests) (rank : Rank) : Prop :=
  ∃ abstract, Settling geneLoop links icoKey mining start abstract ∧
    Simulates serialize links network abstract ∧
    rank = ((NodeNetwork.missing (NodeNetwork.stored start) abstract,
      abstract.weight (messageWeight n C icoKey mining.all)),
      network.broadcasts, network.wireRank)

/-- Every transfer lowers it. -/
theorem Ranked.transfer {rank : Rank}
    (h : Ranked serialize geneLoop links icoKey mining start network rank)
    (hencodes : network.Encodes serialize deserialize) {event : Event n requests}
    (htransfer : event.isTransfer = true)
    (hnext : network.next serialize deserialize C .release geneLoop links event = some following) :
    ∃ rank', Ranked serialize geneLoop links icoKey mining start following rank' ∧
      Prod.Lex (Prod.Lex (· < ·) (· < ·)) (Prod.Lex (· < ·) (· < ·)) rank' rank := by
  obtain ⟨abstract, hsettling, hsimulates, rfl⟩ := h
  cases event with
  | act who action => cases htransfer
  | handle who =>
      obtain ⟨source, i, abstract', hdeliver, hsimulates'⟩ := hsimulates.handle hencodes hnext
      obtain ⟨hsettling', hlower⟩ := hsettling.step hdeliver
      exact ⟨_, ⟨abstract', hsettling', hsimulates', rfl⟩, .left _ _ hlower⟩
  | dispatch who =>
      have hsimulates' := hsimulates.dispatch hnext
      obtain ⟨message, later, hchan, rfl⟩ := dispatch_eq_some.mp hnext
      refine ⟨_, ⟨abstract, hsettling, hsimulates', rfl⟩, .right _ (.left _ _ ?_)⟩
      exact broadcasts_broadcast_lt (hchan ▸ List.cons_ne_nil _ _)
  | task source target event =>
      have hsimulates' := hsimulates.task hencodes hnext
      obtain ⟨_, wire, hwire, rfl⟩ := task_eq_some hnext
      obtain ⟨_, _, hcarries, _⟩ := hsimulates.carries source target
      have hlower := Wire.rank_transfer hcarries.sound.arrived htransfer hwire
      exact ⟨_, ⟨abstract, hsettling, hsimulates', rfl⟩,
        .right _ (.right _ (wireRank_proceed_lt hlower))⟩

end ByteNetwork

/-- The bytes of a network come to rest: its transfers do not go on for ever, in whatever order and
pieces they are made, and when none is left although all connections work, then no worker has failed
or holds a block back, and connected nodes agree. -/
theorem byteNetwork_settles (n requests : Nat) (serialize : Message → List UInt8)
    (deserialize : List UInt8 → Option Message) (C : Crypto) (geneLoop : Fin n → GeneLoop)
    (links : Links n) (icoKey : Ed25519KeyPair) (addrs : Fin n → SocketAddr) (mining : Mining C n)
    (network : ByteNetwork n requests)
    (hreach : network.Reachable serialize deserialize C .release geneLoop links icoKey addrs
      mining.Allows)
    (hencodes : network.Encodes serialize deserialize) :
    (∀ run : Nat → ByteNetwork n requests, run 0 = network →
      ¬ ∀ i, (run i).Encodes serialize deserialize ∧ ∃ event, event.isTransfer = true ∧
        (run i).next serialize deserialize C .release geneLoop links event = some (run (i + 1))) ∧
    ((∀ source target, (network.wire source target).connection.writer = .running) →
      (∀ event, event.isTransfer = true →
        network.next serialize deserialize C .release geneLoop links event = none) →
      ∀ who other, Relation.ReflTransGen (fun i j => links.linked i j = true) who other →
        (network.state who).threads (.network 0) = .ok (.network []) ∧
        Agree (network.state who).shared (network.state other).shared) := by
  obtain ⟨abstract, habstract, hsimulates⟩ := hreach.exists_simulates
  have hsettling : Settling geneLoop links icoKey mining abstract abstract :=
    ⟨networkInvariant_of_reachable habstract,
      Relation.ReflTransGen.mono (fun _ _ ⟨event, _, hnext⟩ => ⟨event, trivial, hnext⟩) _ _
        habstract, fun _ _ => id, subset_rfl⟩
  refine ⟨fun run hrun hforever => ?_, fun hwriters hstuck who other hpath => ?_⟩
  · refine Transition.not_forever (WellFounded.prod_lex
        (WellFounded.prod_lex Nat.lt_wfRel.wf Nat.lt_wfRel.wf)
        (WellFounded.prod_lex Nat.lt_wfRel.wf Nat.lt_wfRel.wf))
      (fun network following => network.Encodes serialize deserialize ∧ ∃ event,
        event.isTransfer = true ∧
          network.next serialize deserialize C .release geneLoop links event = some following)
      (Ranked serialize geneLoop links icoKey mining abstract) ?_ run ⟨abstract, hsettling, ?_, rfl⟩
      hforever
    · rintro network following rank hranked ⟨hencodes, event, htransfer, hnext⟩
      exact hranked.transfer hencodes htransfer hnext
    · exact hrun ▸ hsimulates
  · have hquiet := hsimulates.quiet (fun _ _ _ => hsettling.progress) hencodes hwriters hstuck
    rw [← hsimulates.state]
    refine ⟨?_, hsettling.invariant.agree_of_quiet hquiet hpath⟩
    rw [← hsettling.invariant.orphans_eq_nil hquiet]
    exact (hsettling.invariant.participates who).worker

/-- The second node stores the block and announces it to the first one. -/
def announcementTransfers : List (ByteNetwork.Event 2 1) :=
  [.task 0 1 (.receive 40), .task 0 1 .read, .handle 1, .dispatch 1, .task 1 0 .write,
    .task 1 0 (.receive 48), .task 1 0 .read, .handle 0]

theorem byteNetwork_settles_firstBlock : ∃ network : ByteNetwork 2 1,
    (network.state 1).shared.Holds (firstBlock.hash .sample) ∧
      Agree (network.state 0).shared (network.state 1).shared := by
  have hrun : (bytesRun (blockTransfers ++ announcementTransfers)).any (fun network =>
      decide ((network.state 1).shared.Holds (firstBlock.hash .sample) ∧
        network.Encodes sampleSerialize sampleDeserialize ∧
        (∀ who, network.controlChan who = []) ∧ (∀ who, network.newMsgChan who = []) ∧
        ∀ source target, (network.wire source target).connection.writer = .running ∧
          (network.wire source target).connection.writeQueue = [] ∧
          (network.wire source target).connection.written.length ≤
            (network.wire source target).arrived ∧
          (network.wire source target).next .read = none)) = true := by
    decide +kernel
  obtain ⟨network, hreach, hcheck⟩ := exists_bytesReachable hrun
  obtain ⟨hholds, hencodes, hcontrol, hchan, hwire⟩ := of_decide_eq_true hcheck
  obtain ⟨_, hrest⟩ := byteNetwork_settles 2 1 sampleSerialize sampleDeserialize .sample
    (fun _ => sampleGeneLoop) pairLinks Crypto.sampleKey pairAddrs firstMining network hreach
    hencodes
  refine ⟨network, hholds, (hrest (fun source target => (hwire source target).1) ?_ 0 1
    (.single rfl)).2⟩
  exact fun _ => next_eq_none_of_empty hcontrol hchan fun source target => (hwire source target).2

end BitcoinClient
