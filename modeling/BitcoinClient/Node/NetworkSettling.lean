import BitcoinClient.Node.NetworkAgreement

/-! # Deliveries settle a network

When the nodes only handle messages, they come to rest in whatever order they do it: a
delivery stores a block that a node missed, or what it sends weighs less than what it took
from its connection. What any node stored in the beginning is then stored by all nodes that
are connected with it.
-/

namespace BitcoinClient

variable {n requests : Nat} {C : Crypto} {geneLoop : Fin n → GeneLoop} {links : Links n}
  {icoKey : Ed25519KeyPair} {mining : Mining C n} {start network following : NodeNetwork n requests}
  {who : Fin n} {known : Finset H256} {hash : H256}

namespace NodeNetwork

/-- How often one of the hashes is missing at a node. -/
def missing (known : Finset H256) (network : NodeNetwork n requests) : Nat :=
  ∑ who, (known.filter fun hash => ¬ (network.memory who).Holds hash).card

/-- The hashes that any node stores. -/
def stored (network : NodeNetwork n requests) : Finset H256 :=
  Finset.univ.biUnion fun who => (network.memory who).blockchain.value.blocks.keys

theorem mem_stored : hash ∈ network.stored ↔ ∃ who, (network.memory who).Holds hash := by
  simp only [stored, Finset.mem_biUnion, Finset.mem_univ, true_and, Finmap.mem_keys,
    Shared.Holds, HashMap.containsKey, HashMap.get, Finmap.lookup_isSome]

theorem filter_subset
    (hgrows : ∀ who hash, (network.memory who).Holds hash → (following.memory who).Holds hash)
    (who : Fin n) :
    (known.filter fun hash => ¬ (following.memory who).Holds hash) ⊆
      known.filter fun hash => ¬ (network.memory who).Holds hash := by
  intro hash hmem
  obtain ⟨hknown, hmissing⟩ := Finset.mem_filter.mp hmem
  exact Finset.mem_filter.mpr ⟨hknown, fun hholds => hmissing (hgrows who hash hholds)⟩

theorem missing_le
    (hgrows : ∀ who hash, (network.memory who).Holds hash → (following.memory who).Holds hash) :
    following.missing known ≤ network.missing known :=
  Finset.sum_le_sum fun who _ => Finset.card_le_card (filter_subset hgrows who)

/-- Fewer hashes are missing once a node stores another one. -/
theorem missing_lt
    (hgrows : ∀ who hash, (network.memory who).Holds hash → (following.memory who).Holds hash)
    (hknown : hash ∈ known) (hmissing : ¬ (network.memory who).Holds hash)
    (hholds : (following.memory who).Holds hash) :
    following.missing known < network.missing known := by
  apply Finset.sum_lt_sum
  · exact fun other _ => Finset.card_le_card (filter_subset hgrows other)
  · refine ⟨who, Finset.mem_univ who, Finset.card_lt_card ?_⟩
    refine Finset.ssubset_iff_of_subset (filter_subset hgrows who) |>.mpr ⟨hash, ?_, ?_⟩
    · exact Finset.mem_filter.mpr ⟨hknown, hmissing⟩
    · intro hmem
      exact (Finset.mem_filter.mp hmem).2 hholds

end NodeNetwork

/-! ## The weight of what is sent -/

/-- A reply reaches one node at most, and a broadcast all of them. -/
theorem toNode_weight_le (weight : Message → Nat) (sent : Sent) :
    ∑ target : Fin n, ((Sent.toNode (links.linked who target) target.val sent).elim 0 weight) ≤
      sent.weight n weight := by
  cases sent with
  | write peer reason reply =>
      by_cases hpeer : peer < n
      · rw [Finset.sum_eq_single_of_mem (⟨peer, hpeer⟩ : Fin n) (Finset.mem_univ _)]
        · simp [Sent.toNode, Sent.weight]
        · intro target _ hne
          have hother : peer ≠ target.val := fun heq => hne (Fin.ext heq.symm)
          simp [Sent.toNode, hother]
      · rw [Finset.sum_eq_zero]
        · exact Nat.zero_le _
        · intro target _
          have hother : peer ≠ target.val := fun heq => hpeer (heq ▸ target.isLt)
          simp [Sent.toNode, hother]
  | broadcast message =>
      calc ∑ target : Fin n,
            (Sent.toNode (links.linked who target) target.val (.broadcast message)).elim 0 weight
          ≤ ∑ _target : Fin n, weight message := by
            refine Finset.sum_le_sum fun target _ => ?_
            cases hlinked : links.linked who target <;> simp [Sent.toNode]
        _ = n * weight message := by simp

theorem sentWeight_route_le (weight : Message → Nat) (new : List Sent) :
    Network.sentWeight weight (links.route who new) ≤ (new.map (Sent.weight n weight)).sum := by
  induction new with
  | nil => simp [Network.sentWeight, Links.route]
  | cons sent rest ih =>
      have hcons : ∀ target, ((links.route who (sent :: rest) target).map weight).sum =
          (Sent.toNode (links.linked who target) target.val sent).elim 0 weight +
            ((links.route who rest target).map weight).sum := by
        intro target
        unfold Links.route
        rw [List.filterMap_cons]
        cases Sent.toNode (links.linked who target) target.val sent <;> simp
      simp only [Network.sentWeight, hcons, Finset.sum_add_distrib, List.map_cons, List.sum_cons]
      exact Nat.add_le_add (toNode_weight_le weight sent) ih

/-! ## Deliveries -/

section Turn

variable {taken : NodeNetwork n requests} {incoming : Option (PeerId × Message)}
  {fresh : List Block} {next : IdleNode 1 requests} {new : List Sent}
  (h : TurnOf links icoKey mining network taken who incoming fresh next new following)

include h

/-- When no block is new to the network, a turn only copies blocks from node to node. -/
theorem TurnOf.stored_subset
    (hfresh : ∀ block ∈ fresh, ∃ other, (network.memory other).Holds (block.hash C)) :
    NodeNetwork.stored following ⊆ NodeNetwork.stored network := by
  intro hash hmem
  obtain ⟨other, hholds⟩ := NodeNetwork.mem_stored.mp hmem
  apply NodeNetwork.mem_stored.mpr
  by_cases heq : other = who
  · subst heq
    rw [NodeNetwork.memory, h.state_self] at hholds
    rcases h.turn.gains hash hholds with hbefore | ⟨block, hblock, rfl⟩
    · exact ⟨other, hbefore⟩
    · exact hfresh block hblock
  · rw [NodeNetwork.memory, h.state_of_ne heq] at hholds
    exact ⟨other, hholds⟩

end Turn

/-- What deliveries keep of a network. -/
structure Settling (geneLoop : Fin n → GeneLoop) (links : Links n) (icoKey : Ed25519KeyPair)
    (mining : Mining C n) (start network : NodeNetwork n requests) : Prop where
  invariant : NetworkInvariant links icoKey mining network
  reachable : NodeNetwork.ReachableBy C .release geneLoop links (fun _ _ => True) icoKey network
  grows : ∀ who hash, (start.memory who).Holds hash → (network.memory who).Holds hash
  stored : NodeNetwork.stored network ⊆ NodeNetwork.stored start

namespace Settling

variable {source target : Fin n} {i : Nat}
  (h : Settling geneLoop links icoKey mining start network)

include h

theorem chain (who : Fin n) : ChainInvariant C (fun _ => True) (network.memory who) :=
  (node_keeps h.reachable who).1

theorem mempool (who : Fin n) : (network.memory who).mempool.poisoned = false :=
  (node_keeps h.reachable who).2

/-- Every message can be delivered. -/
theorem progress (hi : i < (network.channel source target).length) :
    (network.next (nodeProtocol C .release geneLoop links) (.deliver source target i)).isSome =
      true := by
  obtain ⟨next, new, hnext, _⟩ :=
    h.invariant.deliver geneLoop h.chain h.mempool (List.getElem?_eq_getElem hi)
  rw [hnext]
  rfl

/-- A delivery stores a missing block, or the messages weigh less after it. -/
theorem step (hnext : network.next (nodeProtocol C .release geneLoop links)
      (.deliver source target i) = some following) :
    Settling geneLoop links icoKey mining start following ∧
      Prod.Lex (· < ·) (· < ·)
        (NodeNetwork.missing (NodeNetwork.stored start) following,
          following.weight (messageWeight n C icoKey mining.all))
        (NodeNetwork.missing (NodeNetwork.stored start) network,
          network.weight (messageWeight n C icoKey mining.all)) := by
  obtain ⟨message, _, _, hmessage, _, _⟩ := Network.next_deliver.mp hnext
  obtain ⟨next, new, hnext', hparticipates, hturn, hlighter⟩ :=
    h.invariant.deliver geneLoop h.chain h.mempool hmessage
  obtain heq := Option.some.inj (hnext'.symm.trans hnext)
  rw [heq] at hturn
  have hreceived := h.invariant.received_stored (List.mem_of_getElem? hmessage)
  have hstored := (hturn.stored_subset hreceived).trans h.stored
  refine ⟨⟨hturn.invariant h.invariant hparticipates h.chain, ?_, ?_, hstored⟩, ?_⟩
  · exact h.reachable.tail ⟨.deliver source target i, trivial, hnext⟩
  · exact fun who hash hholds => hturn.grows who hash (h.grows who hash hholds)
  apply Prod.lex_def.mpr
  by_cases hsame : ∀ hash, next.shared.Holds hash → (network.memory target).Holds hash
  · -- Nothing is stored.
    have hweight : following.weight (messageWeight n C icoKey mining.all) <
        network.weight (messageWeight n C icoKey mining.all) := by
      rw [← heq, Network.weight_put, ← Network.weight_take hmessage]
      exact Nat.add_lt_add_left (Nat.lt_of_le_of_lt (sentWeight_route_le _ new) (hlighter hsame)) _
    exact (Nat.lt_or_eq_of_le (NodeNetwork.missing_le hturn.grows)).imp_right fun hmissing =>
      ⟨hmissing, hweight⟩
  · obtain ⟨hash, hnew⟩ := not_forall.mp hsame
    obtain ⟨hholds, hmissing⟩ := Classical.not_imp.mp hnew
    have hholds' : (NodeNetwork.memory following target).Holds hash := by
      rw [NodeNetwork.memory, hturn.state_self]
      exact hholds
    refine Or.inl (NodeNetwork.missing_lt hturn.grows (hstored ?_) hmissing hholds')
    exact NodeNetwork.mem_stored.mpr ⟨target, hholds'⟩

end Settling

/-- Deliveries bring a network to rest in whatever order they are made: no worker fails, finitely
many messages are delivered, and then nothing is held back, connected nodes agree, and what one
of them stored in the beginning is stored by all. -/
theorem network_settles (C : Crypto) (n requests : Nat) (geneLoop : Fin n → GeneLoop)
    (links : Links n) (icoKey : Ed25519KeyPair) (mining : Mining C n)
    (network : NodeNetwork n requests)
    (hreach : network.Reachable .release geneLoop links icoKey mining) :
    network.Settles (nodeProtocol C .release geneLoop links) fun final =>
      ∀ who other, Relation.ReflTransGen (fun i j => links.linked i j = true) who other →
        (final.state who).threads (.network 0) = .ok (.network []) ∧
        Agree (NodeNetwork.memory final who) (NodeNetwork.memory final other) ∧
        ∀ hash, (network.memory who).Holds hash → (NodeNetwork.memory final other).Holds hash := by
  have hstart : Settling geneLoop links icoKey mining network network :=
    ⟨networkInvariant_of_reachable hreach,
      Relation.ReflTransGen.mono (fun _ _ ⟨event, _, hnext⟩ => ⟨event, trivial, hnext⟩) _ _ hreach,
      fun _ _ => id, subset_rfl⟩
  refine Network.settles_of_rank
    (WellFounded.prod_lex Nat.lt_wfRel.wf Nat.lt_wfRel.wf)
    (fun current => (NodeNetwork.missing (NodeNetwork.stored network) current,
      current.weight (messageWeight n C icoKey mining.all)))
    (fun _ _ _ _ _ h hnext => h.step hnext) (fun _ _ _ _ h hi => h.progress hi)
    (fun final h hquiet who other hpath => ⟨?_, ?_, fun hash hholds => ?_⟩) hstart
  · rw [← h.invariant.orphans_eq_nil hquiet]
    exact (h.invariant.participates who).worker
  · exact h.invariant.agree_of_quiet hquiet hpath
  · exact h.invariant.holds_of_path hquiet hpath (h.grows who hash hholds)

/-- The announcement of a block is on its way, and the network settles from there. -/
theorem network_settles_firstBlock : ∃ network : NodeNetwork 2 1, network.channel 0 1 ≠ [] ∧
    network.Settles (nodeProtocol .sample .release (fun _ => sampleGeneLoop) pairLinks) fun final =>
      (NodeNetwork.memory final 1).Holds (firstBlock.hash .sample) := by
  have hrun : (pairRun []).any (fun network =>
      decide ((network.memory 0).Holds (firstBlock.hash .sample)) &&
        !(network.channel 0 1).isEmpty) = true := by
    decide +kernel
  obtain ⟨network, hreach, hcheck⟩ := exists_pairReachable hrun
  obtain ⟨hholds, hmoving⟩ := Bool.and_eq_true_iff.mp hcheck
  have hsettles := network_settles .sample 2 1 (fun _ => sampleGeneLoop) pairLinks
    Crypto.sampleKey firstMining network hreach
  refine ⟨network, by simpa using hmoving, hsettles.bounded, hsettles.progress, ?_⟩
  intro channels final hfinal hquiet
  exact (hsettles.goal channels final hfinal hquiet 0 1 (.single rfl)).2.2 _
    (of_decide_eq_true hholds)

end BitcoinClient
