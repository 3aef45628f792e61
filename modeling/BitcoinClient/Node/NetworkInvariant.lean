import BitcoinClient.Node.NetworkTurns
import BitcoinClient.Node.Orphans

/-! # What a network of nodes keeps

A hash that a node stores is stored by each of its neighbours, or it arrives there: it is
announced to the neighbour, asked for by it or on the way to it, or it belongs to a block that
waits for such a hash. Every turn of every node keeps this.
-/

namespace BitcoinClient

section Definitions

variable {n requests : Nat} {C : Crypto} (links : Links n) (icoKey : Ed25519KeyPair)
  (mining : Mining C n) (network : NodeNetwork n requests)

namespace NodeNetwork

/-- The memory of a node. -/
abbrev memory (who : Fin n) : Shared := (network.state who).shared

/-- The blocks that the worker of a node holds back. -/
abbrev orphans (who : Fin n) : List Block := IdleNode.orphanBlocks (network.state who) (.network 0)

/-- The hash is on its way to a node. -/
inductive InTransit (C : Crypto) (who : Fin n) (hash : H256) : Prop
  | announced {source : Fin n} {hashes : List H256} :
      .newBlockHashes hashes ∈ network.channel source who → hash ∈ hashes → InTransit C who hash
  | requested {target : Fin n} {hashes : List H256} :
      .getBlocks hashes ∈ network.channel who target → hash ∈ hashes → InTransit C who hash
  | delivered {source : Fin n} {blocks : List Block} {block : Block} :
      .blocks blocks ∈ network.channel source who → block ∈ blocks → block.hash C = hash →
      InTransit C who hash

/-- A block with the first hash is held back until one with the second hash is stored. -/
def Waits (C : Crypto) (who : Fin n) (hash before : H256) : Prop :=
  ∃ block ∈ network.orphans who, block.hash C = hash ∧ block.head.parent = before

abbrev Arrives (C : Crypto) (who : Fin n) : H256 → Prop :=
  Network.Arriving (network.InTransit C who) (network.Waits C who)

/-- The node stores the hash or will. -/
def Gets (C : Crypto) (who : Fin n) (hash : H256) : Prop :=
  (network.memory who).Holds hash ∨ network.Arrives C who hash

end NodeNetwork

/-- No thread of the node has stopped with a panic. -/
def IdleNode.Running (node : IdleNode 1 requests) : Prop :=
  ∀ thread, ∃ task, node.threads thread = .ok task

structure NetworkInvariant : Prop where
  running : ∀ who, IdleNode.Running (network.state who)
  participates : ∀ who, Participates C icoKey mining.all (network.orphans who) (network.state who)
  justified : ∀ source target, ∀ message ∈ network.channel source target,
    message.Justified C icoKey mining.all (network.memory source) (network.memory target)
  /-- What is held back is stored somewhere. -/
  found : ∀ who, ∀ block ∈ network.orphans who, ∃ other, (network.memory other).Holds (block.hash C)
  /-- What is stored somewhere is stored by the node that mined it. -/
  origin : ∀ who, ∀ block ∈ mining.blocks who, ∀ other,
    (network.memory other).Holds (block.hash C) → (network.memory who).Holds (block.hash C)
  awaited : ∀ who, ∀ block ∈ network.orphans who, network.Arrives C who block.head.parent
  reaches : ∀ source target, links.linked source target = true → ∀ hash,
    (network.memory source).Holds hash → network.Gets C target hash

end Definitions

variable {n requests : Nat} {C : Crypto} {geneLoop : Fin n → GeneLoop} {links : Links n}
  {icoKey : Ed25519KeyPair} {mining : Mining C n} {network taken following : NodeNetwork n requests}
  {who : Fin n}

/-! ## Messages -/

theorem mem_route {new : List Sent} {target : Fin n} {message : Message} :
    message ∈ links.route who new target ↔
      (∃ reason, .write target.val reason message ∈ new) ∨
        (.broadcast message ∈ new ∧ links.linked who target = true) := by
  unfold Links.route
  rw [List.mem_filterMap]
  constructor
  · rintro ⟨sent, hmem, htarget⟩
    cases sent with
    | write peer reason reply =>
        obtain ⟨rfl, rfl⟩ : peer = target.val ∧ reply = message := by
          simpa [Sent.toNode] using htarget
        exact Or.inl ⟨reason, hmem⟩
    | broadcast sent =>
        obtain ⟨hlinked, rfl⟩ : links.linked who target = true ∧ sent = message := by
          simpa [Sent.toNode] using htarget
        exact Or.inr ⟨hmem, hlinked⟩
  · rintro (⟨reason, hmem⟩ | ⟨hmem, hlinked⟩)
    · exact ⟨_, hmem, by simp [Sent.toNode]⟩
    · exact ⟨_, hmem, by simp [Sent.toNode, hlinked]⟩

/-- What is said of a source and a target stays true. -/
theorem Message.Justified.mono {mined : Set Block} {source source' target target' : Shared}
    {message : Message} (h : message.Justified C icoKey mined source target)
    (hsource : ∀ hash, source.Holds hash → source'.Holds hash)
    (htarget : ∀ hash, target.Holds hash → target'.Holds hash) :
    message.Justified C icoKey mined source' target' := by
  cases message with
  | newBlockHashes hashes => exact fun hash hmem => hsource hash (h hash hmem)
  | getBlocks hashes => exact fun hash hmem => (h hash hmem).imp_left (htarget hash)
  | blocks received => exact fun block hmem => (h block hmem).imp_right (hsource _)
  | _ => trivial

/-! ## One turn -/

/-- A turn of the node `who` leads from one network to another. `taken` is the network without
the message that the node handles. -/
structure TurnOf (links : Links n) (icoKey : Ed25519KeyPair) (mining : Mining C n)
    (network taken : NodeNetwork n requests) (who : Fin n) (incoming : Option (PeerId × Message))
    (fresh : List Block) (next : IdleNode 1 requests) (new : List Sent)
    (following : NodeNetwork n requests) : Prop where
  result : following = taken.put who next (links.route who new)
  state : taken.state = network.state
  running : IdleNode.Running (network.state who) → IdleNode.Running next
  /-- Only the message is taken. -/
  gone : ∀ source target message, message ∈ network.channel source target →
    message ∈ taken.channel source target ∨ (target = who ∧ incoming = some (source.val, message))
  remains : ∀ source target message, message ∈ taken.channel source target →
    message ∈ network.channel source target
  sender : ∀ peer message, incoming = some (peer, message) →
    ∃ source : Fin n, peer = source.val ∧ message ∈ network.channel source who
  turn : Turn C icoKey mining.all incoming fresh (network.orphans who)
    (IdleNode.orphanBlocks next (.network 0)) (network.memory who) next.shared new
  stores : ∀ block ∈ fresh, (∃ other, (network.memory other).Holds (block.hash C)) ∨
    block ∈ mining.blocks who
  holds : ∀ block ∈ IdleNode.orphanBlocks next (.network 0), block ∈ network.orphans who ∨
    ∃ other, (network.memory other).Holds (block.hash C)

namespace TurnOf

variable {incoming : Option (PeerId × Message)} {fresh : List Block} {next : IdleNode 1 requests}
  {new : List Sent}
  (h : TurnOf links icoKey mining network taken who incoming fresh next new following)

include h

theorem state_self : following.state who = next := by
  rw [h.result, Network.put_state_self]

theorem state_of_ne {other : Fin n} (hne : other ≠ who) :
    following.state other = network.state other := by
  rw [h.result, Network.put_state_of_ne hne, h.state]

theorem still_running (hrunning : ∀ who, IdleNode.Running (network.state who)) (other : Fin n) :
    IdleNode.Running (following.state other) := by
  by_cases heq : other = who
  · subst heq
    rw [h.state_self]
    exact h.running (hrunning other)
  · rw [h.state_of_ne heq]
    exact hrunning other

theorem grows (other : Fin n) (hash : H256) (hholds : (network.memory other).Holds hash) :
    (following.memory other).Holds hash := by
  unfold NodeNetwork.memory at hholds ⊢
  by_cases heq : other = who
  · subst heq
    rw [h.state_self]
    exact h.turn.grows hash hholds
  · rw [h.state_of_ne heq]
    exact hholds

theorem mem_channel {source target : Fin n} {message : Message} :
    message ∈ following.channel source target ↔ message ∈ taken.channel source target ∨
      (source = who ∧ message ∈ links.route who new target) := by
  rw [h.result, Network.mem_put]

/-- What is written to the sender of the message is on its way. -/
theorem mem_of_write {target : Fin n} {reason message : Message}
    (hmem : .write target.val reason message ∈ new) : message ∈ following.channel who target :=
  h.mem_channel.mpr (Or.inr ⟨rfl, mem_route.mpr (Or.inl ⟨reason, hmem⟩)⟩)

/-- A request for the parent of a block is on its way. -/
theorem requested {block : Block} {peer : PeerId} {reason : Message}
    (hmem : .write peer reason (.getBlocks [block.head.parent]) ∈ new) :
    following.InTransit C who block.head.parent := by
  obtain ⟨message, hincoming, _⟩ := h.turn.sound _ hmem
  obtain ⟨source, rfl, _⟩ := h.sender _ _ hincoming
  exact .requested (h.mem_of_write hmem) (List.mem_singleton_self _)

/-- What was in transit is stored or still arrives. -/
theorem gets_of_inTransit {target : Fin n} {hash : H256}
    (htransit : network.InTransit C target hash) : following.Gets C target hash := by
  cases htransit with
  | @announced source hashes hmem hhash =>
      rcases h.gone _ _ _ hmem with hremains | ⟨rfl, hincoming⟩
      · exact Or.inr (.transit (.announced (h.mem_channel.mpr (Or.inl hremains)) hhash))
      · rcases h.turn.served _ _ hincoming hash hhash with hholds | ⟨asked, hasked, hmem⟩
        · exact Or.inl (h.grows _ _ hholds)
        · exact Or.inr (.transit (.requested (h.mem_of_write hasked) hmem))
  | @requested target' hashes hmem hhash =>
      rcases h.gone _ _ _ hmem with hremains | ⟨rfl, hincoming⟩
      · exact Or.inr (.transit (.requested (h.mem_channel.mpr (Or.inl hremains)) hhash))
      · obtain ⟨blocks, hanswer, hfound⟩ := h.turn.served _ _ hincoming
        obtain ⟨block, hblock, heq⟩ := hfound hash hhash
        exact Or.inr (.transit (.delivered (h.mem_of_write hanswer) hblock heq))
  | @delivered source blocks block hmem hblock heq =>
      rcases h.gone _ _ _ hmem with hremains | ⟨rfl, hincoming⟩
      · exact Or.inr (.transit (.delivered (h.mem_channel.mpr (Or.inl hremains)) hblock heq))
      · rcases h.turn.served _ _ hincoming block hblock with hholds | ⟨horphan, hasked⟩
        · refine Or.inl ?_
          rw [← heq, NodeNetwork.memory, h.state_self]
          exact hholds
        · -- It waits for its parent, which the node asks for.
          refine Or.inr (.waits ⟨block, ?_, heq, rfl⟩ (.transit (h.requested hasked)))
          rw [NodeNetwork.orphans, h.state_self]
          exact horphan

variable (hinv : NetworkInvariant links icoKey mining network)

include hinv

/-- The block that a node stores first was stored before by another one, or the node mined it. -/
theorem origin {owner : Fin n} {block : Block} (hblock : block ∈ mining.blocks owner)
    {other : Fin n} (hholds : (following.memory other).Holds (block.hash C)) :
    (following.memory owner).Holds (block.hash C) := by
  by_cases heq : other = who
  · subst heq
    rw [NodeNetwork.memory, h.state_self] at hholds
    rcases h.turn.gains _ hholds with hbefore | ⟨fresh, hmem, hhash⟩
    · exact h.grows _ _ (hinv.origin owner block hblock other hbefore)
    · rcases h.stores fresh hmem with ⟨elsewhere, hstored⟩ | hmined
      · exact h.grows _ _ (hinv.origin owner block hblock elsewhere (hhash ▸ hstored))
      · obtain ⟨_, rfl⟩ := mining.distinct fresh hmined block hblock hhash
        rw [NodeNetwork.memory, h.state_self]
        exact hholds
  · rw [NodeNetwork.memory, h.state_of_ne heq] at hholds
    exact h.grows _ _ (hinv.origin owner block hblock other hholds)

theorem justified (hchain : ∀ other, ChainInvariant C (fun _ => True) (network.memory other))
    {source target : Fin n} {message : Message} (hmem : message ∈ following.channel source target) :
    message.Justified C icoKey mining.all (following.memory source) (following.memory target) := by
  rcases h.mem_channel.mp hmem with hremains | ⟨rfl, hroute⟩
  · exact (hinv.justified _ _ _ (h.remains _ _ _ hremains)).mono (h.grows source) (h.grows target)
  rcases mem_route.mp hroute with ⟨reason, hsent⟩ | ⟨hsent, _⟩
  · have hsound := h.turn.sound _ hsent
    cases message with
    | newBlockHashes hashes => cases hsound
    | getBlocks hashes =>
        obtain ⟨message, hincoming, hasks⟩ := hsound
        obtain ⟨sender, hpeer, hmessage⟩ := h.sender _ _ hincoming
        obtain rfl := Fin.ext hpeer
        intro hash hhash
        obtain ⟨hask, hmissing⟩ := hasks hash hhash
        refine ⟨h.grows _ _ ?_, ?_⟩
        · have hsaid := hinv.justified _ _ _ hmessage
          cases message with
          | newBlockHashes announced => exact hsaid hash hask
          | blocks received =>
              -- The sender stores the block, and the parent with it.
              obtain ⟨block, hblock, rfl⟩ := hask
              obtain ⟨hoffered, hholds⟩ := hsaid block hblock
              exact (hinv.participates target).parent (hchain target) mining.hashesDistinct
                hoffered.mem hholds
          | _ => cases hask
        · rintro rfl
          exact hmissing (hinv.participates source).genesis
    | blocks received =>
        intro block hblock
        rw [NodeNetwork.memory, h.state_self]
        exact hsound block hblock
    | _ => trivial
  · have hsound := h.turn.sound _ hsent
    cases message with
    | newBlockHashes hashes =>
        intro hash hhash
        rw [NodeNetwork.memory, h.state_self]
        exact hsound hash hhash
    | getBlocks hashes => cases hsound
    | blocks received => cases hsound
    | _ => trivial

variable (hnext : Participates C icoKey mining.all (IdleNode.orphanBlocks next (.network 0)) next)

include hnext

theorem participates (other : Fin n) :
    Participates C icoKey mining.all (following.orphans other) (following.state other) := by
  unfold NodeNetwork.orphans
  by_cases heq : other = who
  · subst heq
    rw [h.state_self]
    exact hnext
  · rw [h.state_of_ne heq]
    exact hinv.participates other

/-- The parent of a block that is held back is not stored, so that it arrives. -/
theorem arrives_of_gets {other : Fin n} {block : Block} (hmem : block ∈ following.orphans other)
    (hgets : following.Gets C other block.head.parent) :
    following.Arrives C other block.head.parent := by
  refine hgets.resolve_left fun hholds => ?_
  have hmissing := (h.participates hinv hnext other).loop.parent_missing hmem
  exact Bool.noConfusion (hmissing.symm.trans hholds)

/-- What was arriving is stored or still arrives. -/
theorem gets_of_arrives {other : Fin n} {hash : H256} (harrives : network.Arrives C other hash) :
    following.Gets C other hash := by
  refine harrives.carry (fun _ => h.gets_of_inTransit) ?_
  rintro _ _ ⟨block, hmem, rfl, rfl⟩ hgets
  have hkept : block ∈ following.orphans other ∨
      (following.memory other).Holds (block.hash C) := by
    unfold NodeNetwork.orphans NodeNetwork.memory
    by_cases heq : other = who
    · subst heq
      rw [h.state_self]
      exact h.turn.released block hmem
    · rw [h.state_of_ne heq]
      exact Or.inl hmem
  rcases hkept with horphan | hholds
  · exact Or.inr (.waits ⟨block, horphan, rfl, rfl⟩ (h.arrives_of_gets hinv hnext horphan hgets))
  · exact Or.inl hholds

theorem awaited {other : Fin n} {block : Block} (hmem : block ∈ following.orphans other) :
    following.Arrives C other block.head.parent := by
  refine h.arrives_of_gets hinv hnext hmem ?_
  by_cases heq : other = who
  · subst heq
    rw [NodeNetwork.orphans, h.state_self] at hmem
    rcases h.turn.kept block hmem with hbefore | ⟨_, peer, reason, hasked⟩
    · exact h.gets_of_arrives hinv hnext (hinv.awaited other block hbefore)
    · exact Or.inr (.transit (h.requested hasked))
  · rw [NodeNetwork.orphans, h.state_of_ne heq] at hmem
    exact h.gets_of_arrives hinv hnext (hinv.awaited other block hmem)

theorem reaches {source target : Fin n} (hlinked : links.linked source target = true)
    {hash : H256} (hholds : (following.memory source).Holds hash) :
    following.Gets C target hash := by
  have hbefore : (network.memory source).Holds hash → following.Gets C target hash := by
    intro hstored
    rcases hinv.reaches source target hlinked hash hstored with hheld | harrives
    · exact Or.inl (h.grows _ _ hheld)
    · exact h.gets_of_arrives hinv hnext harrives
  by_cases heq : source = who
  · subst heq
    rw [NodeNetwork.memory, h.state_self] at hholds
    rcases h.turn.announced hash hholds with hstored | ⟨hashes, hsent, hhash⟩
    · exact hbefore hstored
    · -- A new block is announced to all neighbours.
      have hmem : .newBlockHashes hashes ∈ following.channel source target :=
        h.mem_channel.mpr (Or.inr ⟨rfl, mem_route.mpr (Or.inr ⟨hsent, hlinked⟩)⟩)
      exact Or.inr (.transit (.announced hmem hhash))
  · rw [NodeNetwork.memory, h.state_of_ne heq] at hholds
    exact hbefore hholds

/-- Every turn keeps the invariant. -/
theorem invariant (hchain : ∀ other, ChainInvariant C (fun _ => True) (network.memory other)) :
    NetworkInvariant links icoKey mining following where
  running := h.still_running hinv.running
  participates := h.participates hinv hnext
  justified _ _ _ := h.justified hinv hchain
  found other block hmem := by
    by_cases heq : other = who
    · subst heq
      rw [NodeNetwork.orphans, h.state_self] at hmem
      rcases h.holds block hmem with hbefore | ⟨elsewhere, hstored⟩
      · obtain ⟨elsewhere, hstored⟩ := hinv.found other block hbefore
        exact ⟨elsewhere, h.grows _ _ hstored⟩
      · exact ⟨elsewhere, h.grows _ _ hstored⟩
    · rw [NodeNetwork.orphans, h.state_of_ne heq] at hmem
      obtain ⟨elsewhere, hstored⟩ := hinv.found other block hmem
      exact ⟨elsewhere, h.grows _ _ hstored⟩
  origin _ _ hblock _ := h.origin hinv hblock
  awaited _ _ := h.awaited hinv hnext
  reaches _ _ hlinked _ := h.reaches hinv hnext hlinked

end TurnOf

/-! ## Deliveries and other turns -/

/-- The other threads go on as they are. -/
theorem running_of_round {geneLoop : GeneLoop} {node next : IdleNode 1 requests}
    {thread : ThreadId 1 requests} {choice : Choice}
    (hround : (nodeRounds C .release geneLoop).next node thread choice = some next)
    (hthread : ∃ task, next.threads thread = .ok task) (hrunning : IdleNode.Running node) :
    IdleNode.Running next := by
  intro other
  by_cases heq : other = thread
  · subst heq
    exact hthread
  · obtain ⟨_, _, _, _, houtcome⟩ := Program.round_wp hround
    obtain ⟨_, hthreads, _⟩ := houtcome Effect.wp_true
    rw [hthreads, Function.update_of_ne heq]
    exact hrunning other

theorem orphanBlocks_of_worker {orphanBlocks : List Block} {node : IdleNode 1 requests}
    (h : node.threads (.network 0) = .ok (.network orphanBlocks)) :
    IdleNode.orphanBlocks node (.network 0) = orphanBlocks := by
  rw [IdleNode.orphanBlocks, h]
  rfl

/-- The blocks that a delivery may store are stored somewhere. -/
theorem NetworkInvariant.received_stored (h : NetworkInvariant links icoKey mining network)
    {source target : Fin n} {message : Message} (hmem : message ∈ network.channel source target) :
    ∀ block ∈ network.orphans target ++ message.received,
      ∃ other, (network.memory other).Holds (block.hash C) := by
  refine List.forall_mem_append.mpr ⟨h.found target, fun block hblock => ⟨source, ?_⟩⟩
  have hjustified := h.justified source target message hmem
  cases message with
  | blocks received => exact (hjustified block hblock).2
  | _ => cases hblock

variable (geneLoop) in
/-- A message on its way can be delivered, and its delivery is a turn of its target. -/
theorem NetworkInvariant.deliver (h : NetworkInvariant links icoKey mining network)
    (hchain : ∀ other, ChainInvariant C (fun _ => True) (network.memory other))
    (hmempool : ∀ other, (network.memory other).mempool.poisoned = false)
    {source target : Fin n} {i : Nat} {message : Message}
    (hmessage : (network.channel source target)[i]? = some message) :
    ∃ next new, network.next (nodeProtocol C .release geneLoop links) (.deliver source target i) =
        some ((network.take source target i).put target next (links.route target new)) ∧
      Participates C icoKey mining.all (IdleNode.orphanBlocks next (.network 0)) next ∧
      TurnOf links icoKey mining network (network.take source target i) target
        (some (source.val, message)) (network.orphans target ++ message.received) next new
        ((network.take source target i).put target next (links.route target new)) ∧
      ((∀ hash, next.shared.Holds hash → (network.memory target).Holds hash) →
        turnWeight n C icoKey mining.all new < messageWeight n C icoKey mining.all message) := by
  have hmem : message ∈ network.channel source target := List.mem_of_getElem? hmessage
  have hjustified := h.justified source target message hmem
  obtain ⟨next, orphanBlocks', hnext, hparticipates, hhandled⟩ :=
    deliver_turn (geneLoop target) (h.participates target) (hchain target) (hmempool target)
      mining.hashesDistinct n source.val hjustified
  obtain ⟨new, hturn, hlighter⟩ := hhandled.turn
  obtain rfl := orphanBlocks_of_worker hparticipates.worker
  have hreceived := h.received_stored hmem
  refine ⟨next, new, ?_, hparticipates, ?_, hlighter⟩
  · refine Network.next_deliver.mpr ⟨message, next, _, hmessage, ?_, rfl⟩
    refine nodeTurn_eq_some.mpr ⟨hnext, ?_⟩
    rw [hturn.sent, List.drop_left]
  · refine ⟨rfl, rfl, running_of_round hnext ⟨_, hparticipates.worker⟩, fun i j other hother => ?_,
      fun i j other => Network.mem_of_mem_take, ?_, hturn,
      fun block hblock => Or.inl (hreceived block hblock), fun block hblock => ?_⟩
    · rcases Network.mem_take hmessage hother with hremains | ⟨rfl, rfl, rfl⟩
      · exact Or.inl hremains
      · exact Or.inr ⟨rfl, rfl⟩
    · rintro peer message' ⟨⟩
      exact ⟨source, rfl, hmem⟩
    · exact (hturn.kept block hblock).imp_right fun hnew => hreceived block hnew.1

/-- What another thread of a node does is a turn too. -/
theorem NetworkInvariant.act (h : NetworkInvariant links icoKey mining network)
    (hreach : network.Reachable .release geneLoop links icoKey mining)
    (hmines : network.MinesIn mining) {action : ThreadId 1 requests × Choice}
    (hnext : network.next (nodeProtocol C .release geneLoop links) (.act who action) =
      some following) :
    ∃ next new, Participates C icoKey mining.all (IdleNode.orphanBlocks next (.network 0)) next ∧
      TurnOf links icoKey mining network network who none (network.memory who).finishedBlockChan
        next new following := by
  obtain ⟨next, sent, hact, rfl⟩ := Network.next_act.mp hnext
  obtain ⟨hthread, hturn⟩ := act_eq_some.mp hact
  obtain ⟨hround, rfl⟩ := nodeTurn_eq_some.mp hturn
  -- A block that the node is about to store is stored nowhere, and so it has no child yet.
  have hawaits : ∀ block ∈ (network.memory who).finishedBlockChan,
      ¬ (network.memory who).Holds (block.hash C) →
      ∀ orphan ∈ network.orphans who, orphan.head.parent ≠ block.hash C := by
    intro block hblock hmissing orphan horphan heq
    obtain ⟨other, hholds⟩ := h.found who orphan horphan
    have hoffered := (h.participates who).orphans orphan horphan
    have hparent := (h.participates other).parent (node_keeps hreach other).1
      mining.hashesDistinct hoffered.mem hholds
    exact hmissing (h.origin who block (hmines who block hblock) other (heq ▸ hparent))
  obtain ⟨hparticipates, hruns, new, hturn⟩ := act_turn (h.participates who)
    (node_keeps hreach who).1 (node_keeps hreach who).2 mining.hashesDistinct
    (fun block hblock => ⟨who, hmines who block hblock⟩) hawaits (hthread 0)
    (node_kinds (node_reachable hreach who) (hthread 0)) hround
  obtain heq := orphanBlocks_of_worker hparticipates.worker
  refine ⟨next, new, heq.symm ▸ hparticipates, ?_, rfl, running_of_round hround hruns,
    fun _ _ _ => Or.inl, fun _ _ _ => id, forall_incoming_none, heq.symm ▸ hturn,
    fun block hblock => Or.inr (hmines who block hblock), fun block hblock => Or.inl (heq ▸ hblock)⟩
  rw [hturn.sent, List.drop_left]

/-! ## Whole runs -/

theorem NetworkInvariant.start :
    NetworkInvariant links icoKey mining (NodeNetwork.start C icoKey n requests) where
  running _ thread := ⟨.start thread, rfl⟩
  participates _ := by
    refine ⟨rfl, ?_, List.forall_mem_nil _⟩
    exact LoopInvariant.begin (List.forall_mem_nil _)
  justified _ _ := List.forall_mem_nil _
  found _ := List.forall_mem_nil _
  origin _ _ _ _ := id
  awaited _ := List.forall_mem_nil _
  reaches _ _ _ _ := Or.inl

/-- Every step is a turn of one node. -/
theorem NetworkInvariant.exists_turn (h : NetworkInvariant links icoKey mining network)
    (hreach : network.Reachable .release geneLoop links icoKey mining)
    (hmines : network.MinesIn mining) {event : NodeEvent n requests}
    (hnext : network.next (nodeProtocol C .release geneLoop links) event = some following) :
    ∃ taken who incoming fresh next new,
      Participates C icoKey mining.all (IdleNode.orphanBlocks next (.network 0)) next ∧
      TurnOf links icoKey mining network taken who incoming fresh next new following := by
  cases event with
  | deliver source target i =>
      obtain ⟨message, _, _, hmessage, _, _⟩ := Network.next_deliver.mp hnext
      obtain ⟨next, new, hnext', hparticipates, hturn, _⟩ := h.deliver geneLoop
        (fun other => (node_keeps hreach other).1) (fun other => (node_keeps hreach other).2)
        hmessage
      obtain rfl := Option.some.inj (hnext'.symm.trans hnext)
      exact ⟨_, _, _, _, next, new, hparticipates, hturn⟩
  | act who action =>
      obtain ⟨next, new, hparticipates, hturn⟩ := h.act hreach hmines hnext
      exact ⟨_, _, _, _, next, new, hparticipates, hturn⟩

theorem networkInvariant_of_reachable
    (hreach : network.Reachable .release geneLoop links icoKey mining) :
    NetworkInvariant links icoKey mining network := by
  induction hreach with
  | refl => exact .start
  | tail hbefore hstep ih =>
      obtain ⟨event, hmines, hnext⟩ := hstep
      obtain ⟨_, _, _, _, next, new, hparticipates, hturn⟩ := ih.exists_turn hbefore hmines hnext
      exact hturn.invariant ih hparticipates fun other => (node_keeps hbefore other).1

end BitcoinClient
