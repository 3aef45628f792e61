import BitcoinClient.Foundation.Network
import BitcoinClient.Network.BlockRequests
import BitcoinClient.Network.CatchUp
import BitcoinClient.Node.Bystanders
import BitcoinClient.Node.Consensus
import BitcoinClient.Node.FaithfulReplies

/-! # A network of nodes

Any number of nodes, each with one network worker, are connected to each other. A node
handles a message that is on its way, or another of its threads takes a round. All threads take
whole rounds of their loops, one after another in any order, so that what is said of a run is
said of its states between rounds. What a round hands to the network layer joins the connections
at its end: a broadcast all of them, a reply that of the node that it is written to. Since a
broadcast waits for the server while a reply does not, messages may overtake each other. The
handle of a peer is the number of its node.
-/

namespace BitcoinClient

/-- The connections between `n` nodes. -/
structure Links (n : Nat) where
  linked : Fin n → Fin n → Bool
  symm : ∀ i j, linked i j = true → linked j i = true

/-- The message that reaches a node. -/
def Sent.toNode (linked : Bool) (target : PeerId) : Sent → Option Message
  | .write peer _ reply => if peer = target then some reply else none
  | .broadcast message => if linked then some message else none

/-- What each node gets of the messages that `who` hands to its network layer. -/
def Links.route {n : Nat} (links : Links n) (who : Fin n) (sent : List Sent) (target : Fin n) :
    List Message :=
  sent.filterMap (Sent.toNode (links.linked who target) target.val)

section Definitions

variable {n requests : Nat} (C : Crypto) (build : Build) (geneLoop : Fin n → GeneLoop)
  (links : Links n)

/-- A round of a thread of the node `who`, with the messages for each node. -/
def nodeTurn (who : Fin n) (node : IdleNode 1 requests) (thread : ThreadId 1 requests)
    (choice : Choice) : Option (IdleNode 1 requests × (Fin n → List Message)) :=
  ((nodeRounds C build (geneLoop who)).next node thread choice).map fun next =>
    (next, links.route who (next.shared.sent.drop node.shared.sent.length))

/-- The network worker handles the messages; the other threads act by themselves. -/
def nodeProtocol :
    Protocol (Fin n) (IdleNode 1 requests) Message (ThreadId 1 requests × Choice) where
  handle who source node message :=
    nodeTurn C build geneLoop links who node (.network 0) (.deliver source.val message)
  act who node action :=
    match action.1 with
    | .network _ => none
    | thread => nodeTurn C build geneLoop links who node thread action.2

/-- The nodes of a network and the messages on their connections. -/
abbrev NodeNetwork (n requests : Nat) := Network (Fin n) (IdleNode 1 requests) Message

/-- All nodes have just been started. -/
def NodeNetwork.start (icoKey : Ed25519KeyPair) (n requests : Nat) : NodeNetwork n requests where
  state _ := IdleNode.start C icoKey 1 requests
  channel _ _ := []

/-- What each of `n` nodes mines: no two blocks have one hash, no block is mined by two nodes,
and none has the hash of the genesis block. -/
structure Mining (n : Nat) where
  blocks : Fin n → Set Block
  distinct : ∀ {who other : Fin n}, ∀ block ∈ blocks who, ∀ block' ∈ blocks other,
    block.hash C = block'.hash C → block = block' ∧ who = other
  genesis : ∀ {who : Fin n}, ∀ block ∈ blocks who, block.hash C ≠ Blockchain.genesis.hash C

/-- The blocks that any of the nodes mines. -/
def Mining.all {C : Crypto} (mining : Mining C n) : Set Block :=
  {block | ∃ who, block ∈ mining.blocks who}

/-- The miners only hand blocks to their workers that they may mine. -/
def NodeNetwork.MinesIn {C : Crypto} (mining : Mining C n) (network : NodeNetwork n requests) :
    Prop :=
  ∀ who, ∀ block ∈ (network.state who).shared.finishedBlockChan, block ∈ mining.blocks who

/-- What can happen in a network. -/
abbrev NodeEvent (n requests : Nat) := Network.Event (Fin n) (ThreadId 1 requests × Choice)

/-- The states that networks reach from the start by events that meet the guard. -/
abbrev NodeNetwork.ReachableBy (guard : NodeNetwork n requests → NodeEvent n requests → Prop)
    (icoKey : Ed25519KeyPair) : NodeNetwork n requests → Prop :=
  Transition.Reachable (fun network => network.next (nodeProtocol C build geneLoop links)) guard
    (.start C icoKey n requests)

/-- The states that networks reach as long as nodes mine no other blocks than they may. -/
abbrev NodeNetwork.Reachable {C : Crypto} (build : Build) (geneLoop : Fin n → GeneLoop)
    (links : Links n) (icoKey : Ed25519KeyPair) (mining : Mining C n) :
    NodeNetwork n requests → Prop :=
  NodeNetwork.ReachableBy C build geneLoop links (fun network _ => network.MinesIn mining) icoKey

/-- No two blocks have one hash, nor has a block the hash of the genesis block. -/
structure HashesDistinct (mined : Set Block) : Prop where
  hash : ∀ block ∈ mined, ∀ other ∈ mined, block.hash C = other.hash C → block = other
  genesis : ∀ block ∈ mined, block.hash C ≠ Blockchain.genesis.hash C

/-- The entries that the mined blocks lead to. -/
abbrev MinedEntry (icoKey : Ed25519KeyPair) (mined : Set Block) : H256 → Entry → Prop :=
  (admission C .release).Derives (Shared.initial C icoKey).entry mined

/-- The number of blocks below a block. -/
noncomputable abbrev minedDepth (icoKey : Ed25519KeyPair) (mined : Set Block) : H256 → Nat :=
  (admission C .release).depth (Shared.initial C icoKey).entry mined

/-- A block that every node admits once it has the parent. -/
structure Offered (icoKey : Ed25519KeyPair) (mined : Set Block) (block : Block) : Prop where
  mem : block ∈ mined
  work : block.hash C ≤ block.head.difficulty
  entry : ∃ entry, MinedEntry C icoKey mined (block.hash C) entry

/-- What the node stores and what its worker holds back are explained by the mined blocks. -/
structure Participates (icoKey : Ed25519KeyPair) (mined : Set Block) (orphanBlocks : List Block)
    (node : IdleNode 1 requests) : Prop where
  worker : node.threads (.network 0) = .ok (.network orphanBlocks)
  loop : LoopInvariant C .release (Shared.initial C icoKey) mined [] { orphanBlocks } 0 node.shared
  orphans : ∀ block ∈ orphanBlocks, Offered C icoKey mined block

end Definitions

/-- Whether the block is in the tree of the node. -/
def Shared.Holds (s : Shared) (hash : H256) : Prop :=
  s.blockchain.value.blocks.containsKey hash = true

variable {n requests : Nat} {C : Crypto} {build : Build} {geneLoop : Fin n → GeneLoop}
  {links : Links n} {icoKey : Ed25519KeyPair} {mined : Set Block} {mining : Mining C n}
  {network : NodeNetwork n requests} {orphanBlocks : List Block} {node : IdleNode 1 requests}

/-! ## Nodes by themselves -/

theorem nodeTurn_eq_some {who : Fin n} {node next : IdleNode 1 requests}
    {thread : ThreadId 1 requests} {choice : Choice} {sent : Fin n → List Message} :
    nodeTurn C build geneLoop links who node thread choice = some (next, sent) ↔
      (nodeRounds C build (geneLoop who)).next node thread choice = some next ∧
        sent = links.route who (next.shared.sent.drop node.shared.sent.length) := by
  unfold nodeTurn
  rw [Option.map_eq_some_iff]
  constructor
  · rintro ⟨_, hnext, heq⟩
    cases heq
    exact ⟨hnext, rfl⟩
  · rintro ⟨hnext, rfl⟩
    exact ⟨next, hnext, rfl⟩

/-- By itself a node takes rounds of the threads other than the network worker. -/
theorem act_eq_some {who : Fin n} {node : IdleNode 1 requests} {thread : ThreadId 1 requests}
    {choice : Choice} {result : IdleNode 1 requests × (Fin n → List Message)} :
    (nodeProtocol C build geneLoop links).act who node (thread, choice) = some result ↔
      (∀ i, thread ≠ .network i) ∧
        nodeTurn C build geneLoop links who node thread choice = some result := by
  cases thread <;> simp [nodeProtocol]

/-- A node of a network takes rounds like any other node. -/
theorem node_reachable {guard : NodeNetwork n requests → NodeEvent n requests → Prop}
    (hreach : NodeNetwork.ReachableBy C build geneLoop links guard icoKey network) (who : Fin n) :
    (nodeRounds C build (geneLoop who)).Reachable (fun _ _ _ => True)
      (IdleNode.start C icoKey 1 requests) (network.state who) := by
  have hmoves := Network.moves_of_reachable hreach who
  generalize network.state who = node at hmoves
  induction hmoves with
  | refl => exact .start
  | tail _ hmove ih =>
      cases hmove with
      | handle hhandle => exact ih.step trivial (nodeTurn_eq_some.mp hhandle).1
      | act hact => exact ih.step trivial (nodeTurn_eq_some.mp (act_eq_some.mp hact).2).1

/-- So every node keeps what any node keeps. -/
theorem node_keeps {guard : NodeNetwork n requests → NodeEvent n requests → Prop}
    (hreach : NodeNetwork.ReachableBy C build geneLoop links guard icoKey network) (who : Fin n) :
    ChainInvariant C (fun _ => True) (network.state who).shared ∧
      (network.state who).shared.mempool.poisoned = false := by
  have hnode := node_reachable hreach who
  refine ⟨?_, (idle_mempoolInvariant hnode).usable⟩
  exact (node_chainInvariant (fun _ => True) (fun _ => True) (fun _ _ _ => trivial)
    (fun _ _ _ _ => ⟨fun _ _ => trivial, fun _ _ => trivial⟩) (IdleNode.reachable hnode)).1

/-! ## What the mined blocks lead to -/

theorem Mining.hashesDistinct (mining : Mining C n) : HashesDistinct C mining.all where
  hash := by
    rintro block ⟨who, hblock⟩ other ⟨who', hother⟩ heq
    exact (mining.distinct block hblock other hother heq).1
  genesis := by
    rintro block ⟨who, hblock⟩
    exact mining.genesis block hblock

namespace HashesDistinct

theorem orderly (h : HashesDistinct C mined) (icoKey : Ed25519KeyPair) :
    Orderly C .release (Shared.initial C icoKey) mined := by
  refine ⟨initial_live, fun block hblock => ?_, h.hash⟩
  cases hentry : (Shared.initial C icoKey).entry (block.hash C) with
  | none => exact hentry
  | some entry =>
      have hstored := HashMap.containsKey_of_get (Shared.entry_eq_some.mp hentry).1
      exact absurd (initial_contains.mp hstored) (h.genesis block hblock)

theorem unique (h : HashesDistinct C mined) {hash : H256} {entry other : Entry}
    (hentry : MinedEntry C icoKey mined hash entry)
    (hother : MinedEntry C icoKey mined hash other) : entry = other :=
  hentry.unique (h.orderly icoKey).2 hother

/-- The entry of a mined block, and that of its parent. -/
theorem entry_cases (h : HashesDistinct C mined) {block : Block} {entry : Entry}
    (hblock : block ∈ mined) (hentry : MinedEntry C icoKey mined (block.hash C) entry) :
    entry.block = block ∧ ∃ parent, MinedEntry C icoKey mined block.head.parent parent ∧
      (admission C .release).extend block parent = some entry := by
  generalize hhash : block.hash C = hash at hentry
  cases hentry with
  | start hstart =>
      have hstored := HashMap.containsKey_of_get (Shared.entry_eq_some.mp hstart).1
      exact absurd (hhash.trans (initial_contains.mp hstored)) (h.genesis block hblock)
  | @extend other parent _ hother hparent hextend =>
      obtain rfl := h.hash block hblock other hother hhash
      refine ⟨?_, parent, hparent, hextend⟩
      obtain ⟨_, _, _, _, _, rfl⟩ := admission_extend_eq_some.mp hextend
      rfl

end HashesDistinct

end BitcoinClient
