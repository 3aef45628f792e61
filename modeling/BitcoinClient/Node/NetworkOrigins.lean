import BitcoinClient.Node.ContentOrigins
import BitcoinClient.Node.NetworkContent

/-! # Where the contents of a network come from

When the policies of all nodes allow the same messages, whatever is in a network keeps them. One
such family shows that the transactions of a node stay with it: its neighbours hear of their
hashes and ask for nothing, so that it takes the node's own miner to put them into blocks.
-/

namespace BitcoinClient

variable {n requests : Nat} {C : Crypto} {build : Build} {geneLoop : Fin n → GeneLoop}
  {links : Links n} {icoKey : Ed25519KeyPair} {network : NodeNetwork n requests}

/-- What a node hands to its connections is in its memory. -/
theorem Sourced.route {geneLoop : GeneLoop} {policy : Policy C build icoKey geneLoop} {s : Shared}
    (h : Sourced policy s) (links : Links n) (who target : Fin n) (count : Nat) :
    ∀ message ∈ links.route who (s.sent.drop count) target, policy.message message := by
  intro message hmessage
  rcases mem_route.mp hmessage with ⟨reason, hwrite⟩ | ⟨hbroadcast, _⟩
  · exact h.sent _ (List.mem_of_mem_drop hwrite)
  · exact h.sent _ (List.mem_of_mem_drop hbroadcast)

theorem Conforms.orphans {geneLoop : GeneLoop} {policy : Policy C build icoKey geneLoop}
    {node : IdleNode 1 requests} {who : ThreadId 1 requests} (h : Conforms policy node) :
    ∀ block ∈ node.orphanBlocks who, policy.block block := by
  unfold IdleNode.orphanBlocks
  split
  next task htask =>
    have hloop := h.threads who task htask
    cases task with
    | network orphanBlocks => exact hloop
    | _ => exact List.forall_mem_nil _
  next => exact List.forall_mem_nil _

/-- What the generator of a node makes in this step is in the set of the node. -/
def NodeNetwork.GeneratesIn (C : Crypto) (geneLoop : Fin n → GeneLoop)
    (made : Fin n → Set SignedTransaction) (network : NodeNetwork n requests) :
    NodeEvent n requests → Prop
  | .act who (thread, .generate iteration) =>
    ∀ st ∈ (network.state who).generates C (geneLoop who) thread iteration, st ∈ made who
  | _ => True

instance (C : Crypto) (geneLoop : Fin n → GeneLoop) (txs : List SignedTransaction)
    (network : NodeNetwork n requests) (event : NodeEvent n requests) :
    Decidable (network.GeneratesIn C geneLoop (fun _ => {st | st ∈ txs}) event) :=
  match event with
  | .deliver .. => .isTrue trivial
  | .act who (thread, .generate iteration) =>
    inferInstanceAs (Decidable (∀ st ∈ (network.state who).generates C (geneLoop who) thread
      iteration, st ∈ txs))
  | .act _ (_, .deliver ..) => .isTrue trivial
  | .act _ (_, .disconnect) => .isTrue trivial
  | .act _ (_, .mine ..) => .isTrue trivial
  | .act _ (_, .request _) => .isTrue trivial
  | .act _ (_, .go) => .isTrue trivial

theorem NodeNetwork.GeneratesIn.mono {made more : Fin n → Set SignedTransaction}
    {event : NodeEvent n requests} (h : network.GeneratesIn C geneLoop made event)
    (hsubset : ∀ who, made who ⊆ more who) : network.GeneratesIn C geneLoop more event := by
  unfold NodeNetwork.GeneratesIn at h ⊢
  split
  next who thread iteration => exact fun st hst => hsubset who (h st hst)
  next => trivial

theorem generatesIn_univ (network : NodeNetwork n requests) (event : NodeEvent n requests) :
    network.GeneratesIn C geneLoop (fun _ => Set.univ) event := by
  unfold NodeNetwork.GeneratesIn
  split
  next => exact fun st _ => Set.mem_univ st
  next => trivial

/-- The nodes and their connections have nothing else than the policies allow. -/
structure NodeNetwork.Conforms (policies : ∀ who, Policy C build icoKey (geneLoop who))
    (allowed : Message → Prop) (network : NodeNetwork n requests) : Prop where
  nodes : ∀ who, BitcoinClient.Conforms (policies who) (network.state who)
  channels : ∀ source target, ∀ message ∈ network.channel source target, allowed message

variable {policies : ∀ who, Policy C build icoKey (geneLoop who)} {allowed : Message → Prop}

/-- A node whose contents are allowed sends no others. -/
theorem NodeNetwork.Conforms.put (h : network.Conforms policies allowed)
    (hallowed : ∀ who, (policies who).message = allowed) {who : Fin n}
    {next : IdleNode 1 requests} (hnext : BitcoinClient.Conforms (policies who) next)
    (count : Nat) : NodeNetwork.Conforms policies allowed
      (network.put who next (links.route who (next.shared.sent.drop count))) where
  nodes other := by
    by_cases heq : other = who
    · subst heq
      rw [Network.put_state_self]
      exact hnext
    · rw [Network.put_state_of_ne heq]
      exact h.nodes other
  channels source target message hmessage := by
    rcases Network.mem_put.mp hmessage with hmessage | ⟨rfl, hmessage⟩
    · exact h.channels source target message hmessage
    · rw [← hallowed source]
      exact hnext.memory.route links source target count message hmessage

/-- Policies that allow the same messages hold everywhere in a network, as long as they hold of
what the nodes generate. -/
theorem conforms_of_reachable (policies : ∀ who, Policy C build icoKey (geneLoop who))
    (allowed : Message → Prop) (hallowed : ∀ who, (policies who).message = allowed)
    {guard : NodeNetwork n requests → NodeEvent n requests → Prop}
    (hguard : ∀ network event, guard network event →
      network.GeneratesIn C geneLoop (fun who => (policies who).made) event)
    (hreach : NodeNetwork.ReachableBy C build geneLoop links guard icoKey network) :
    network.Conforms policies allowed := by
  induction hreach with
  | refl => exact ⟨fun _ => .start, fun _ _ => List.forall_mem_nil _⟩
  | @tail before after hbefore hstep ih =>
      obtain ⟨event, hmeets, hnext⟩ := hstep
      have hgenerates := hguard before event hmeets
      cases event with
      | deliver source target i =>
          obtain ⟨message, next, sent, hmessage, hhandle, rfl⟩ := Network.next_deliver.mp hnext
          obtain ⟨hround, rfl⟩ := nodeTurn_eq_some.mp hhandle
          have hadmits : (policies target).message message := by
            rw [hallowed target]
            exact ih.channels source target message (List.mem_of_getElem? hmessage)
          have hconforms := (ih.nodes target).step hround hadmits
          have htake : NodeNetwork.Conforms policies allowed (before.take source target i) :=
            ⟨ih.nodes, fun i j other hother =>
              ih.channels i j other (Network.mem_of_mem_take hother)⟩
          exact htake.put hallowed hconforms _
      | act who action =>
          obtain ⟨next, hround, hown, rfl⟩ := round_of_act hbefore hnext
          have hallows : (policies who).Allows (before.state who) action.1 action.2 := by
            obtain ⟨thread, choice⟩ := action
            cases choice with
            | deliver peer message => exact absurd rfl (hown peer message)
            | generate iteration => exact hgenerates
            | _ => trivial
          exact ih.put hallowed ((ih.nodes who).step hround hallows) _

/-! ## Transactions stay where they are made -/

/-- The generator can make the transaction, given the right coins. -/
def GeneLoop.Makes (C : Crypto) (geneLoop : GeneLoop) (st : SignedTransaction) : Prop :=
  ∃ state, geneLoop.Spends C state st

/-- All transactions of the block were made by the generator of one node. -/
def Block.MadeByOne (C : Crypto) (geneLoop : Fin n → GeneLoop) (block : Block) : Prop :=
  ∃ who, ∀ st ∈ block.cont.st, (geneLoop who).Makes C st

/-- No transaction is asked for or sent by itself. -/
def Message.LocalOnly (C : Crypto) (geneLoop : Fin n → GeneLoop) : Message → Prop
  | .blocks delivered => ∀ block ∈ delivered, block.MadeByOne C geneLoop
  | .getTransactions _ | .transactions _ => False
  | _ => True

/-- A node has no transactions but its own outside of blocks. -/
def localPolicy (C : Crypto) (build : Build) (icoKey : Ed25519KeyPair)
    (geneLoop : Fin n → GeneLoop) (who : Fin n) : Policy C build icoKey (geneLoop who) where
  made := Set.univ
  transaction := (geneLoop who).Makes C
  block := Block.MadeByOne C geneLoop
  message := Message.LocalOnly C geneLoop
  state _ := True
  coins _ := True
  idle message hidle := by
    cases message with
    | blocks delivered => cases hidle
    | getTransactions hashes => cases hidle
    | transactions delivered => cases hidle
    | _ => trivial
  blocks _ := Iff.rfl
  delivers _ := False.elim
  answers _ := False.elim
  mines _ hmakes := ⟨who, hmakes⟩
  initial := trivial
  executes _ _ _ _ _ _ := trivial
  starts _ _ := trivial
  spends purse _ _ _ hspends := ⟨⟨purse, hspends⟩, trivial⟩

/-! ## Every run -/

/-- No node ever asks for a transaction or sends one by itself, every transaction in a mempool or
in a queued block was made by the generator of that node, and every block of the network has the
transactions of a single node. -/
theorem networkTransactions_local (C : Crypto) (build : Build) (n requests : Nat)
    (geneLoop : Fin n → GeneLoop) (links : Links n) (icoKey : Ed25519KeyPair)
    (network : NodeNetwork n requests)
    (hreach : NodeNetwork.ReachableBy C build geneLoop links (fun _ _ => True) icoKey network) :
    (∀ source target, ∀ message ∈ network.channel source target,
      (∀ hashes, message ≠ .getTransactions hashes) ∧
        ∀ transactions, message ≠ .transactions transactions) ∧
    (∀ who hash st, (network.memory who).mempool.value.trans.get hash = some st →
      (geneLoop who).Makes C st) ∧
    (∀ who, ∀ block ∈ (network.memory who).finishedBlockChan,
      ∀ st ∈ block.cont.st, (geneLoop who).Makes C st) ∧
    ∀ block, network.Contains block → block.MadeByOne C geneLoop := by
  have hconforms := conforms_of_reachable (localPolicy C build icoKey geneLoop)
    (Message.LocalOnly C geneLoop) (fun _ => rfl)
    (fun network event _ => generatesIn_univ network event) hreach
  refine ⟨fun source target message hmessage => ⟨?_, ?_⟩, fun who hash st => ?_, fun who => ?_, ?_⟩
  · rintro hashes rfl
    exact hconforms.channels source target _ hmessage
  · rintro transactions rfl
    exact hconforms.channels source target _ hmessage
  · exact (hconforms.nodes who).memory.mempool hash st
  · exact (hconforms.nodes who).memory.queue
  · intro block hcontains
    cases hcontains with
    | stored hget => exact (hconforms.nodes _).memory.blocks _ _ hget
    | held hmem => exact (hconforms.nodes _).orphans block hmem
    | sent hmessage hmem => exact hconforms.channels _ _ _ hmessage block hmem

/-- The second node has stored the first one's block and keeps its own transaction. -/
theorem networkTransactions_local_second : ∃ network : NodeNetwork 2 1,
    network.Contains (generatedBlock 0) ∧ (generatedBlock 0).MadeByOne .sample configuredGeneLoop ∧
      (network.memory 1).mempool.value.trans.get (secondGenerated.hash .sample) =
        some secondGenerated ∧
      (configuredGeneLoop 1).Makes .sample secondGenerated ∧
      ∀ message ∈ network.channel 1 0, ∀ transactions, message ≠ .transactions transactions := by
  have hrun : (configuredRun (fun _ _ => True) sharedCoin).any (fun network => decide (
      (network.memory 1).blockchain.value.blocks.get ((generatedBlock 0).hash .sample) =
        some (generatedBlock 0, 1) ∧
      (network.memory 1).mempool.value.trans.get (secondGenerated.hash .sample) =
        some secondGenerated)) = true := by
    decide +kernel
  obtain ⟨network, hreach, hcheck⟩ := Transition.exists_reachable _ _ _ _ _ hrun
  obtain ⟨hblock, htrans⟩ := of_decide_eq_true hcheck
  have hcontains : network.Contains (generatedBlock 0) := .stored hblock
  obtain ⟨hmessages, hmempool, _, hblocks⟩ := networkTransactions_local .sample .release 2 1
    configuredGeneLoop pairLinks configuredKey network hreach
  exact ⟨network, hcontains, hblocks _ hcontains, htrans, hmempool 1 _ _ htrans,
    fun message hmessage => (hmessages 1 0 message hmessage).2⟩

end BitcoinClient
