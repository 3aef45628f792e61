import BitcoinClient.Node.NetworkOrigins

/-! # The coins in a network

Whatever the nodes of a network do, all transactions in it were made by their generators, one
from the coins of another, back to the initial coin. So no node, on no fork, ever has more than
the initial coin in circulation, and exactly that much when no two transactions that were made
have one hash.
-/

namespace BitcoinClient

variable {n requests : Nat} {C : Crypto} {build : Build} {icoKey : Ed25519KeyPair}

/-- The transactions in a message. -/
def Message.carried : Message → List SignedTransaction
  | .blocks delivered => delivered.flatMap fun block => block.cont.st
  | .transactions delivered => delivered
  | _ => []

/-- A node has the transaction in its memory or in a variable of a thread, or it is on its way. -/
inductive NodeNetwork.Carries (network : NodeNetwork n requests) (st : SignedTransaction) : Prop
  | mempool {who : Fin n} {hash : H256} :
      (network.memory who).mempool.value.trans.get hash = some st → Carries network st
  | stored {who : Fin n} {hash : H256} {block : Block} {height : UInt32} :
      (network.memory who).blockchain.value.blocks.get hash = some (block, height) →
      st ∈ block.cont.st → Carries network st
  | queued {who : Fin n} {block : Block} :
      block ∈ (network.memory who).finishedBlockChan → st ∈ block.cont.st → Carries network st
  | held {who : Fin n} {orphanBlocks : List Block} {block : Block} :
      (network.state who).threads (.network 0) = .ok (.network orphanBlocks) →
      block ∈ orphanBlocks → st ∈ block.cont.st → Carries network st
  | chosen {who : Fin n} {miner : Miner} :
      (network.state who).threads .miner = .ok (.miner miner) → st ∈ miner.transaction →
      Carries network st
  | sent {source target : Fin n} {message : Message} :
      message ∈ network.channel source target → st ∈ message.carried → Carries network st

/-- The transactions of the set that generators make of each other's coins. -/
def Supply (C : Crypto) (icoKey : Ed25519KeyPair) (generators : Set GeneLoop)
    (txs : Set SignedTransaction) : Set SignedTransaction :=
  {st | st ∈ txs ∧ MadeFrom C icoKey generators txs st}

/-- All transactions are of that kind, and the ledger states come from executing them. -/
def supplyPolicy (C : Crypto) (build : Build) (icoKey : Ed25519KeyPair)
    (geneLoop : Fin n → GeneLoop) (txs made : Set SignedTransaction)
    (hmade : ∀ st ∈ made, MadeFrom C icoKey (Set.range geneLoop) txs st → st ∈ txs)
    (who : Fin n) : Policy C build icoKey (geneLoop who) where
  made := made
  transaction st := st ∈ Supply C icoKey (Set.range geneLoop) txs
  block block := block.Uses (Supply C icoKey (Set.range geneLoop) txs)
  message message := ∀ st ∈ message.carried, st ∈ Supply C icoKey (Set.range geneLoop) txs
  state := ExecutedFrom C build icoKey (Supply C icoKey (Set.range geneLoop) txs)
  coins := State.OriginatesFrom C icoKey (Supply C icoKey (Set.range geneLoop) txs)
  idle message hidle := by
    cases message with
    | blocks delivered => cases hidle
    | transactions delivered => cases hidle
    | _ => exact List.forall_mem_nil _
  blocks _ := List.forall_mem_flatMap
  delivers _ := id
  answers _ _ _ := id
  mines _ := id
  initial := .new
  executes _ _ _ hparent hblock hcheck := hparent.checkTxs hblock hcheck
  starts _ := ExecutedFrom.originates
  spends _ st hst hcoins hspends :=
    have hfrom := hspends.madeFrom (hcoins.mono fun _ => And.left) (Set.mem_range_self who)
    have hmem := ⟨hmade st hst hfrom, hfrom⟩
    ⟨hmem, hcoins.execute hmem⟩

theorem conforms_supply {geneLoop : Fin n → GeneLoop} {links : Links n}
    {network : NodeNetwork n requests} (txs made : Set SignedTransaction)
    (hmade : ∀ st ∈ made, MadeFrom C icoKey (Set.range geneLoop) txs st → st ∈ txs)
    {guard : NodeNetwork n requests → NodeEvent n requests → Prop}
    (hguard : ∀ network event, guard network event →
      network.GeneratesIn C geneLoop (fun _ => made) event)
    (hreach : NodeNetwork.ReachableBy C build geneLoop links guard icoKey network) :
    network.Conforms (supplyPolicy C build icoKey geneLoop txs made hmade) fun message =>
      ∀ st ∈ message.carried, st ∈ Supply C icoKey (Set.range geneLoop) txs :=
  conforms_of_reachable _ _ (fun _ => rfl) hguard hreach

/-- Without a restriction the transactions are those that generators can make. -/
theorem conforms_generated {geneLoop : Fin n → GeneLoop} {links : Links n}
    {network : NodeNetwork n requests}
    {guard : NodeNetwork n requests → NodeEvent n requests → Prop}
    (hreach : NodeNetwork.ReachableBy C build geneLoop links guard icoKey network) :
    network.Conforms (supplyPolicy C build icoKey geneLoop
      {st | Generated C icoKey (Set.range geneLoop) st} Set.univ fun _ _ => MadeFrom.generated)
      fun message => ∀ st ∈ message.carried, st ∈ Supply C icoKey (Set.range geneLoop)
        {st | Generated C icoKey (Set.range geneLoop) st} :=
  conforms_supply _ _ _ (fun network event _ => generatesIn_univ network event) hreach

/-- Every run only makes finitely many transactions. -/
theorem exists_generatesIn {geneLoop : Fin n → GeneLoop} {links : Links n}
    {network : NodeNetwork n requests}
    {guard : NodeNetwork n requests → NodeEvent n requests → Prop}
    (hreach : NodeNetwork.ReachableBy C build geneLoop links guard icoKey network) :
    ∃ txs : List SignedTransaction, NodeNetwork.ReachableBy C build geneLoop links
      (fun network event => guard network event ∧
        network.GeneratesIn C geneLoop (fun _ => {st | st ∈ txs}) event) icoKey network := by
  induction hreach with
  | refl => exact ⟨[], .refl⟩
  | @tail before after _ hstep ih =>
      obtain ⟨event, hmeets, hnext⟩ := hstep
      obtain ⟨txs, hbefore⟩ := ih
      obtain ⟨new, hnew⟩ : ∃ new : List SignedTransaction,
          before.GeneratesIn C geneLoop (fun _ => {st | st ∈ new}) event := by
        cases event with
        | deliver source target i => exact ⟨[], trivial⟩
        | act who action =>
            obtain ⟨thread, choice⟩ := action
            cases choice with
            | generate iteration => exact ⟨_, fun st hst => hst⟩
            | _ => exact ⟨[], trivial⟩
      refine ⟨txs ++ new, Relation.ReflTransGen.tail ?_ ⟨event, ⟨hmeets, ?_⟩, hnext⟩⟩
      · refine Transition.Reachable.mono (fun network event h => ⟨h.1, ?_⟩) hbefore
        exact h.2.mono fun _ st => List.mem_append_left new
      · exact hnew.mono fun _ st => List.mem_append_right txs

/-- All transactions of the network, wherever they are, were made by its generators, each from a
coin of another one or from the initial coin. -/
theorem networkTransactions_generated (C : Crypto) (build : Build) (n requests : Nat)
    (geneLoop : Fin n → GeneLoop) (links : Links n) (icoKey : Ed25519KeyPair)
    (network : NodeNetwork n requests)
    (hreach : NodeNetwork.ReachableBy C build geneLoop links (fun _ _ => True) icoKey network)
    (st : SignedTransaction) (hcarried : network.Carries st) :
    Generated C icoKey (Set.range geneLoop) st := by
  have hconforms := conforms_generated hreach
  have hmemory := fun who => (hconforms.nodes who).memory
  suffices hsupply : st ∈ Supply C icoKey (Set.range geneLoop)
      {st | Generated C icoKey (Set.range geneLoop) st} from hsupply.1
  cases hcarried with
  | mempool hget => exact (hmemory _).mempool _ _ hget
  | stored hget hmem => exact (hmemory _).blocks _ _ hget st hmem
  | queued hblock hmem => exact (hmemory _).queue _ hblock st hmem
  | held hthread hblock hmem => exact (hconforms.nodes _).threads _ _ hthread _ hblock st hmem
  | chosen hthread hmem => exact (hconforms.nodes _).threads _ _ hthread st hmem
  | sent hmessage hmem => exact hconforms.channels _ _ _ hmessage st hmem

theorem generated_collisionFree :
    CollisionFree .sample {st | st ∈ [firstGenerated, secondGenerated]} := by
  have hdistinct : ∀ left ∈ [firstGenerated, secondGenerated], ∀ right ∈
      [firstGenerated, secondGenerated], left.hash .sample = right.hash .sample → left = right := by
    decide +kernel
  exact fun left hleft right hright heq => hdistinct left hleft right hright heq

theorem generated_avoidsZeroHash :
    AvoidsZeroHash .sample {st | st ∈ [firstGenerated, secondGenerated]} := by
  have hzero : ∀ st ∈ [firstGenerated, secondGenerated], st.hash .sample ≠ .hex 0 := by
    decide +kernel
  exact hzero

/-- The second node has mined its transaction, which spends a coin of the first one's. -/
theorem networkTransactions_generated_second :
    ∃ network : NodeNetwork 2 1, network.Carries firstGenerated ∧
      network.Carries secondGenerated ∧
      Generated .sample configuredKey (Set.range configuredGeneLoop) firstGenerated ∧
      Generated .sample configuredKey (Set.range configuredGeneLoop) secondGenerated := by
  have hrun : (configuredRun (fun _ _ => True) (sharedCoin ++ mineOn 1 secondGenerated)).any
      (fun network => decide (∀ who, (network.memory 1).blockchain.value.blocks.get
        ((generatedBlock who).hash .sample) = some (generatedBlock who, 1 + who.val.toUInt32))) =
          true := by
    decide +kernel
  obtain ⟨network, hreach, hcheck⟩ := Transition.exists_reachable _ _ _ _ _ hrun
  have hget := of_decide_eq_true hcheck
  have hfirst : network.Carries firstGenerated := .stored (hget 0) (List.mem_singleton_self _)
  have hsecond : network.Carries secondGenerated := .stored (hget 1) (List.mem_singleton_self _)
  have hgenerated := networkTransactions_generated .sample .release 2 1 configuredGeneLoop
    pairLinks configuredKey network hreach
  exact ⟨network, hfirst, hsecond, hgenerated _ hfirst, hgenerated _ hsecond⟩

/-- In every ledger state of every node the coins add up to no more than the initial coin, and to
exactly that unless two transactions that were made in the run have one hash. -/
theorem networkSupply_conserved (C : Crypto) (build : Build) (n requests : Nat)
    (geneLoop : Fin n → GeneLoop) (links : Links n) (icoKey : Ed25519KeyPair)
    (txs : Set SignedTransaction) (network : NodeNetwork n requests)
    (hreach : NodeNetwork.ReachableBy C build geneLoop links
      (fun network event => network.GeneratesIn C geneLoop (fun _ => txs) event) icoKey network)
    (who : Fin n) (hash : H256) (state : State)
    (hstate : (network.memory who).blockState.value.get hash = some state) :
    state.total ≤ 100 ∧ (CollisionFree C txs → AvoidsZeroHash C txs → state.total = 100) := by
  have hconforms := conforms_supply txs txs (fun st hst _ => hst) (fun _ _ => id) hreach
  have hexecuted := (hconforms.nodes who).memory.states hash state hstate
  constructor
  · exact hexecuted.total_le fun st => And.right
  · intro hfree hzero
    exact hexecuted.total_eq hfree hzero (fun st => And.left) fun st => And.right

/-- The second node has executed both transactions. -/
theorem networkSupply_conserved_second :
    ∃ (network : NodeNetwork 2 1) (state : State),
      (network.memory 1).blockState.value.get ((generatedBlock 1).hash .sample) = some state ∧
      state.states.get (firstGenerated.hash .sample, 0) = none ∧
      state.states.containsKey (secondGenerated.hash .sample, 0) = true ∧ state.total = 100 := by
  have hrun : (configuredRun (fun network event => network.GeneratesIn .sample configuredGeneLoop
        (fun _ => {st | st ∈ [firstGenerated, secondGenerated]}) event)
      (sharedCoin ++ mineOn 1 secondGenerated)).any (fun network =>
        ((network.memory 1).blockState.value.get ((generatedBlock 1).hash .sample)).any fun state =>
          decide (state.states.get (firstGenerated.hash .sample, 0) = none ∧
            state.states.containsKey (secondGenerated.hash .sample, 0) = true)) = true := by
    decide +kernel
  obtain ⟨network, hreach, hcheck⟩ := Transition.exists_reachable _ _ _ _ _ hrun
  obtain ⟨state, hget, hcoins⟩ := (Option.any_eq_true _ _).mp hcheck
  obtain ⟨hspent, hcoin⟩ := of_decide_eq_true hcoins
  have hsupply := networkSupply_conserved .sample .release 2 1 configuredGeneLoop pairLinks
    configuredKey _ network hreach 1 _ state hget
  exact ⟨network, state, hget, hspent, hcoin,
    hsupply.2 generated_collisionFree generated_avoidsZeroHash⟩

end BitcoinClient
