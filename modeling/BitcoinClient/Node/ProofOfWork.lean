import BitcoinClient.Node.ChainPrograms

/-! # Proof of work and content of the stored blocks

Both results read the invariant of the block tree. The first makes no assumption
on the blocks that are delivered. The second tracks them, because only the miner
relates the Merkle root of a header to the transactions of the block.
-/

namespace BitcoinClient

/-- Every stored block but the genesis block has the fixed difficulty, meets it, and
has its parent stored. -/
theorem storedBlocks_wellMined (C : Crypto) (build : Build) (geneLoop : GeneLoop)
    (icoKey : Ed25519KeyPair) (workers requests : Nat) (node : Node workers requests)
    (hreach : (nodeMachine C build geneLoop).Reachable (fun _ _ _ => True)
      (Node.start C icoKey workers requests) node)
    (hash : H256) (block : Block) (height : UInt32)
    (hstored : node.shared.blockchain.value.blocks.get hash = some (block, height))
    (hgenesis : block ≠ Blockchain.genesis) :
    block.head.difficulty = Blockchain.genesis.head.difficulty ∧
      block.hash C ≤ Blockchain.genesis.head.difficulty ∧
      node.shared.blockchain.value.blocks.containsKey block.head.parent = true := by
  obtain ⟨hinv, _⟩ := node_chainInvariant (fun _ => True) (fun _ => True)
    (fun _ _ _ => trivial) (fun _ _ _ _ => ⟨fun _ _ => trivial, fun _ _ => trivial⟩) hreach
  have hinsertable := (hinv.stored hash block height hstored).2.resolve_left hgenesis
  exact ⟨hinsertable.wellMined.1, hinsertable.wellMined.2, hinsertable.parent⟩

/-- A block on the genesis block, without transactions and with a wrong Merkle root. -/
def uncommittedBlock : Block :=
  ⟨⟨Blockchain.genesis.hash .sample, 0, Blockchain.genesisDifficulty, 0, .hex 1⟩, ⟨[]⟩⟩

/-- The block that is mined of one transaction. -/
def blockOf (parent : Block) (st : SignedTransaction) : Block :=
  ⟨⟨parent.hash .sample, 0, Blockchain.genesisDifficulty, 0, st.hash .sample⟩, ⟨[st]⟩⟩

/-- A block without transactions on top of it. -/
def childBlock : Block :=
  ⟨⟨uncommittedBlock.hash .sample, 0, Blockchain.genesisDifficulty, 0, .hex 0⟩, ⟨[]⟩⟩

def sampleGeneLoop : GeneLoop where
  publicKey := Crypto.sampleKey
  addr := .fromPublicKeyBytes .sample Crypto.sampleKey.publicKey
  peerAddrs := (.fromPublicKeyBytes .sample [3], .fromPublicKeyBytes .sample [4])

/-- The only network worker receives the block, admits it and announces it. -/
def deliverUncommittedBlock : List (ThreadId 1 0 × Choice) :=
  (.network 0, .deliver 0 (.blocks [uncommittedBlock])) :: List.replicate 7 (.network 0, .go)

/-- The mempool that holds nothing but the transaction, in its only order. -/
noncomputable def onlyTransaction (st : SignedTransaction) :
    HashMap.Iteration H256 SignedTransaction :=
  .ofOrder ((∅ : HashMap _ _).insert (st.hash .sample) st) [(st.hash .sample, st)] rfl

noncomputable def startMiner : List (ThreadId 1 1 × Choice) :=
  [(.api 0, .request (.minerStart 0)), (.api 0, .go),
    (.miner, .mine 0 0 (onlyTransaction moveInitialCoin)), (.miner, .go)]

/-- A transaction arrives, and the running miner finishes a block with it and removes it. -/
noncomputable def mineArrived (st : SignedTransaction) : List (ThreadId 1 1 × Choice) :=
  (.network 0, .deliver 0 (.transactions [st])) :: List.replicate 3 (.network 0, .go) ++
    List.replicate 6 (.miner, .mine 0 0 (onlyTransaction st))

def storesUncommittedBlock (node : Node 1 0) : Bool :=
  decide (node.shared.blockchain.value.blocks.get (uncommittedBlock.hash .sample) =
    some (uncommittedBlock, 1))

theorem storedBlocks_wellMined_uncommittedBlock :
    uncommittedBlock.head.difficulty = Blockchain.genesis.head.difficulty ∧
      uncommittedBlock.hash .sample ≤ Blockchain.genesis.head.difficulty := by
  have hrun : ((nodeMachine .sample .release sampleGeneLoop).run (fun _ _ _ => true)
      (Node.start .sample Crypto.sampleKey 1 0) deliverUncommittedBlock).any
        storesUncommittedBlock = true := by decide +kernel
  obtain ⟨node, hreach, hstored⟩ := Machine.exists_reachable (fun _ _ _ _ => trivial) hrun
  have hwellMined := storedBlocks_wellMined .sample .release sampleGeneLoop Crypto.sampleKey 1 0
    node hreach _ _ _ (of_decide_eq_true hstored) (by decide +kernel)
  exact ⟨hwellMined.1, hwellMined.2.1⟩

/-- Every stored block but the genesis block has the Merkle root of its transactions
in its header or was delivered as it is; nothing compares the two. -/
theorem storedBlocks_commit_or_delivered (C : Crypto) (build : Build) (geneLoop : GeneLoop)
    (icoKey : Ed25519KeyPair) (workers requests : Nat) (delivered : Set Block)
    (node : Node workers requests)
    (hreach : (nodeMachine C build geneLoop).Reachable
      (fun _ _ choice => ∀ block ∈ choice.blocks, block ∈ delivered)
      (Node.start C icoKey workers requests) node)
    (hash : H256) (block : Block) (height : UInt32)
    (hstored : node.shared.blockchain.value.blocks.get hash = some (block, height))
    (hgenesis : block ≠ Blockchain.genesis) : Commits C block ∨ block ∈ delivered := by
  obtain ⟨hinv, _⟩ := node_chainInvariant (fun block => Commits C block ∨ block ∈ delivered)
    (fun _ => True) (fun _ hcommits _ => Or.inl hcommits)
    (fun _ _ _ hguard => ⟨fun block hblock => Or.inr (hguard block hblock), fun _ _ => trivial⟩)
    hreach
  exact ((hinv.stored hash block height hstored).2.resolve_left hgenesis).admissible

theorem exists_uncommittedBlock_stored :
    ∃ node : Node 1 0, (nodeMachine .sample .release sampleGeneLoop).Reachable
      (fun _ _ choice => ∀ block ∈ choice.blocks, block ∈ [uncommittedBlock])
      (Node.start .sample Crypto.sampleKey 1 0) node ∧
      node.shared.blockchain.value.blocks.get (uncommittedBlock.hash .sample) =
        some (uncommittedBlock, 1) := by
  have hrun : ((nodeMachine .sample .release sampleGeneLoop).run
      (fun _ _ choice => decide (∀ block ∈ choice.blocks, block ∈ [uncommittedBlock]))
      (Node.start .sample Crypto.sampleKey 1 0) deliverUncommittedBlock).any
        storesUncommittedBlock = true := by decide +kernel
  obtain ⟨node, hreach, hstored⟩ :=
    Machine.exists_reachable (fun _ _ _ hallowed => of_decide_eq_true hallowed) hrun
  exact ⟨node, hreach, of_decide_eq_true hstored⟩

theorem uncommittedBlock_not_commits : ¬ Commits .sample uncommittedBlock := by
  rintro ⟨tree, htree, hroot⟩
  obtain rfl : (⟨[]⟩ : MerkleTree) = tree := Except.ok.inj htree
  have heq : H256.hex 0 = H256.hex 1 := Except.ok.inj hroot
  revert heq
  decide +kernel

/-- Where nothing is delivered, the stored blocks are those of the miner; elsewhere, a block need
not commit. -/
theorem storedBlocks_commit_or_delivered_minedBlock :
    (∃ node : Node 1 1, node.shared.blockchain.value.blocks.get
        ((blockOf Blockchain.genesis moveInitialCoin).hash .sample) =
          some (blockOf Blockchain.genesis moveInitialCoin, 1) ∧
      (Commits .sample (blockOf Blockchain.genesis moveInitialCoin) ∨
        blockOf Blockchain.genesis moveInitialCoin ∈ (∅ : Set Block))) ∧
    (Commits .sample uncommittedBlock ∨ uncommittedBlock ∈ ({uncommittedBlock} : Set Block)) := by
  constructor
  · have hrun : ((nodeMachine .sample .release sampleGeneLoop).run
        (fun _ _ choice => decide (choice.blocks = [])) (Node.start .sample Crypto.sampleKey 1 1)
        (startMiner ++ mineArrived moveInitialCoin ++ List.replicate 5 (.minerWorker, .go))).any
        (fun node : Node 1 1 => decide (node.shared.blockchain.value.blocks.get
          ((blockOf Blockchain.genesis moveInitialCoin).hash .sample) =
            some (blockOf Blockchain.genesis moveInitialCoin, 1))) = true := by
      decide +kernel
    obtain ⟨node, hreach, hcheck⟩ :=
      Machine.exists_reachable (fun _ _ _ hallowed => of_decide_eq_true hallowed) hrun
    have hstored := of_decide_eq_true hcheck
    refine ⟨node, hstored, storedBlocks_commit_or_delivered .sample .release sampleGeneLoop
      Crypto.sampleKey 1 1 ∅ node (hreach.mono ?_) _ _ _ hstored (by decide +kernel)⟩
    intro _ _ choice hguard block hblock
    rw [hguard] at hblock
    cases hblock
  · obtain ⟨node, hreach, hstored⟩ := exists_uncommittedBlock_stored
    refine storedBlocks_commit_or_delivered .sample .release sampleGeneLoop Crypto.sampleKey 1 0
      {uncommittedBlock} node (hreach.mono ?_) _ _ _ hstored (by decide +kernel)
    exact fun _ _ _ hguard block hblock => List.mem_singleton.mp (hguard block hblock)

/-- A node stores a block whose header has another Merkle root. -/
theorem not_storedBlocks_commit :
    ¬ ∀ (node : Node 1 0), (nodeMachine .sample .release sampleGeneLoop).Reachable
      (fun _ _ _ => True) (Node.start .sample Crypto.sampleKey 1 0) node →
      ∀ hash block height, node.shared.blockchain.value.blocks.get hash = some (block, height) →
        block ≠ Blockchain.genesis → Commits .sample block := by
  intro hall
  obtain ⟨node, hreach, hstored⟩ := exists_uncommittedBlock_stored
  exact uncommittedBlock_not_commits (hall node (hreach.mono fun _ _ _ _ => trivial) _ _ _ hstored
    (by decide +kernel))

end BitcoinClient
