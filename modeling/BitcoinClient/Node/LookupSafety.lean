import BitcoinClient.Node.ProofOfWork

/-! # Lookup safety

No thread panics on a lookup in the block tree or in the ledger states when the
headers that enter the node do not collide. No bound on the number of blocks is
needed: a height that wraps is smaller than the depth of its block, so the
backward walks only become shorter.
-/

namespace BitcoinClient

/-- The headers of the blocks that a step lets in belong to `headers`. -/
def HeadersIn (headers : Set Header) {workers requests : Nat} (node : Node workers requests)
    (who : ThreadId workers requests) (choice : Choice) : Prop :=
  (∀ block ∈ choice.blocks, block.head ∈ headers) ∧
    ∀ block ∈ node.finishing who, block.head ∈ headers

theorem HeadersDistinct.of_injOn {C : Crypto} {headers : Set Header}
    (hfree : Set.InjOn (Header.hash C) headers) (hgenesis : Blockchain.genesis.head ∈ headers) :
    HeadersDistinct C fun block => block.head ∈ headers := by
  have hmem : ∀ block, block = Blockchain.genesis ∨ block.head ∈ headers →
      block.head ∈ headers := by
    rintro block (rfl | hblock)
    · exact hgenesis
    · exact hblock
  exact fun left right hleft hright heq => hfree (hmem left hleft) (hmem right hright) heq

/-- In every reachable state each stored block has a ledger state, the tip and the
parents are stored, and no thread has stopped on a failed lookup. -/
theorem lookups_safe (C : Crypto) (build : Build) (geneLoop : GeneLoop) (icoKey : Ed25519KeyPair)
    (workers requests : Nat) (headers : Set Header)
    (hfree : Set.InjOn (Header.hash C) headers) (hgenesis : Blockchain.genesis.head ∈ headers)
    (node : Node workers requests)
    (hreach : (nodeMachine C build geneLoop).Reachable (HeadersIn headers)
      (Node.start C icoKey workers requests) node) :
    (∀ hash, node.shared.blockchain.value.blocks.containsKey hash = true →
      node.shared.blockState.value.containsKey hash = true) ∧
    node.shared.blockchain.value.blocks.containsKey node.shared.blockchain.value.tip = true ∧
    (∀ hash block height, node.shared.blockchain.value.blocks.get hash = some (block, height) →
      block ≠ Blockchain.genesis →
      node.shared.blockchain.value.blocks.containsKey block.head.parent = true) ∧
    ∀ who reason, node.threads who = .error reason →
      reason ≠ .blocksLookup ∧ reason ≠ .blockStateLookup := by
  obtain ⟨hinv, hthreads⟩ := node_chainInvariant (fun block => block.head ∈ headers)
    (fun block => block.head ∈ headers) (fun _ _ hmined => hmined) (fun _ _ _ => id) hreach
  refine ⟨hinv.states, hinv.tip, fun hash block height hstored hne => ?_, fun who reason hwho => ?_⟩
  · exact ((hinv.stored hash block height hstored).2.resolve_left hne).parent
  · have hfailure := hthreads who
    rw [hwho] at hfailure
    have hnot : reason.isLookup = false := hfailure (.of_injOn hfree hgenesis)
    constructor
    · rintro rfl
      cases hnot
    · rintro rfl
      cases hnot

theorem lookups_safe_uncommittedBlock :
    ∃ node : Node 1 0, node.shared.blockchain.value.blocks.get (uncommittedBlock.hash .sample) =
      some (uncommittedBlock, 1) ∧
      node.shared.blockState.value.containsKey (uncommittedBlock.hash .sample) = true := by
  let headers : List Header := [Blockchain.genesis.head, uncommittedBlock.head]
  have hfree : Set.InjOn (Header.hash .sample) {header | header ∈ headers} := by
    have hdistinct : ∀ left ∈ headers, ∀ right ∈ headers,
        left.hash .sample = right.hash .sample → left = right := by decide +kernel
    exact fun left hleft right hright heq => hdistinct left hleft right hright heq
  have hrun : ((nodeMachine .sample .release sampleGeneLoop).run
      (fun (node : Node 1 0) who choice => decide ((∀ block ∈ choice.blocks, block.head ∈ headers) ∧
        ∀ block ∈ node.finishing who, block.head ∈ headers))
      (Node.start .sample Crypto.sampleKey 1 0) deliverUncommittedBlock).any
        storesUncommittedBlock = true := by decide +kernel
  obtain ⟨node, hreach, hstored⟩ :=
    Machine.exists_reachable (fun _ _ _ hallowed => of_decide_eq_true hallowed) hrun
  have hget := of_decide_eq_true hstored
  have hsafe := lookups_safe .sample .release sampleGeneLoop Crypto.sampleKey 1 0
    {header | header ∈ headers} hfree List.mem_cons_self node hreach
  exact ⟨node, hget, hsafe.1 _ (HashMap.containsKey_of_get hget)⟩

end BitcoinClient
