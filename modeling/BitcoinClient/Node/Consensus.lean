import BitcoinClient.Network.Admission
import BitcoinClient.Node.ProofOfWork

/-! # Consensus on the set of blocks

A node with one network worker ends with the same blocks, states and tip height
whatever the order, the batches and the repetitions in which a set of blocks is
delivered: every delivery settles the store, and the set determines a settled store.
-/

namespace BitcoinClient

/-- The rounds in which the only network worker handles `Blocks` messages. -/
def deliverBlocks {requests : Nat} (messages : List (PeerId × List Block)) :
    List (ThreadId 1 requests × Choice) :=
  messages.map fun (peer, blocks) => (.network 0, .deliver peer (.blocks blocks))

/-- The blocks that can be admitted: those with proof of work, apart from the genesis block. -/
def admissible (C : Crypto) (blocks : Set Block) : Set Block :=
  {block | block ∈ blocks ∧ block.hash C ≤ block.head.difficulty ∧
    block.hash C ≠ Blockchain.genesis.hash C}

variable {C : Crypto} {icoKey : Ed25519KeyPair}

theorem initial_contains {hash : H256} :
    (Shared.initial C icoKey).blockchain.value.blocks.containsKey hash = true ↔
      hash = Blockchain.genesis.hash C := by
  simp only [Shared.initial, Blockchain.new, HashMap.containsKey_insert, HashMap.containsKey_empty,
    Bool.false_eq_true, or_false]

theorem initial_live : Live .release (Shared.initial C icoKey) where
  release := rfl
  blockchain := rfl
  blockState := rfl
  states hash hstored := by
    rw [initial_contains] at hstored
    simp only [Shared.initial, HashMap.containsKey_insert]
    exact Or.inl hstored
  tip := by
    refine ⟨Blockchain.genesis, 0, HashMap.get_insert_self _ _ _, ?_⟩
    intro other otherBlock otherHeight hget
    have hother := initial_contains.mp (HashMap.containsKey_of_get hget)
    subst hother
    have hsame : some (Blockchain.genesis, 0) = some (otherBlock, otherHeight) :=
      (HashMap.get_insert_self _ _ _).symm.trans hget
    rw [(Prod.mk.inj (Option.some.inj hsame)).2]
    exact UInt32.le_refl _

theorem initial_orderly (icoKey : Ed25519KeyPair) {blocks : Set Block}
    (hdistinct : ∀ block ∈ blocks, ∀ other ∈ blocks, block.hash C = other.hash C → block = other) :
    Orderly C .release (Shared.initial C icoKey) (admissible C blocks) := by
  refine ⟨initial_live, fun block hblock => ?_, fun block hblock other hother => ?_⟩
  · cases hentry : (Shared.initial C icoKey).entry (block.hash C) with
    | none => exact hentry
    | some entry =>
        have hget := (Shared.entry_eq_some.mp hentry).1
        exact absurd (initial_contains.mp (HashMap.containsKey_of_get hget)) hblock.2.2
  · exact hdistinct block hblock.1 other hother.1

/-- A round of the worker cannot fail. -/
theorem deliver_round (geneLoop : GeneLoop) (peer : PeerId) {requests : Nat} {start : Shared}
    {pool : Set Block} {received orphanBlocks blocks : List Block} {node : IdleNode 1 requests}
    (horderly : Orderly C .release start pool)
    (hpool : ∀ block ∈ blocks, block.hash C ≤ block.head.difficulty →
      start.blockchain.value.blocks.containsKey (block.hash C) = false → block ∈ pool)
    (hthread : node.threads (.network 0) = .ok (.network orphanBlocks))
    (h : LoopInvariant C .release start pool received { orphanBlocks } 0 node.shared) :
    ∃ (next : IdleNode 1 requests) (orphanBlocks' : List Block),
      (nodeRounds C .release geneLoop).next node (.network 0) (.deliver peer (.blocks blocks)) =
        some next ∧
      next.threads (.network 0) = .ok (.network orphanBlocks') ∧
      LoopInvariant C .release start pool (received ++ blocks) { orphanBlocks := orphanBlocks' } 0
        next.shared := by
  have hwp : (NodeProgram.run C .release do
      let orphanBlocks ← handleMessage C .release peer orphanBlocks (.blocks blocks)
      pure (Task.network orphanBlocks)).wp
        (fun task s' => ∃ orphanBlocks', task = .network orphanBlocks' ∧
          LoopInvariant C .release start pool (received ++ blocks)
            { orphanBlocks := orphanBlocks' } 0 s')
        (fun _ _ => False) node.shared := by
    rw [NodeProgram.run, Program.run_bind, Effect.wp_bind]
    refine Effect.wp_mono (processBlocks_admits h hpool) ?_
      fun _ _ hstopped => hstopped.disorderly horderly
    exact fun orphanBlocks' _ hnext => ⟨orphanBlocks', rfl, hnext⟩
  obtain ⟨_, s', hrun, orphanBlocks', rfl, hnext⟩ := Effect.exists_ok_of_wp hwp
  refine ⟨_, orphanBlocks', Program.round_of_run hthread rfl hrun, ?_, hnext⟩
  simp only [Function.update_self]

/-- The worker handles any list of `Blocks` messages. -/
theorem deliverBlocks_run (geneLoop : GeneLoop) {requests : Nat} {start : Shared} {pool : Set Block}
    {received orphanBlocks : List Block} {node : IdleNode 1 requests}
    {messages : List (PeerId × List Block)} (horderly : Orderly C .release start pool)
    (hpool : ∀ message ∈ messages, ∀ block ∈ message.2, block.hash C ≤ block.head.difficulty →
      start.blockchain.value.blocks.containsKey (block.hash C) = false → block ∈ pool)
    (hthread : node.threads (.network 0) = .ok (.network orphanBlocks))
    (h : LoopInvariant C .release start pool received { orphanBlocks } 0 node.shared) :
    ∃ (final : IdleNode 1 requests) (orphanBlocks' : List Block),
      (nodeRounds C .release geneLoop).run (fun _ _ _ => true) node (deliverBlocks messages) =
        some final ∧
      final.threads (.network 0) = .ok (.network orphanBlocks') ∧
      LoopInvariant C .release start pool (received ++ messages.flatMap Prod.snd)
        { orphanBlocks := orphanBlocks' } 0 final.shared := by
  induction messages generalizing received orphanBlocks node with
  | nil => exact ⟨node, orphanBlocks, rfl, hthread, by simpa using h⟩
  | cons message rest ih =>
      obtain ⟨next, orphanBlocks', hround, hthread', h'⟩ :=
        deliver_round geneLoop message.1 horderly (hpool message List.mem_cons_self) hthread h
      obtain ⟨final, orphanBlocks'', hrest, hfinal, h''⟩ :=
        ih (fun other hmem => hpool other (List.mem_cons_of_mem _ hmem)) hthread' h'
      refine ⟨final, orphanBlocks'', ?_, hfinal, by simpa using h''⟩
      simp only [deliverBlocks, List.map_cons, Machine.run, if_true, hround, Option.bind_some]
      exact hrest

/-- A delivery of a set of blocks to a fresh node succeeds and settles its store. -/
theorem deliverBlocks_settles (geneLoop : GeneLoop) (icoKey : Ed25519KeyPair) (requests : Nat)
    {blocks : Set Block}
    {messages : List (PeerId × List Block)}
    (hdistinct : ∀ block ∈ blocks, ∀ other ∈ blocks, block.hash C = other.hash C → block = other)
    (hmessages : ∀ block, block ∈ blocks ↔ ∃ message ∈ messages, block ∈ message.2) :
    ∃ (node : IdleNode 1 requests) (orphanBlocks : List Block),
      (nodeRounds C .release geneLoop).run (fun _ _ _ => true)
        (IdleNode.start C icoKey 1 requests) (deliverBlocks messages) = some node ∧
      node.threads (.network 0) = .ok (.network orphanBlocks) ∧ Live .release node.shared ∧
      (admission C .release).Settled (Shared.initial C icoKey).entry (admissible C blocks)
        node.shared.entry := by
  have horderly := initial_orderly icoKey hdistinct
  have hfresh : ∀ message ∈ messages, ∀ block ∈ message.2, block.hash C ≤ block.head.difficulty →
      (Shared.initial C icoKey).blockchain.value.blocks.containsKey (block.hash C) = false →
      block ∈ admissible C blocks := by
    intro message hmessage block hblock hwork hmissing
    refine ⟨(hmessages block).mpr ⟨message, hmessage, hblock⟩, hwork, fun hgenesis => ?_⟩
    exact Bool.noConfusion (hmissing.symm.trans (initial_contains.mpr hgenesis))
  have hthread : (IdleNode.start C icoKey 1 requests).threads (.network 0) =
    .ok (.network []) := rfl
  have hbegin : LoopInvariant C .release (Shared.initial C icoKey) (admissible C blocks) []
      { orphanBlocks := [] } 0 (IdleNode.start C icoKey 1 requests).shared :=
    LoopInvariant.begin (by simp)
  obtain ⟨node, orphanBlocks, hrun, hthread, hinv⟩ :=
    deliverBlocks_run geneLoop horderly hfresh hthread hbegin
  refine ⟨node, orphanBlocks, hrun, hthread, hinv.memory.live horderly, ?_⟩
  refine hinv.settled horderly fun block hblock => ⟨?_, hblock.2.1⟩
  obtain ⟨message, hmessage, hmem⟩ := (hmessages block).mp hblock.1
  exact List.mem_append_right _ (List.mem_flatMap.mpr ⟨message, hmessage, hmem⟩)

/-- Live memories with the same entries store the same blocks, and the same states for them. -/
theorem Live.stores_eq {s s' : Shared} (h : Live .release s) (h' : Live .release s')
    (hentry : s.entry = s'.entry) :
    s.blockchain.value.blocks = s'.blockchain.value.blocks ∧
      ∀ hash, s.blockchain.value.blocks.containsKey hash = true →
        s.blockState.value.get hash = s'.blockState.value.get hash := by
  have hget : ∀ {s : Shared}, Live .release s → ∀ hash block height,
      s.blockchain.value.blocks.get hash = some (block, height) ↔
        ∃ state, s.entry hash = some ⟨block, height, state⟩ := by
    intro s h hash block height
    refine ⟨h.exists_entry, fun ⟨state, hstate⟩ => (Shared.entry_eq_some.mp hstate).1⟩
  constructor
  · refine HashMap.ext fun hash => Option.ext fun (block, height) => ?_
    rw [hget h, hget h', hentry]
  · intro hash hstored
    obtain ⟨⟨block, height⟩, hblock⟩ := HashMap.containsKey_iff.mp hstored
    obtain ⟨state, hstate⟩ := h.exists_entry hblock
    rw [(Shared.entry_eq_some.mp hstate).2, (Shared.entry_eq_some.mp (hentry ▸ hstate)).2]

/-- Highest blocks have the same height. -/
theorem Blockchain.Highest.height_eq {blockchain : Blockchain} {hash other : H256}
    (h : blockchain.Highest hash) (h' : blockchain.Highest other) :
    ∃ block otherBlock height, blockchain.blocks.get hash = some (block, height) ∧
      blockchain.blocks.get other = some (otherBlock, height) := by
  obtain ⟨block, height, hget, hmax⟩ := h
  obtain ⟨otherBlock, otherHeight, hget', hmax'⟩ := h'
  have hsame := UInt32.le_antisymm (hmax _ _ _ hget') (hmax' _ _ _ hget)
  exact ⟨block, otherBlock, height, hget, hsame ▸ hget'⟩

/-- Two deliveries of the same blocks leave the same blocks, heights, states and tip
height, and with a single highest block the same longest chain. -/
theorem deliveryOrder_irrelevant (C : Crypto) (geneLoop : GeneLoop) (icoKey : Ed25519KeyPair)
    (requests : Nat) (blocks : Set Block)
    (hdistinct : ∀ block ∈ blocks, ∀ other ∈ blocks, block.hash C = other.hash C → block = other)
    (messages messages' : List (PeerId × List Block))
    (hmessages : ∀ block, block ∈ blocks ↔ ∃ message ∈ messages, block ∈ message.2)
    (hmessages' : ∀ block, block ∈ blocks ↔ ∃ message ∈ messages', block ∈ message.2) :
    ∃ (node node' : IdleNode 1 requests) (orphanBlocks orphanBlocks' : List Block),
      (nodeRounds C .release geneLoop).run (fun _ _ _ => true)
        (IdleNode.start C icoKey 1 requests) (deliverBlocks messages) = some node ∧
      (nodeRounds C .release geneLoop).run (fun _ _ _ => true)
        (IdleNode.start C icoKey 1 requests) (deliverBlocks messages') = some node' ∧
      node.threads (.network 0) = .ok (.network orphanBlocks) ∧
      node'.threads (.network 0) = .ok (.network orphanBlocks') ∧
      node.shared.blockchain.value.blocks = node'.shared.blockchain.value.blocks ∧
      (∀ hash, node.shared.blockchain.value.blocks.containsKey hash = true →
        node.shared.blockState.value.get hash = node'.shared.blockState.value.get hash) ∧
      (∃ tip tip' height,
        node.shared.blockchain.value.blocks.get node.shared.blockchain.value.tip =
          some (tip, height) ∧
        node'.shared.blockchain.value.blocks.get node'.shared.blockchain.value.tip =
          some (tip', height)) ∧
      ((∃! hash, node.shared.blockchain.value.Highest hash) →
        node.shared.blockchain.value.tip = node'.shared.blockchain.value.tip ∧
        node.shared.blockchain.value.allBlocksInLongestChain =
          node'.shared.blockchain.value.allBlocksInLongestChain) := by
  obtain ⟨node, orphanBlocks, hrun, hthread, hlive, hsettled⟩ :=
    deliverBlocks_settles geneLoop icoKey requests hdistinct hmessages
  obtain ⟨node', orphanBlocks', hrun', hthread', hlive', hsettled'⟩ :=
    deliverBlocks_settles geneLoop icoKey requests hdistinct hmessages'
  have horderly := initial_orderly icoKey hdistinct
  -- Both orders derive their entries from the same blocks.
  have hentry := hsettled.unique horderly.2 hsettled'
  obtain ⟨hblocks, hstates⟩ := hlive.stores_eq hlive' hentry
  have htip' : node.shared.blockchain.value.Highest node'.shared.blockchain.value.tip := by
    have htip := hlive'.tip
    unfold Blockchain.Highest at htip ⊢
    rwa [hblocks]
  refine ⟨node, node', orphanBlocks, orphanBlocks', hrun, hrun', hthread, hthread', hblocks,
    hstates, ?_, ?_⟩
  · rw [← hblocks]
    exact hlive.tip.height_eq htip'
  · rintro ⟨highest, _, hunique⟩
    have htip : node.shared.blockchain.value.tip = node'.shared.blockchain.value.tip :=
      (hunique _ hlive.tip).trans (hunique _ htip').symm
    have hchain : node.shared.blockchain.value = node'.shared.blockchain.value := by
      cases hnode : node.shared.blockchain.value
      cases hnode' : node'.shared.blockchain.value
      rw [hnode, hnode'] at hblocks htip
      exact congr (congrArg Blockchain.mk hblocks) htip
    exact ⟨htip, congrArg Blockchain.allBlocksInLongestChain hchain⟩

theorem deliveryOrder_irrelevant_childFirst :
    ∃ node node' : IdleNode 1 0,
      (nodeRounds .sample .release sampleGeneLoop).run (fun _ _ _ => true)
        (IdleNode.start .sample Crypto.sampleKey 1 0)
        (deliverBlocks [(0, [uncommittedBlock]), (1, [childBlock])]) = some node ∧
      (nodeRounds .sample .release sampleGeneLoop).run (fun _ _ _ => true)
        (IdleNode.start .sample Crypto.sampleKey 1 0)
        (deliverBlocks [(0, [childBlock, uncommittedBlock, childBlock])]) = some node' ∧
      node.shared.blockchain.value.blocks = node'.shared.blockchain.value.blocks := by
  have hdistinct : ∀ block ∈ ({uncommittedBlock, childBlock} : Set Block),
      ∀ other ∈ ({uncommittedBlock, childBlock} : Set Block),
      block.hash .sample = other.hash .sample → block = other := by
    have hne : uncommittedBlock.hash .sample ≠ childBlock.hash .sample := by decide +kernel
    rintro _ (rfl | rfl) _ (rfl | rfl) heq
    · rfl
    · exact absurd heq hne
    · exact absurd heq.symm hne
    · rfl
  obtain ⟨node, node', _, _, hrun, hrun', _, _, hblocks, _⟩ :=
    deliveryOrder_irrelevant .sample sampleGeneLoop Crypto.sampleKey 0
      {uncommittedBlock, childBlock} hdistinct [(0, [uncommittedBlock]), (1, [childBlock])]
      [(0, [childBlock, uncommittedBlock, childBlock])] (by simp)
      (by intro block; simp; tauto)
  exact ⟨node, node', hrun, hrun', hblocks⟩

end BitcoinClient
