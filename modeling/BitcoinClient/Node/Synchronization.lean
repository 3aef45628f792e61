import BitcoinClient.Network.CatchUp
import BitcoinClient.Node.Consensus
import BitcoinClient.Node.Peers

/-! # Block synchronisation completes

A node that stores checked blocks announces one of them to a node that follows it. At any
time one message is in flight (`Phase`). The follower asks for the announced block and then
for the parent of each block that it receives, until a parent is stored; it admits them all
and announces them in turn, which needs no answer.
-/

namespace BitcoinClient

variable {workers requests requests' : Nat}

/-- A node that does nothing but handle the messages of the other node. -/
abbrev silentNode (C : Crypto) (build : Build) (geneLoop : GeneLoop) (workers requests : Nat) :
    Party (IdleNode workers requests) Message (Fin workers) Empty :=
  peerNode C build geneLoop Empty.elim

section Definitions

variable (C : Crypto) (build : Build)

/-- A node with the blocks and the states of `source` and a network worker that has not stopped. -/
structure Serving (source : Shared) (node : IdleNode workers requests) : Prop where
  blockchain : node.shared.blockchain = source.blockchain
  blockState : node.shared.blockState = source.blockState
  worker : ∃ who orphanBlocks, node.threads (.network who) = .ok (.network orphanBlocks)

/-- A node whose only network worker has these orphans. -/
structure Receiving (source : Shared) (orphanBlocks : List Block) (node : IdleNode 1 requests) :
    Prop where
  follows : Follows C source node.shared
  worker : node.threads (.network 0) = .ok (.network orphanBlocks)

/-- The orphans of the node lead down to the block, which is missing like them. -/
structure Awaiting (source : Shared) (target : H256) (orphanBlocks : List Block) (block : Block)
    (count : Nat) (node : IdleNode 1 requests) : Prop extends
    Receiving C source orphanBlocks node where
  descent : Descent C target orphanBlocks (block.hash C)
  orphans : ∀ orphan ∈ orphanBlocks, Missing C build source node.shared orphan
  missing : Missing C build source node.shared block
  lag : Lag C build source node.shared block.head.parent count

/-- The message in flight, with a bound on the messages that are still to be handled. -/
inductive Phase (source : Shared) (target : H256) :
    Exchange (IdleNode workers requests) (IdleNode 1 requests') Message → Nat → Prop
  | announced {left : IdleNode workers requests} {right : IdleNode 1 requests'} {count : Nat} :
      Serving source left → Receiving C source [] right →
      Lag C build source right.shared target count →
      Phase source target ⟨left, right, [], [.newBlockHashes [target]]⟩ (2 * count + 2)
  | requested {left : IdleNode workers requests} {right : IdleNode 1 requests'}
      {orphanBlocks : List Block} {block : Block} {count : Nat} :
      Serving source left → Awaiting C build source target orphanBlocks block count right →
      Phase source target ⟨left, right, [.getBlocks [block.hash C]], []⟩ (2 * count + 3)
  | answered {left : IdleNode workers requests} {right : IdleNode 1 requests'}
      {orphanBlocks : List Block} {block : Block} {count : Nat} :
      Serving source left → Awaiting C build source target orphanBlocks block count right →
      Phase source target ⟨left, right, [], [.blocks [block]]⟩ (2 * count + 2)
  | confirmed {left : IdleNode workers requests} {right : IdleNode 1 requests'}
      {hashes : List H256} : Serving source left → Receiving C source [] right →
      right.shared.blockchain.value.blocks.containsKey target = true →
      (∀ hash ∈ hashes, source.blockchain.value.blocks.containsKey hash = true) →
      Phase source target ⟨left, right, [.newBlockHashes hashes], []⟩ 1
  | done {left : IdleNode workers requests} {right : IdleNode 1 requests'} :
      Serving source left → Receiving C source [] right →
      right.shared.blockchain.value.blocks.containsKey target = true →
      Phase source target ⟨left, right, [], []⟩ 0

/-- The follower has the block and its ancestors as the source has them, and no orphans. -/
structure Synchronized (source : Shared) (target : H256)
    (exchange : Exchange (IdleNode workers requests) (IdleNode 1 requests') Message) : Prop where
  left : exchange.left.shared.entry = source.entry
  orphans : exchange.right.threads (.network 0) = .ok (.network [])
  stored : ∀ hash, Ancestor C source target hash →
    ∃ entry, exchange.right.shared.entry hash = some entry ∧ source.entry hash = some entry

end Definitions

variable {C : Crypto} {build : Build} (geneLoop : GeneLoop) {source : Shared}

/-! ## The source -/

section Source

variable {left : IdleNode workers requests} {who : Fin workers} {orphanBlocks : List Block}

/-- The source answers a request for a block and stays as it is. -/
theorem Serving.handle_getBlocks (h : Serving source left)
    (husable : source.blockchain.poisoned = false)
    (hthread : left.threads (.network who) = .ok (.network orphanBlocks)) {block : Block}
    {height : UInt32}
    (hget : source.blockchain.value.blocks.get (block.hash C) = some (block, height)) :
    ∃ left', (silentNode C build geneLoop workers requests).handle left who
        (.getBlocks [block.hash C]) = some (left', [.blocks [block]]) ∧ Serving source left' := by
  rw [← h.blockchain] at husable hget
  obtain ⟨_, left', hhandle, hthreads, _, hshared⟩ :=
    peerNode_handle hthread (handleGetBlocks_wp husable hget)
  refine ⟨left', ?_, ?_, ?_, who, _, worker_of_update hthreads⟩
  · rw [hshared, List.drop_left] at hhandle
    exact hhandle
  · rw [hshared]
    exact h.blockchain
  · rw [hshared]
    exact h.blockState

/-- The source needs none of its own blocks. -/
theorem Serving.handle_newBlockHashes (build : Build) (h : Serving source left)
    (husable : source.blockchain.poisoned = false)
    (hthread : left.threads (.network who) = .ok (.network orphanBlocks)) {hashes : List H256}
    (hknown : ∀ hash ∈ hashes, source.blockchain.value.blocks.containsKey hash = true) :
    ∃ left', (silentNode C build geneLoop workers requests).handle left who
        (.newBlockHashes hashes) = some (left', []) ∧ Serving source left' := by
  rw [← h.blockchain] at husable hknown
  obtain ⟨_, left', hhandle, hthreads, _, hshared⟩ :=
    peerNode_handle hthread (handleNewBlockHashes_wp husable hashes)
  have hnothing : (hashes.filter fun hash =>
      !left.shared.blockchain.value.blocks.containsKey hash) = [] := by
    rw [List.filter_eq_nil_iff]
    intro hash hmem
    rw [hknown hash hmem]
    exact Bool.false_ne_true
  rw [if_pos hnothing] at hshared
  refine ⟨left', ?_, ?_, ?_, who, _, worker_of_update hthreads⟩
  · rw [hshared, List.drop_length] at hhandle
    exact hhandle
  · rw [hshared]
    exact h.blockchain
  · rw [hshared]
    exact h.blockState

end Source

/-! ## The follower -/

section Follower

variable {right : IdleNode 1 requests'} {target : H256} {orphanBlocks : List Block} {block : Block}
  {count : Nat}

/-- The follower needs nothing when it stores the announced block. -/
theorem Receiving.handle_known (build : Build) (h : Receiving C source [] right)
    (hstored : right.shared.blockchain.value.blocks.containsKey target = true) :
    ∃ right', (silentNode C build geneLoop 1 requests').handle right 0 (.newBlockHashes [target]) =
        some (right', []) ∧ Receiving C source [] right' ∧ right'.shared = right.shared := by
  obtain ⟨_, right', hhandle, hthreads, rfl, hshared⟩ :=
    peerNode_handle h.worker (handleNewBlockHashes_wp h.follows.blockchain [target])
  have hnothing : ([target].filter fun hash =>
      !right.shared.blockchain.value.blocks.containsKey hash) = [] := by simp [hstored]
  rw [if_pos hnothing] at hshared
  refine ⟨right', ?_, ⟨hshared ▸ h.follows, worker_of_update hthreads⟩, hshared⟩
  rw [hshared, List.drop_length] at hhandle
  exact hhandle

/-- The follower asks for an announced block that it misses. -/
theorem Receiving.handle_missing (h : Receiving C source [] right)
    (hmissing : Missing C build source right.shared block)
    (hlag : Lag C build source right.shared block.head.parent count) :
    ∃ right', (silentNode C build geneLoop 1 requests').handle right 0
        (.newBlockHashes [block.hash C]) = some (right', [.getBlocks [block.hash C]]) ∧
      Awaiting C build source (block.hash C) [] block count right' := by
  obtain ⟨_, right', hhandle, hthreads, rfl, hshared⟩ :=
    peerNode_handle h.worker (handleNewBlockHashes_wp h.follows.blockchain [block.hash C])
  have hasked : ([block.hash C].filter fun hash =>
      !right.shared.blockchain.value.blocks.containsKey hash) = [block.hash C] := by
    simp [hmissing.missing]
  rw [hasked, if_neg (List.cons_ne_nil _ _)] at hshared
  have hsame : right'.shared.blockchain = right.shared.blockchain := by rw [hshared]
  have hreceiving : Receiving C source [] right' :=
    ⟨hshared ▸ h.follows.send _, worker_of_update hthreads⟩
  refine ⟨right', ?_, ⟨hreceiving, .refl, List.forall_mem_nil _,
    hmissing.of_blockchain hsame, hlag.of_blockchain hsame⟩⟩
  rw [hshared, List.drop_left] at hhandle
  exact hhandle

/-- A block whose parent is missing waits, and its parent is asked for. -/
theorem Awaiting.handle_keeps {parent : Block} {less : Nat}
    (h : Awaiting C build source target orphanBlocks block (less + 1) right)
    (hparent : block.head.parent = parent.hash C)
    (hmissing : Missing C build source right.shared parent)
    (hlag : Lag C build source right.shared parent.head.parent less) :
    ∃ right', (silentNode C build geneLoop 1 requests').handle right 0 (.blocks [block]) =
        some (right', [.getBlocks [parent.hash C]]) ∧
      Awaiting C build source target (orphanBlocks ++ [block]) parent less right' := by
  obtain ⟨_, right', hhandle, hthreads, rfl, hshared⟩ :=
    peerNode_handle h.worker (handleBlocks_keeps h.follows h.missing (hparent ▸ hmissing.missing))
  have hsame : right'.shared.blockchain = right.shared.blockchain := by rw [hshared]
  have hreceiving : Receiving C source (orphanBlocks ++ [block]) right' :=
    ⟨hshared ▸ h.follows.send _, worker_of_update hthreads⟩
  refine ⟨right', ?_, ⟨hreceiving, hparent ▸ h.descent.parent, ?_,
    hmissing.of_blockchain hsame, hlag.of_blockchain hsame⟩⟩
  · rw [hshared, List.drop_left, hparent] at hhandle
    exact hhandle
  · refine List.forall_mem_append.mpr ⟨fun orphan hmem => ?_, fun other hmem => ?_⟩
    · exact (h.orphans orphan hmem).of_blockchain hsame
    · exact List.mem_singleton.mp hmem ▸ h.missing.of_blockchain hsame

/-- A block whose parent is stored is admitted with all the orphans, and announced. -/
theorem Awaiting.handle_admits
    (h : Awaiting C build source target orphanBlocks block count right)
    (hparent : right.shared.blockchain.value.blocks.containsKey block.head.parent = true) :
    ∃ right' hashes, (silentNode C build geneLoop 1 requests').handle right 0 (.blocks [block]) =
        some (right', [.newBlockHashes hashes]) ∧ Receiving C source [] right' ∧
      right'.shared.blockchain.value.blocks.containsKey target = true ∧
      ∀ hash ∈ hashes, source.blockchain.value.blocks.containsKey hash = true := by
  have hmissing : ∀ orphan ∈ orphanBlocks ++ [block],
      Missing C build source right.shared orphan :=
    List.forall_mem_append.mpr
      ⟨h.orphans, fun other hmem => List.mem_singleton.mp hmem ▸ h.missing⟩
  have hdistinct := h.descent.parent.distinct hmissing h.lag
  obtain ⟨_, right', hhandle, hthreads, rfl, hfollows, htarget, hashes, hsent, hknown⟩ :=
    peerNode_handle h.worker
      (handleBlocks_admits h.follows h.missing hparent h.descent h.orphans hdistinct)
  refine ⟨right', hashes, ?_, ⟨hfollows, worker_of_update hthreads⟩, htarget, fun hash hmem => ?_⟩
  · rw [hsent, List.drop_left] at hhandle
    exact hhandle
  · obtain ⟨entry, _, hsource⟩ := hfollows.entries hash (hknown hash hmem)
    exact HashMap.containsKey_of_get (Shared.entry_eq_some.mp hsource).1

end Follower

/-! ## Both together -/

section Phases

variable (geneLoop' : GeneLoop) {target : H256} {bound : Nat}
  {exchange following : Exchange (IdleNode workers requests) (IdleNode 1 requests') Message}

/-- Handling a message leads to a later phase. -/
theorem Phase.next (husable : source.blockchain.poisoned = false)
    (h : Phase C build source target exchange bound)
    {step : Exchange.Step (Fin workers) Empty (Fin 1) Empty} (hstep : step.isHandling = true)
    (hnext : exchange.next (silentNode C build geneLoop workers requests)
      (silentNode C build geneLoop' 1 requests') step = some following) :
    ∃ lower < bound, Phase C build source target following lower := by
  cases h with
  | @announced left right count hserving hreceiving hlag =>
      obtain ⟨who, right', sent, hhandle, rfl⟩ := Exchange.next_of_toRight hstep hnext
      obtain rfl : who = 0 := Subsingleton.elim _ _
      -- The follower has the block already, or asks for it.
      rcases hlag.cases with hstored | ⟨block, less, rfl, rfl, hmissing, hlag⟩
      · obtain ⟨_, hhandle', hreceiving', hsame⟩ := hreceiving.handle_known geneLoop' build hstored
        obtain ⟨rfl, rfl⟩ := Prod.mk.inj (Option.some.inj (hhandle.symm.trans hhandle'))
        exact ⟨0, Nat.succ_pos _, .done hserving hreceiving' (hsame ▸ hstored)⟩
      · obtain ⟨_, hhandle', hawaiting⟩ := hreceiving.handle_missing geneLoop' hmissing hlag
        obtain ⟨rfl, rfl⟩ := Prod.mk.inj (Option.some.inj (hhandle.symm.trans hhandle'))
        exact ⟨2 * less + 3, by omega, .requested hserving hawaiting⟩
  | @requested left right orphanBlocks block count hserving hawaiting =>
      obtain ⟨who, left', sent, hhandle, rfl⟩ := Exchange.next_of_toLeft hstep hnext
      obtain ⟨_, hthread⟩ := peerNode_handle_thread hhandle
      obtain ⟨height, hget⟩ := hawaiting.missing.get
      obtain ⟨_, hhandle', hserving'⟩ := hserving.handle_getBlocks geneLoop husable hthread hget
      obtain ⟨rfl, rfl⟩ := Prod.mk.inj (Option.some.inj (hhandle.symm.trans hhandle'))
      exact ⟨2 * count + 2, Nat.lt_succ_self _, .answered hserving' hawaiting⟩
  | @answered left right orphanBlocks block count hserving hawaiting =>
      obtain ⟨who, right', sent, hhandle, rfl⟩ := Exchange.next_of_toRight hstep hnext
      obtain rfl : who = 0 := Subsingleton.elim _ _
      -- Its parent is there and it is admitted, or it waits and the parent is asked for.
      rcases hawaiting.lag.cases with hstored | ⟨parent, less, hparent, rfl, hmissing, hlag⟩
      · obtain ⟨_, hashes, hhandle', hreceiving, htarget, hknown⟩ :=
          hawaiting.handle_admits geneLoop' hstored
        obtain ⟨rfl, rfl⟩ := Prod.mk.inj (Option.some.inj (hhandle.symm.trans hhandle'))
        exact ⟨1, by omega, .confirmed hserving hreceiving htarget hknown⟩
      · obtain ⟨_, hhandle', hawaiting'⟩ := hawaiting.handle_keeps geneLoop' hparent hmissing hlag
        obtain ⟨rfl, rfl⟩ := Prod.mk.inj (Option.some.inj (hhandle.symm.trans hhandle'))
        exact ⟨2 * less + 3, by omega, .requested hserving hawaiting'⟩
  | @confirmed left right hashes hserving hreceiving htarget hknown =>
      obtain ⟨who, left', sent, hhandle, rfl⟩ := Exchange.next_of_toLeft hstep hnext
      obtain ⟨_, hthread⟩ := peerNode_handle_thread hhandle
      obtain ⟨_, hhandle', hserving'⟩ :=
        hserving.handle_newBlockHashes geneLoop build husable hthread hknown
      obtain ⟨rfl, rfl⟩ := Prod.mk.inj (Option.some.inj (hhandle.symm.trans hhandle'))
      exact ⟨0, Nat.zero_lt_one, .done hserving' hreceiving htarget⟩
  | done hserving hreceiving htarget =>
      rw [Exchange.Quiet.next_eq_none ⟨rfl, rfl⟩ hstep] at hnext
      cases hnext

/-- The message in flight can be handled; without one, the follower has caught up. -/
theorem Phase.progress (husable : source.blockchain.poisoned = false)
    (h : Phase C build source target exchange bound) :
    exchange.Quiet ∧ Synchronized C source target exchange ∨
      ∃ step, step.isHandling = true ∧ (exchange.next (silentNode C build geneLoop workers requests)
        (silentNode C build geneLoop' 1 requests') step).isSome = true := by
  cases h with
  | @announced left right count hserving hreceiving hlag =>
      refine Or.inr ⟨.handleRight 0, rfl, ?_⟩
      rcases hlag.cases with hstored | ⟨block, less, rfl, rfl, hmissing, hlag⟩
      · obtain ⟨_, hhandle, _⟩ := hreceiving.handle_known geneLoop' build hstored
        exact Exchange.isSome_handleRight rfl hhandle
      · obtain ⟨_, hhandle, _⟩ := hreceiving.handle_missing geneLoop' hmissing hlag
        exact Exchange.isSome_handleRight rfl hhandle
  | @requested left right orphanBlocks block count hserving hawaiting =>
      obtain ⟨who, _, hthread⟩ := hserving.worker
      obtain ⟨height, hget⟩ := hawaiting.missing.get
      obtain ⟨_, hhandle, _⟩ := hserving.handle_getBlocks geneLoop husable hthread hget
      exact Or.inr ⟨.handleLeft who, rfl, Exchange.isSome_handleLeft rfl hhandle⟩
  | @answered left right orphanBlocks block count hserving hawaiting =>
      refine Or.inr ⟨.handleRight 0, rfl, ?_⟩
      rcases hawaiting.lag.cases with hstored | ⟨parent, less, hparent, rfl, hmissing, hlag⟩
      · obtain ⟨_, hashes, hhandle, _⟩ := hawaiting.handle_admits geneLoop' hstored
        exact Exchange.isSome_handleRight rfl hhandle
      · obtain ⟨_, hhandle, _⟩ := hawaiting.handle_keeps geneLoop' hparent hmissing hlag
        exact Exchange.isSome_handleRight rfl hhandle
  | @confirmed left right hashes hserving hreceiving htarget hknown =>
      obtain ⟨who, _, hthread⟩ := hserving.worker
      obtain ⟨_, hhandle, _⟩ := hserving.handle_newBlockHashes geneLoop build husable hthread hknown
      exact Or.inr ⟨.handleLeft who, rfl, Exchange.isSome_handleLeft rfl hhandle⟩
  | @done left right hserving hreceiving htarget =>
      refine Or.inl ⟨⟨rfl, rfl⟩, ?_, hreceiving.worker, fun hash hancestor => ?_⟩
      · funext hash
        simp only [Shared.entry, hserving.blockchain, hserving.blockState]
      · exact hreceiving.follows.entries hash (hreceiving.follows.ancestor htarget hancestor)

/-- A node whose stored blocks all passed the checks announces one of them to a node that
follows it. However the messages are handled, finitely many are, and when none is left the
follower stores the block and all its ancestors as the first node has them, with an empty
orphan buffer. -/
theorem synchronization_settles (C : Crypto) (build : Build) (geneLoop geneLoop' : GeneLoop)
    (workers requests requests' : Nat) (left : IdleNode workers requests)
    (right : IdleNode 1 requests') (husable : left.shared.blockchain.poisoned = false)
    (hworker : ∃ who orphanBlocks, left.threads (.network who) = .ok (.network orphanBlocks))
    (hchecked : ∀ hash, left.shared.blockchain.value.blocks.containsKey hash = true →
      ∃ entry, Checked C build left.shared hash entry)
    (hfollows : Follows C left.shared right.shared)
    (hempty : right.threads (.network 0) = .ok (.network [])) (target : H256)
    (hstored : left.shared.blockchain.value.blocks.containsKey target = true) :
    Exchange.Settles (silentNode C build geneLoop workers requests)
      (silentNode C build geneLoop' 1 requests') (Synchronized C left.shared target)
      { left, right, toRight := [.newBlockHashes [target]] } := by
  obtain ⟨entry, hentry⟩ := hchecked target hstored
  obtain ⟨count, hlag⟩ := hentry.exists_lag hfollows
  have hstart : Phase C build left.shared target
      { left, right, toRight := [.newBlockHashes [target]] } (2 * count + 2) :=
    .announced ⟨rfl, rfl, hworker⟩ ⟨hfollows, hempty⟩ hlag
  refine Exchange.settles_of_rank (Phase C build left.shared target) ?_ ?_ hstart
  · intro exchange bound step following hphase hstep hnext
    exact hphase.next geneLoop geneLoop' husable hstep hnext
  · intro exchange bound hphase
    exact hphase.progress geneLoop geneLoop' husable

end Phases

/-- The memory of a node with two blocks on the genesis block. -/
def twoBlocks : Shared :=
  { Shared.initial .sample Crypto.sampleKey with
    blockchain := ⟨⟨((Blockchain.new .sample).blocks.insert (uncommittedBlock.hash .sample)
      (uncommittedBlock, 1)).insert (childBlock.hash .sample) (childBlock, 2),
      childBlock.hash .sample⟩, false⟩
    blockState := ⟨((Shared.initial .sample Crypto.sampleKey).blockState.value.insert
      (uncommittedBlock.hash .sample) (State.new .sample Crypto.sampleKey)).insert
      (childBlock.hash .sample) (State.new .sample Crypto.sampleKey), false⟩ }

theorem twoBlocks_checked {hash : H256}
    (hstored : twoBlocks.blockchain.value.blocks.containsKey hash = true) :
    ∃ entry, Checked .sample .release twoBlocks hash entry := by
  have hgenesis : Checked .sample .release twoBlocks (Blockchain.genesis.hash .sample)
      ⟨Blockchain.genesis, 0, State.new .sample Crypto.sampleKey⟩ :=
    .genesis (Shared.entry_eq_some.mpr ⟨by decide +kernel, by decide +kernel⟩)
  have hparent : Checked .sample .release twoBlocks (uncommittedBlock.hash .sample)
      ⟨uncommittedBlock, 1, State.new .sample Crypto.sampleKey⟩ :=
    .child hgenesis (Shared.entry_eq_some.mpr ⟨by decide +kernel, by decide +kernel⟩)
      (by decide +kernel) (admission_extend rfl rfl rfl)
  have hchild : Checked .sample .release twoBlocks (childBlock.hash .sample)
      ⟨childBlock, 2, State.new .sample Crypto.sampleKey⟩ :=
    .child hparent (Shared.entry_eq_some.mpr ⟨by decide +kernel, by decide +kernel⟩)
      (by decide +kernel) (admission_extend rfl rfl rfl)
  simp only [twoBlocks, HashMap.containsKey_insert] at hstored
  rcases hstored with rfl | rfl | hstored
  · exact ⟨_, hchild⟩
  · exact ⟨_, hparent⟩
  · change (Shared.initial .sample Crypto.sampleKey).blockchain.value.blocks.containsKey hash = true
      at hstored
    obtain rfl := initial_contains.mp hstored
    exact ⟨_, hgenesis⟩

/-- A fresh node follows it. -/
theorem initial_follows :
    Follows .sample twoBlocks (Shared.initial .sample Crypto.sampleKey) where
  blockchain := rfl
  blockState := rfl
  entries hash hstored := by
    obtain rfl := initial_contains.mp hstored
    exact ⟨⟨Blockchain.genesis, 0, State.new .sample Crypto.sampleKey⟩,
      Shared.entry_eq_some.mpr ⟨by decide +kernel, by decide +kernel⟩,
      Shared.entry_eq_some.mpr ⟨by decide +kernel, by decide +kernel⟩⟩
  genesis := initial_contains.mpr rfl
  closed hash entry hentry hne := by
    have hget := (Shared.entry_eq_some.mp hentry).1
    exact absurd (initial_contains.mp (HashMap.containsKey_of_get hget)) hne
  tip := initial_contains.mpr rfl

theorem synchronization_settles_childBlock :
    Exchange.Settles (silentNode .sample .release sampleGeneLoop 1 0)
      (silentNode .sample .release sampleGeneLoop 1 0)
      (Synchronized .sample twoBlocks (childBlock.hash .sample))
      { left := ⟨twoBlocks, fun who => .ok (.start who)⟩
        right := IdleNode.start .sample Crypto.sampleKey 1 0
        toRight := [.newBlockHashes [childBlock.hash .sample]] } :=
  synchronization_settles .sample .release sampleGeneLoop sampleGeneLoop 1 0 0
    ⟨twoBlocks, fun who => .ok (.start who)⟩ (IdleNode.start .sample Crypto.sampleKey 1 0) rfl
    ⟨0, [], rfl⟩ (fun _ => twoBlocks_checked) initial_follows rfl (childBlock.hash .sample)
    (by decide +kernel)

end BitcoinClient
