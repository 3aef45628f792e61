import BitcoinClient.Node.ChainContract
import BitcoinClient.Node.Rounds

/-! # Rounds that have nothing to do with blocks

The miner, the generator, the requests and most messages leave the block tree and the ledger
states as they are, with their locks, and send nothing about blocks. The rounds of those
threads never panic unless a lock is poisoned.
-/

namespace BitcoinClient

open NodeProgram (call)

/-- The messages by which nodes exchange blocks. -/
def Message.isAboutBlocks : Message → Bool
  | .newBlockHashes _ | .getBlocks _ | .blocks _ => true
  | _ => false

def Sent.message : Sent → Message
  | .write _ _ reply => reply
  | .broadcast message => message

/-- The operations that keep aside whatever the memory is. -/
def Op.isAside : Op → Bool
  | getBlock _ | insertBlock _ | longestChain | answerNewBlockHashes .. | answerGetBlocks ..
  | readBlockState _ | writeBlockState .. => false
  | send message => !message.message.isAboutBlocks
  | _ => true

/-- Those of them that only panic on a poisoned lock. -/
def Op.isSafe : Op → Bool
  | mempoolGet _ | panic _ => false
  | op => op.isAside

/-- No lock is poisoned. -/
structure Usable (s : Shared) : Prop where
  blockchain : s.blockchain.poisoned = false
  blockState : s.blockState.poisoned = false
  mempool : s.mempool.poisoned = false

/-- The blocks and their states are as before, and nothing about blocks was sent. -/
structure Aside (s s' : Shared) : Prop where
  blockchain : s'.blockchain = s.blockchain
  blockState : s'.blockState = s.blockState
  sent : ∃ new, s'.sent = s.sent ++ new ∧ ∀ sent ∈ new, sent.message.isAboutBlocks = false

/-- A memory in which the walks down the tree find all blocks. -/
structure Walkable (s : Shared) : Prop where
  tip : s.blockchain.value.blocks.containsKey s.blockchain.value.tip = true
  states : ∀ hash, s.blockchain.value.blocks.containsKey hash = true →
    s.blockState.value.containsKey hash = true
  heights : ∀ hash block height, s.blockchain.value.blocks.get hash = some (block, height) →
    Descends s.blockchain.value.blocks height.toNat hash

/-- Nor does a lock get poisoned. -/
structure Unharmed (s s' : Shared) : Prop extends Aside s s' where
  usable : Usable s → Usable s'

/-- A program that keeps aside when nobody interferes, and only stops at a poisoned lock. -/
abbrev NodeProgram.KeepsAside {α : Type} (C : Crypto) (build : Build) (program : NodeProgram α)
    (s : Shared) : Prop :=
  (program.run C build).wp (fun _ s' => Unharmed s s') (fun _ s' => Aside s s' ∧ ¬ Usable s) s

variable {C : Crypto} {build : Build} {s s' s'' : Shared} {α β : Type}

namespace Aside

theorem refl (s : Shared) : Aside s s := ⟨rfl, rfl, [], (List.append_nil _).symm, nofun⟩

theorem trans (h : Aside s s') (h' : Aside s' s'') : Aside s s'' := by
  obtain ⟨new, hsent, hnew⟩ := h.sent
  obtain ⟨later, hsent', hlater⟩ := h'.sent
  refine ⟨h'.blockchain.trans h.blockchain, h'.blockState.trans h.blockState, new ++ later, ?_, ?_⟩
  · rw [hsent', hsent, List.append_assoc]
  · exact List.forall_mem_append.mpr ⟨hnew, hlater⟩

/-- Nothing is sent. -/
theorem of_sent_eq (hblockchain : s'.blockchain = s.blockchain)
    (hblockState : s'.blockState = s.blockState) (hsent : s'.sent = s.sent) : Aside s s' :=
  ⟨hblockchain, hblockState, [], hsent.trans (List.append_nil _).symm, nofun⟩

theorem walkable (h : Aside s s') (hwalk : Walkable s) : Walkable s' := by
  obtain ⟨htip, hstates, hheights⟩ := hwalk
  rw [← h.blockchain] at htip hstates hheights
  rw [← h.blockState] at hstates
  exact ⟨htip, hstates, hheights⟩

end Aside

namespace Unharmed

theorem refl (s : Shared) : Unharmed s s := ⟨.refl s, id⟩

theorem trans (h : Unharmed s s') (h' : Unharmed s' s'') : Unharmed s s'' :=
  ⟨h.toAside.trans h'.toAside, fun husable => h'.usable (h.usable husable)⟩

end Unharmed

/-! ## Operations and programs -/

theorem aside_withMempool {body : Mempool → Except Panic (α × Mempool)} :
    (withMempool body).wp (fun _ s' => Aside s s') (fun _ s' => Aside s s') s := by
  rw [wp_withMempool]
  refine ⟨fun _ => .refl s, fun _ => ?_⟩
  split
  next => exact .of_sent_eq rfl rfl rfl
  next => exact .of_sent_eq rfl rfl rfl

variable (C build) in
theorem Op.aside (op : Op) (h : op.isAside = true) :
    (op.action C build).wp (fun _ s' => Aside s s') (fun _ s' => Aside s s') s := by
  cases op with
  | containsBlock hash => exact (wp_containsBlock hash).mpr ⟨fun _ => .refl s, fun _ => .refl s⟩
  | readTip => exact wp_readTip.mpr ⟨fun _ => .refl s, fun _ => .refl s⟩
  | getBlock hash => cases h
  | insertBlock block => cases h
  | longestChain => cases h
  | answerNewBlockHashes peer hashes => cases h
  | answerGetBlocks peer hashes => cases h
  | readBlockState hash => cases h
  | writeBlockState hash state => cases h
  | mempoolContains hash =>
      rw [Op.action, BitcoinClient.mempoolContains]
      exact aside_withMempool
  | mempoolGet hash =>
      rw [Op.action, BitcoinClient.mempoolGet]
      exact aside_withMempool
  | mempoolInsert hash trans =>
      rw [Op.action, BitcoinClient.mempoolInsert]
      exact aside_withMempool
  | mempoolRemove hash =>
      rw [Op.action, BitcoinClient.mempoolRemove]
      exact aside_withMempool
  | iterateMempool iteration limit =>
      rw [Op.action, BitcoinClient.iterateMempool]
      exact aside_withMempool
  | send message =>
      refine ⟨rfl, rfl, [message], rfl, List.forall_mem_singleton.mpr ?_⟩
      simpa [Op.isAside] using h
  | panic reason => exact .refl s
  | minerSignal => exact .of_sent_eq rfl rfl rfl
  | generatorSignal => exact .of_sent_eq rfl rfl rfl
  | signalMiner signal => exact .of_sent_eq rfl rfl rfl
  | signalGenerator signal => exact .of_sent_eq rfl rfl rfl
  | finishBlock block => exact .of_sent_eq rfl rfl rfl
  | takeFinishedBlock => exact .of_sent_eq rfl rfl rfl

theorem Op.isAside_of_isSafe {op : Op} (h : op.isSafe = true) : op.isAside = true := by
  cases op with
  | mempoolGet hash => cases h
  | panic reason => cases h
  | _ => exact h

theorem not_usable_of_blockchain (h : s.blockchain.poisoned = true) : ¬ Usable s :=
  fun husable => Bool.noConfusion (husable.blockchain.symm.trans h)

theorem not_usable_of_blockState (h : s.blockState.poisoned = true) : ¬ Usable s :=
  fun husable => Bool.noConfusion (husable.blockState.symm.trans h)

theorem Usable.of_mempool (h : Usable s) (hblockchain : s'.blockchain = s.blockchain)
    (hblockState : s'.blockState = s.blockState) (hmempool : s'.mempool.poisoned = false) :
    Usable s' := by
  refine ⟨?_, ?_, hmempool⟩
  · rw [hblockchain]
    exact h.blockchain
  · rw [hblockState]
    exact h.blockState

variable (C build) in
theorem Op.usable (op : Op) (h : op.isSafe = true) (husable : Usable s) :
    (op.action C build).wp (fun _ s' => Usable s') (fun _ _ => False) s := by
  have hblockchain : s.blockchain.poisoned = true → False := fun hpoisoned =>
    not_usable_of_blockchain hpoisoned husable
  have hmempool : s.mempool.poisoned = true → False := fun hpoisoned =>
    Bool.noConfusion (husable.mempool.symm.trans hpoisoned)
  cases op with
  | containsBlock hash => exact (wp_containsBlock hash).mpr ⟨hblockchain, fun _ => husable⟩
  | readTip => exact wp_readTip.mpr ⟨hblockchain, fun _ => husable⟩
  | getBlock hash => cases h
  | insertBlock block => cases h
  | longestChain => cases h
  | answerNewBlockHashes peer hashes => cases h
  | answerGetBlocks peer hashes => cases h
  | readBlockState hash => cases h
  | writeBlockState hash state => cases h
  | mempoolGet hash => cases h
  | panic reason => cases h
  | mempoolContains hash =>
      rw [Op.action, BitcoinClient.mempoolContains, wp_withMempool]
      exact ⟨hmempool, fun _ => husable.of_mempool rfl rfl husable.mempool⟩
  | mempoolInsert hash trans =>
      rw [Op.action, BitcoinClient.mempoolInsert, wp_withMempool]
      exact ⟨hmempool, fun _ => husable.of_mempool rfl rfl husable.mempool⟩
  | mempoolRemove hash =>
      rw [Op.action, BitcoinClient.mempoolRemove, wp_withMempool]
      exact ⟨hmempool, fun _ => husable.of_mempool rfl rfl husable.mempool⟩
  | iterateMempool iteration limit =>
      rw [Op.action, BitcoinClient.iterateMempool, wp_withMempool]
      exact ⟨hmempool, fun _ => husable.of_mempool rfl rfl husable.mempool⟩
  | _ => exact husable.of_mempool rfl rfl husable.mempool

/-- Safe operations one after the other. -/
theorem Program.All.usable {program : NodeProgram α} {post : α → Prop}
    (h : program.All (fun op => op.isSafe = true) post) (husable : Usable s) :
    (program.run C build).wp (fun _ s' => Usable s') (fun _ _ => False) s := by
  induction program generalizing s with
  | done result => exact husable
  | perform op next ih =>
      rw [NodeProgram.run, Program.run_perform, Effect.wp_bind]
      exact Effect.wp_mono (op.usable C build h.1 husable)
        (fun result s' husable' => ih result (h.2 result) husable') fun _ _ => False.elim

theorem Program.All.keepsAside {program : NodeProgram α}
    (h : program.All (fun op => op.isSafe = true) fun _ => True) :
    program.KeepsAside C build s := by
  have haside := (h.mono (fun _ => Op.isAside_of_isSafe) fun _ => id).wp_run Aside .refl
    (fun _ _ _ => .trans) (fun op hop _ => op.aside C build hop) s
  by_cases husable : Usable s
  · refine Effect.wp_and haside (h.usable husable) ?_ fun _ _ _ => False.elim
    exact fun _ _ hkept husable' => ⟨hkept.2, fun _ => husable'⟩
  · refine Effect.wp_mono haside ?_ fun _ _ hkept => ⟨hkept, husable⟩
    exact fun _ _ hkept => ⟨hkept.2, fun h => absurd h husable⟩

/-- One program after another. -/
theorem keepsAside_bind {program : NodeProgram α} {next : α → NodeProgram β}
    {post : α → Shared → Prop}
    (hprogram : (program.run C build).wp post (fun _ s' => Aside s s' ∧ ¬ Usable s) s)
    (hnext : ∀ result s', post result s' → Unharmed s s' ∧ (next result).KeepsAside C build s') :
    (program >>= next).KeepsAside C build s := by
  rw [NodeProgram.KeepsAside, NodeProgram.run, Program.run_bind, Effect.wp_bind]
  refine Effect.wp_mono hprogram (fun result s' hpost => ?_) fun _ _ h => h
  obtain ⟨hfirst, hrest⟩ := hnext result s' hpost
  refine Effect.wp_mono hrest (fun _ _ h => hfirst.trans h) ?_
  exact fun _ _ h => ⟨hfirst.toAside.trans h.1, fun husable => h.2 (hfirst.usable husable)⟩

/-- A lookup of a stored block. -/
theorem keepsAside_getBlock {hash : H256} {next : Block × UInt32 → NodeProgram β}
    (hstored : s.blockchain.value.blocks.containsKey hash = true)
    (hnext : ∀ entry, s.blockchain.value.blocks.get hash = some entry →
      (next entry).KeepsAside C build s) :
    (call (.getBlock hash) >>= next).KeepsAside C build s := by
  obtain ⟨entry, hget⟩ := HashMap.containsKey_iff.mp hstored
  simp only [NodeProgram.KeepsAside, NodeProgram.run, call, Program.call_bind, Program.run_perform,
    Effect.wp_bind, Op.action, wp_getBlock, hget]
  exact ⟨fun hpoisoned => ⟨.refl s, not_usable_of_blockchain hpoisoned⟩, fun _ => hnext entry hget⟩

theorem keepsAside_readBlockState {hash : H256} {next : State → NodeProgram β}
    (hstored : s.blockState.value.containsKey hash = true)
    (hnext : ∀ state, (next state).KeepsAside C build s) :
    (call (.readBlockState hash) >>= next).KeepsAside C build s := by
  obtain ⟨state, hget⟩ := HashMap.containsKey_iff.mp hstored
  simp only [NodeProgram.KeepsAside, NodeProgram.run, call, Program.call_bind, Program.run_perform,
    Effect.wp_bind, Op.action, wp_readBlockState, hget]
  exact ⟨fun hpoisoned => ⟨.refl s, not_usable_of_blockState hpoisoned⟩, fun _ => hnext state⟩

theorem keepsAside_readTip {next : H256 → NodeProgram β}
    (hnext : (next s.blockchain.value.tip).KeepsAside C build s) :
    (call .readTip >>= next).KeepsAside C build s := by
  simp only [NodeProgram.KeepsAside, NodeProgram.run, call, Program.call_bind, Program.run_perform,
    Effect.wp_bind, Op.action, wp_readTip]
  exact ⟨fun hpoisoned => ⟨.refl s, not_usable_of_blockchain hpoisoned⟩, fun _ => hnext⟩

/-! ## Messages about transactions -/

theorem fetchTransactions_aside (trans : List SignedTransaction) (hashes : List H256) :
    (fetchTransactions trans hashes).All (fun op => op.isAside = true) fun _ => True := by
  induction hashes generalizing trans with
  | nil => trivial
  | cons hash rest ih =>
      refine ⟨rfl, fun known => ?_⟩
      cases known with
      | false => trivial
      | true => exact ⟨rfl, fun transaction => ih _⟩

theorem storeTransaction_aside (newTrans : List H256) (trans : SignedTransaction) :
    (storeTransaction C newTrans trans).All (fun op => op.isAside = true) fun _ => True := by
  unfold storeTransaction
  split
  next =>
    refine ⟨rfl, fun known => ?_⟩
    cases known with
    | true => trivial
    | false => exact ⟨rfl, fun _ => trivial⟩
  next => trivial

/-- A message that is not about blocks. -/
theorem handleMessage_aside (peer : PeerId) (orphanBlocks : List Block) {message : Message}
    (hmessage : message.isAboutBlocks = false) :
    (handleMessage C build peer orphanBlocks message).All (fun op => op.isAside = true)
      fun result => result = orphanBlocks := by
  cases message with
  | ping nonce => exact ⟨rfl, fun _ => rfl⟩
  | pong nonce => rfl
  | newBlockHashes hashes => cases hmessage
  | getBlocks blockHashes => cases hmessage
  | blocks blocks => cases hmessage
  | newTransactionHashes hashes => rfl
  | getTransactions transactionHashes =>
      simp only [handleMessage, answerGetTransactions, Program.all_bind]
      refine (fetchTransactions_aside _ _).mono (fun _ => id) fun trans _ => ?_
      cases trans with
      | some trans => exact ⟨rfl, fun _ => rfl⟩
      | none => rfl
  | transactions transactions =>
      simp only [handleMessage, storeTransactions, Program.all_bind]
      refine (Program.all_foldlM storeTransaction_aside).mono (fun _ => id) fun newTrans _ => ?_
      split
      next => exact ⟨rfl, fun _ => rfl⟩
      next => rfl

/-! ## The other threads -/

theorem selectTransactions_aside (miner : Miner)
    (iteration : HashMap.Iteration H256 SignedTransaction) :
    (selectTransactions miner iteration).All (fun op => op.isSafe = true) fun _ => True := by
  unfold selectTransactions
  split
  next => exact ⟨rfl, fun _ => trivial⟩
  next => trivial

theorem mineBlock_aside (miner : Miner) (nonce : UInt32) (timestamp : BitVec 128) :
    (mineBlock C miner nonce timestamp).All (fun op => op.isSafe = true) fun _ => True := by
  obtain ⟨tree, root, htree, hroot⟩ :=
    MerkleTree.new_root_ok (C := C) (SignedTransaction.hash C) miner.transaction
  simp only [mineBlock, htree, NodeProgram.ofExcept, Program.done_bind, hroot]
  have hremove : ∀ item : H256, (call (.mempoolRemove item)).All
      (fun op => op.isSafe = true) fun _ => True := fun item => ⟨rfl, fun _ => trivial⟩
  refine (Program.all_bind _ _).mpr ⟨rfl, fun parent => ?_⟩
  dsimp only [Program.All]
  split
  next =>
    refine (Program.all_bind _ _).mpr ⟨rfl, fun _ => (Program.all_bind _ _).mpr ?_⟩
    exact (Program.all_forM hremove).mono (fun _ => id) fun _ _ => trivial
  next => trivial

theorem minerRound_aside (miner : Miner) (nonce : UInt32) (timestamp : BitVec 128)
    (iteration : HashMap.Iteration H256 SignedTransaction) :
    (minerRound C miner nonce timestamp iteration).All (fun op => op.isSafe = true)
      fun _ => True := by
  unfold minerRound
  split
  next => exact ⟨rfl, fun _ => trivial⟩
  next => trivial
  next =>
    refine (Program.all_bind _ _).mpr ⟨rfl, fun signal => ?_⟩
    dsimp only [Program.All]
    split
    next => trivial
    next =>
      refine (Program.all_bind _ _).mpr
        ((selectTransactions_aside _ iteration).mono (fun _ => id) fun miner _ => ?_)
      refine (Program.all_bind _ _).mpr ((mineBlock_aside miner nonce timestamp).mono
        (fun _ => id) fun _ _ => trivial)

theorem generate_aside (geneLoop : GeneLoop) (generator : Generator)
    (iteration : HashMap.Iteration (H256 × UInt8) (UInt32 × Address)) :
    (geneLoop.generate C generator iteration).All (fun op => op.isSafe = true) fun _ => True := by
  unfold GeneLoop.generate
  split
  next inputs balance _ =>
    split
    next => trivial
    next =>
      refine ⟨rfl, fun known => ?_⟩
      cases known with
      | true => exact ⟨rfl, fun _ => trivial⟩
      | false => exact ⟨rfl, fun _ => ⟨rfl, fun _ => trivial⟩⟩

theorem start_keepsAside (h : Walkable s) : GeneLoop.start.KeepsAside C build s := by
  refine keepsAside_readTip ?_
  exact keepsAside_readBlockState (h.states _ h.tip) fun _ => .refl s

theorem round_keepsAside (h : Walkable s) (geneLoop : GeneLoop) (generator : Generator)
    (iteration : HashMap.Iteration (H256 × UInt8) (UInt32 × Address)) :
    (geneLoop.round C generator iteration).KeepsAside C build s := by
  unfold GeneLoop.round
  split
  next => exact Program.All.keepsAside ⟨rfl, fun _ => trivial⟩
  next => exact .refl s
  next =>
    refine keepsAside_bind (Program.All.keepsAside ⟨rfl, fun _ => trivial⟩)
      fun signal s' hsignal => ⟨hsignal, ?_⟩
    have h' := hsignal.walkable h
    simp only
    split
    next => exact .refl s'
    next =>
      refine keepsAside_bind ?_ fun generator s'' hrefresh => ⟨hrefresh, ?_⟩
      · refine keepsAside_readTip ?_
        split
        next => exact .refl s'
        next => exact keepsAside_readBlockState (h'.states _ h'.tip) fun _ => .refl s'
      · refine Program.All.keepsAside ((Program.all_bind _ _).mpr ?_)
        exact (generate_aside geneLoop generator iteration).mono (fun _ => id) fun _ _ => trivial

/-! ## Requests -/

theorem walkTxs_keepsAside (height : Nat) (nextHash : H256) (hashes : List (List H256))
    (hwalk : ∀ steps, steps + 1 = height → Descends s.blockchain.value.blocks steps nextHash) :
    (Api.walkTxs C height nextHash hashes).KeepsAside C build s := by
  induction height generalizing nextHash hashes with
  | zero => exact .refl s
  | succ height ih =>
      refine keepsAside_getBlock (hwalk height rfl).contains fun entry hget => ?_
      refine ih _ _ fun steps hsteps => ?_
      subst hsteps
      exact (hwalk _ rfl).parent hget

theorem walkDown_keepsAside (h : Walkable s) (steps : Nat) (nextHash : H256) (block : Block)
    {height : UInt32} (hget : s.blockchain.value.blocks.get nextHash = some (block, height))
    (hwalk : Descends s.blockchain.value.blocks steps nextHash) :
    (Api.walkDown steps nextHash block >>= fun hash => call (.readBlockState hash)).KeepsAside
      C build s := by
  induction steps generalizing nextHash block height with
  | zero =>
      have hstored := HashMap.containsKey_of_get hget
      exact keepsAside_readBlockState (h.states _ hstored) fun _ => .refl s
  | succ steps ih =>
      refine keepsAside_getBlock (hwalk.parent hget).contains fun entry hparent => ?_
      exact ih block.head.parent entry.1 hparent (hwalk.parent hget)

theorem Walkable.allBlocksInLongestChain_ok (h : Walkable s) :
    ∃ hashes, s.blockchain.value.allBlocksInLongestChain = .ok hashes := by
  obtain ⟨⟨block, height⟩, htip⟩ := HashMap.containsKey_iff.mp h.tip
  obtain ⟨hashes, hwalk⟩ := (h.heights _ _ _ htip).walkBack_ok htip [s.blockchain.value.tip]
  refine ⟨hashes.reverse, ?_⟩
  simp [Blockchain.allBlocksInLongestChain, htip, bind, Except.bind, hwalk, pure, Except.pure]

theorem serve_keepsAside (h : Walkable s) (request : ApiRequest) :
    (Api.serve C request).KeepsAside C build s := by
  have hresponse : ∀ {α : Type} {program : NodeProgram α} {respond : α → ApiResponse},
      program.KeepsAside C build s →
      (program >>= fun result => pure (respond result)).KeepsAside C build s :=
    fun hprogram => keepsAside_bind hprogram fun _ s' hkept => ⟨hkept, .refl s'⟩
  cases request with
  | minerStart lambda => exact Program.All.keepsAside ⟨rfl, fun _ => trivial⟩
  | txGeneratorStart theta => exact Program.All.keepsAside ⟨rfl, fun _ => trivial⟩
  | networkPing => exact Program.All.keepsAside ⟨rfl, fun _ => trivial⟩
  | longestChain =>
      obtain ⟨hashes, hok⟩ := h.allBlocksInLongestChain_ok
      refine hresponse ?_
      simp only [NodeProgram.KeepsAside, NodeProgram.run, call, Program.call, Program.run_perform,
        Effect.wp_bind, Op.action, longestChain, wp_withBlockchain]
      refine ⟨fun hpoisoned => ⟨.refl s, not_usable_of_blockchain hpoisoned⟩, fun _ => ?_⟩
      rw [hok]
      exact .refl s
  | longestChainTx =>
      refine hresponse (keepsAside_readTip (keepsAside_getBlock h.tip fun entry hget => ?_))
      have hdescends := h.heights _ _ _ hget
      have hwalk : (Api.walkTxs C entry.2.toNat entry.1.head.parent
          [Api.txHashes C entry.1]).KeepsAside C build s := by
        refine walkTxs_keepsAside _ _ _ fun steps hsteps => ?_
        rw [← hsteps] at hdescends
        exact hdescends.parent hget
      exact keepsAside_bind hwalk fun _ s' hkept => ⟨hkept, .refl s'⟩
  | longestChainTxCount => exact .refl s
  | state block =>
      refine hresponse (keepsAside_readTip (keepsAside_getBlock h.tip fun entry hget => ?_))
      exact walkDown_keepsAside h _ _ entry.1 hget ((h.heights _ _ _ hget).le (Nat.sub_le _ _))
  | notFound => exact .refl s

/-- A round of a thread other than a network worker and the miner worker. -/
theorem nodeBody_keepsAside {geneLoop : GeneLoop} {task : Task} {choice : Choice}
    {program : NodeProgram Task} (h : Walkable s)
    (hnetwork : ∀ orphanBlocks, task ≠ .network orphanBlocks) (hworker : task ≠ .minerWorker)
    (hbody : nodeBody C build geneLoop task choice = some program) :
    program.KeepsAside C build s := by
  have hround : ∀ {α : Type} {program : NodeProgram α} {next : α → Task},
      program.KeepsAside C build s →
      (program >>= fun result => pure (next result)).KeepsAside C build s :=
    fun hprogram => keepsAside_bind hprogram fun _ s' hkept => ⟨hkept, .refl s'⟩
  unfold nodeBody at hbody
  split at hbody
  all_goals cases hbody
  next orphanBlocks _ _ => exact absurd rfl (hnetwork orphanBlocks)
  next orphanBlocks => exact absurd rfl (hnetwork orphanBlocks)
  next => exact hround (minerRound_aside _ _ _ _).keepsAside
  next => exact absurd rfl hworker
  next => exact hround (start_keepsAside h)
  next => exact hround (round_keepsAside h _ _ _)
  next => exact hround (serve_keepsAside h _)

end BitcoinClient
