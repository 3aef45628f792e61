import BitcoinClient.Foundation.Provenance
import BitcoinClient.Node.Bystanders
import BitcoinClient.Node.FaithfulReplies
import BitcoinClient.Node.ForkedCoins
import BitcoinClient.Node.GeneratedCoins

/-! # Where the contents of a node come from

Transactions are in the mempool, in blocks, in messages and in the variables of the threads. A
node only makes some in its generator, and it only makes blocks in its miner; all others it has
received. A `Policy` says what they may be like, in such a way that what a node makes of them is
like that again. Where a node receives and generates nothing else, all its contents keep the
policy, round by round.
-/

namespace BitcoinClient

open NodeProgram (call)

/-- The messages with transactions, and the requests for some. -/
def Message.movesContents : Message → Bool
  | .blocks _ | .getTransactions _ | .transactions _ => true
  | _ => false

/-- What the contents of a node may be like. -/
structure Policy (C : Crypto) (build : Build) (icoKey : Ed25519KeyPair) (geneLoop : GeneLoop) where
  /-- Made by the own generator. -/
  made : Set SignedTransaction
  /-- In the mempool and in the blocks of the own miner. -/
  transaction : SignedTransaction → Prop
  block : Block → Prop
  /-- On its way to or from another node. -/
  message : Message → Prop
  /-- The ledger states of the stored blocks. -/
  state : State → Prop
  /-- The state that the generator keeps. -/
  coins : State → Prop
  idle : ∀ m, m.movesContents = false → message m
  blocks : ∀ delivered, message (.blocks delivered) ↔ ∀ b ∈ delivered, block b
  delivers : ∀ delivered, message (.transactions delivered) → ∀ st ∈ delivered, transaction st
  answers : ∀ hashes, message (.getTransactions hashes) → ∀ delivered,
    (∀ st ∈ delivered, transaction st) → message (.transactions delivered)
  mines : ∀ b : Block, (∀ st ∈ b.cont.st, transaction st) → block b
  initial : state (State.new C icoKey)
  executes : ∀ parent b next, state parent → block b →
    checkTxs C build parent b.cont.st = .ok next → state next
  starts : ∀ tip, state tip → coins tip
  spends : ∀ purse st, st ∈ made → coins purse → geneLoop.Spends C purse st →
    transaction st ∧ coins (purse.execute C st)

section Definitions

variable {C : Crypto} {build : Build} {icoKey : Ed25519KeyPair} {geneLoop : GeneLoop}
  (policy : Policy C build icoKey geneLoop)

/-- Everything in the memory keeps the policy. -/
structure Sourced (s : Shared) : Prop where
  mempool : ∀ hash trans, s.mempool.value.trans.get hash = some trans → policy.transaction trans
  blocks : ∀ hash entry, s.blockchain.value.blocks.get hash = some entry → policy.block entry.1
  queue : ∀ block ∈ s.finishedBlockChan, ∀ st ∈ block.cont.st, policy.transaction st
  sent : ∀ sent ∈ s.sent, policy.message sent.message
  states : ∀ hash state, s.blockState.value.get hash = some state → policy.state state

/-- What a thread may put into the memory. -/
def Op.Gives : Op → Prop
  | .insertBlock block => policy.block block
  | .finishBlock block => ∀ st ∈ block.cont.st, policy.transaction st
  | .writeBlockState _ state => policy.state state
  | .mempoolInsert _ transaction => policy.transaction transaction
  | .send sent => policy.message sent.message
  | _ => True

/-- What a thread takes from the memory. -/
def Op.Gets : (op : Op) → op.Result → Prop
  | .readBlockState _, state => policy.state state
  | .mempoolGet _, transaction => policy.transaction transaction
  | .iterateMempool .., entries => ∀ entry ∈ entries, policy.transaction entry.2
  | .takeFinishedBlock, finished =>
    ∀ block ∈ finished, ∀ st ∈ block.cont.st, policy.transaction st
  | _, _ => True

/-- What a thread keeps from round to round. -/
def sourcedLoop : Task → Prop
  | .network orphanBlocks => ∀ block ∈ orphanBlocks, policy.block block
  | .miner miner => ∀ st ∈ miner.transaction, policy.transaction st
  | .generator generator => policy.coins generator.state
  | _ => True

/-- What the network delivers, and what the thread generates. -/
def Policy.Allows {workers requests : Nat} (node : IdleNode workers requests)
    (who : ThreadId workers requests) : Choice → Prop
  | .deliver _ message => policy.message message
  | .generate iteration => ∀ st ∈ node.generates C geneLoop who iteration, st ∈ policy.made
  | _ => True

/-- A node whose contents are what the policy allows. -/
structure Conforms {workers requests : Nat} (node : IdleNode workers requests) : Prop where
  memory : Sourced policy node.shared
  threads : ∀ who task, node.threads who = .ok task → sourcedLoop policy task

/-- The program hands on nothing else than the policy allows. -/
abbrev NodeProgram.HandsOn {α : Type} (returns : α → Prop) (program : NodeProgram α) : Prop :=
  Program.HandsOn (Op.Gives policy) (Op.Gets policy) returns program

end Definitions

variable {C : Crypto} {build : Build} {icoKey : Ed25519KeyPair} {geneLoop : GeneLoop}
  {policy : Policy C build icoKey geneLoop} {s : Shared}

theorem sourced_initial : Sourced policy (Shared.initial C icoKey) where
  mempool hash trans hget := by
    rw [Shared.initial, Mempool.new, HashMap.get_empty] at hget
    cases hget
  blocks hash entry hget := by
    rw [Shared.initial, Blockchain.new, HashMap.get_insert, HashMap.get_empty] at hget
    obtain ⟨_, heq⟩ := Option.ite_none_right_eq_some.mp hget
    obtain rfl := Option.some.inj heq
    exact policy.mines _ (List.forall_mem_nil _)
  queue := List.forall_mem_nil _
  sent := List.forall_mem_nil _
  states hash state hget := by
    rw [Shared.initial, HashMap.get_insert, HashMap.get_empty] at hget
    obtain ⟨_, heq⟩ := Option.ite_none_right_eq_some.mp hget
    obtain rfl := Option.some.inj heq
    exact policy.initial

/-! ## The operations -/

theorem Sourced.send (h : Sourced policy s) {sent : Sent} (hsent : policy.message sent.message) :
    Sourced policy { s with sent := s.sent ++ [sent] } :=
  ⟨h.mempool, h.blocks, h.queue,
    List.forall_mem_append.mpr ⟨h.sent, List.forall_mem_singleton.mpr hsent⟩, h.states⟩

/-- Operations that neither use the queue nor the mempool, and send or store nothing. -/
theorem Sourced.frame {s' : Shared} {op : Op} (h : Sourced policy s)
    (hframe : op.Frame s s') (hblocks : op.writesBlocks = false) (hstates : op.writesStates = false)
    (hmempool : op.locksMempool = false) (hqueue : op.usesQueue = false)
    (hsends : op.sends = false) : Sourced policy s' where
  mempool := by
    rw [hframe.mempool hmempool]
    exact h.mempool
  blocks := by
    rw [hframe.blocks hblocks]
    exact h.blocks
  queue := by
    rw [hframe.queue hqueue]
    exact h.queue
  sent := by
    rw [hframe.sent hsends]
    exact h.sent
  states := by
    rw [hframe.states hstates]
    exact h.states

/-- The blocks that answer a request are stored ones. -/
theorem Sourced.answer (h : Sourced policy s) {hashes : List H256} {blocks : List Block}
    (hanswer : (hashes.mapM fun hash => (s.blockchain.value.blocks.get hash).map Prod.fst) =
      some blocks) : policy.message (.blocks blocks) := by
  refine (policy.blocks blocks).mpr fun block hblock => ?_
  have hfound := List.mem_map_of_mem (f := some) hblock
  rw [← mapM_lookup_eq_some.mp hanswer] at hfound
  obtain ⟨hash, _, hget⟩ := List.mem_map.mp hfound
  obtain ⟨entry, hentry, rfl⟩ := Option.map_eq_some_iff.mp hget
  exact h.blocks hash entry hentry

/-- Every operation keeps what it is given and gives nothing else. -/
theorem sourced_op (op : Op) (s : Shared) (h : Sourced policy s)
    (hgives : op.Gives policy) :
    (op.action C build).wp
      (fun result s' => Sourced policy s' ∧ op.Gets policy result)
      (fun _ s' => Sourced policy s') s := by
  cases op with
  | insertBlock block =>
      simp only [Op.action, wp_insertBlock]
      refine ⟨fun _ => h, fun _ => ?_⟩
      cases hinsert : s.blockchain.value.insert C build block with
      | error reason => exact ⟨h.mempool, h.blocks, h.queue, h.sent, h.states⟩
      | ok next =>
          obtain ⟨_, _, _, _, _, _, -, -, hblocks, -⟩ := Blockchain.insert_ok hinsert
          refine ⟨⟨h.mempool, fun hash entry hget => ?_, h.queue, h.sent, h.states⟩, trivial⟩
          change next.blocks.get hash = some entry at hget
          rw [hblocks] at hget
          rcases HashMap.of_get_insert hget with ⟨_, rfl⟩ | hget
          · exact hgives
          · exact h.blocks hash entry hget
  | writeBlockState hash state =>
      simp only [Op.action, wp_writeBlockState]
      refine ⟨fun _ => h, fun _ => ⟨⟨h.mempool, h.blocks, h.queue, h.sent, ?_⟩, trivial⟩⟩
      exact HashMap.forall_insert h.states hgives
  | readBlockState hash =>
      simp only [Op.action, wp_readBlockState]
      refine ⟨fun _ => h, fun _ => ?_⟩
      cases hstate : s.blockState.value.get hash with
      | none => exact ⟨h.mempool, h.blocks, h.queue, h.sent, h.states⟩
      | some state => exact ⟨h, h.states hash state hstate⟩
  | mempoolContains hash =>
      simp only [Op.action, wp_mempoolContains]
      exact ⟨fun _ => h, fun _ => ⟨h, trivial⟩⟩
  | mempoolGet hash =>
      simp only [Op.action, wp_mempoolGet]
      refine ⟨fun _ => h, fun _ => ?_⟩
      cases htrans : s.mempool.value.trans.get hash with
      | none => exact ⟨h.mempool, h.blocks, h.queue, h.sent, h.states⟩
      | some trans => exact ⟨h, h.mempool hash trans htrans⟩
  | mempoolInsert hash trans =>
      simp only [Op.action, wp_mempoolInsert]
      refine ⟨fun _ => h, fun _ => ⟨⟨?_, h.blocks, h.queue, h.sent, h.states⟩, trivial⟩⟩
      exact HashMap.forall_insert h.mempool hgives
  | mempoolRemove hash =>
      simp only [Op.action, wp_mempoolRemove]
      refine ⟨fun _ => h, fun _ => ⟨⟨?_, h.blocks, h.queue, h.sent, h.states⟩, trivial⟩⟩
      exact HashMap.forall_remove h.mempool
  | iterateMempool iteration limit =>
      simp only [Op.action, iterateMempool, wp_withMempool]
      refine ⟨fun _ => h, fun _ => ⟨h, fun entry hentry => ?_⟩⟩
      have hmem := (iteration.enumerates s.mempool.value.trans).mem_iff.mp
        (List.mem_of_mem_take hentry)
      exact h.mempool entry.1 entry.2 hmem
  | finishBlock block =>
      refine ⟨⟨h.mempool, h.blocks, ?_, h.sent, h.states⟩, trivial⟩
      exact List.forall_mem_append.mpr ⟨h.queue, List.forall_mem_singleton.mpr hgives⟩
  | takeFinishedBlock =>
      refine ⟨⟨h.mempool, h.blocks, fun block hblock => ?_, h.sent, h.states⟩, ?_⟩
      · exact h.queue block (List.mem_of_mem_tail hblock)
      · exact fun block hblock => h.queue block (List.mem_of_head? hblock)
  | send message => exact ⟨h.send hgives, trivial⟩
  | answerNewBlockHashes peer hashes =>
      simp only [Op.action, answerNewBlockHashes, Effect.wp_bind, wp_withBlockchain]
      refine ⟨fun _ => h, fun _ => ?_⟩
      split
      next => exact ⟨h.send (policy.idle _ rfl), trivial⟩
      next => exact ⟨h, trivial⟩
  | answerGetBlocks peer blockHashes =>
      simp only [Op.action, answerGetBlocks, Effect.wp_bind, wp_withBlockchain]
      refine ⟨fun _ => h, fun _ => ?_⟩
      split
      next blocks hanswer => exact ⟨h.send (h.answer hanswer), trivial⟩
      next => exact ⟨h, trivial⟩
  | _ =>
      refine Effect.wp_mono (Op.wp_frame C build _) (fun _ s' hframe => ?_) fun _ s' hframe => ?_
      · exact ⟨h.frame hframe rfl rfl rfl rfl rfl, trivial⟩
      · exact h.frame hframe.1 rfl rfl rfl rfl rfl

/-! ## The rounds -/

theorem admitBlock_handsOn {block : Block} (hblock : policy.block block) :
    NodeProgram.HandsOn policy (fun _ => True) (admitBlock C build block) := by
  unfold admitBlock checkTxState
  rw [NodeProgram.HandsOn, Program.handsOn_bind]
  refine Program.handsOn_call trivial fun parent hparent => ?_
  split
  next => trivial
  next => exact ⟨trivial, nofun⟩
  next state hcheck =>
    refine Program.handsOn_call (policy.executes _ _ _ hparent hblock hcheck) fun _ _ => ?_
    exact ⟨hblock, fun _ _ => trivial⟩

theorem releaseOrphans_handsOn (loop : BlocksLoop) (i : Nat)
    (horphans : ∀ block ∈ loop.orphanBlocks, policy.block block) :
    NodeProgram.HandsOn policy (fun loop => ∀ block ∈ loop.orphanBlocks, policy.block block)
      (releaseOrphans C build loop i) := by
  induction loop, i using releaseOrphans.induct C with
  | case1 loop i hn hi blockToUnorphan hparent orphanBlocks ihAdmitted =>
      rename_i ihDropped
      have hrest : ∀ block ∈ orphanBlocks, policy.block block :=
        fun block hblock => horphans block (List.mem_of_mem_eraseIdx hblock)
      rw [releaseOrphans, dif_pos hn, dif_pos hi]
      simp only
      rw [if_pos hparent]
      refine Program.handsOn_call trivial fun parent _ => ?_
      split
      next =>
        rw [Program.handsOn_bind]
        refine (admitBlock_handsOn (horphans _ (List.getElem_mem hi))).mono fun admitted _ => ?_
        cases admitted with
        | true => exact ihAdmitted hrest
        | false => exact ihDropped hrest
      next => exact ihDropped hrest
  | case2 loop i hn hi blockToUnorphan hparent =>
      rename_i ih
      rw [releaseOrphans, dif_pos hn, dif_pos hi]
      simp only
      rw [if_neg hparent]
      exact ih horphans
  | case3 loop i hn hi ih =>
      rw [releaseOrphans, dif_pos hn, dif_neg hi]
      exact ih horphans
  | case4 loop i hn =>
      rw [releaseOrphans, dif_neg hn]
      exact horphans

theorem processBlock_handsOn {peer : PeerId} {message : Message} {loop : BlocksLoop} {block : Block}
    (hblock : policy.block block) (horphans : ∀ block ∈ loop.orphanBlocks, policy.block block) :
    NodeProgram.HandsOn policy (fun loop => ∀ block ∈ loop.orphanBlocks, policy.block block)
      (processBlock C build peer message loop block) := by
  simp only [processBlock]
  split
  next =>
    refine Program.handsOn_call trivial fun known _ => ?_
    cases known with
    | true => exact horphans
    | false =>
        refine Program.handsOn_call trivial fun hasParent _ => ?_
        cases hasParent with
        | false =>
            refine Program.handsOn_call (policy.idle _ rfl) fun _ _ => ?_
            exact List.forall_mem_append.mpr ⟨horphans, List.forall_mem_singleton.mpr hblock⟩
        | true =>
            refine Program.handsOn_call trivial fun parent _ => ?_
            split
            next =>
              rw [Program.handsOn_bind]
              refine (admitBlock_handsOn hblock).mono fun admitted _ => ?_
              cases admitted with
              | true => exact releaseOrphans_handsOn _ 0 horphans
              | false => exact releaseOrphans_handsOn _ 0 horphans
            next => exact releaseOrphans_handsOn _ 0 horphans
  next => exact horphans

theorem processBlocks_handsOn (peer : PeerId) {orphanBlocks blocks : List Block}
    (hblocks : ∀ block ∈ blocks, policy.block block)
    (horphans : ∀ block ∈ orphanBlocks, policy.block block) :
    NodeProgram.HandsOn policy
      (fun orphanBlocks => ∀ block ∈ orphanBlocks, policy.block block)
      (processBlocks C build peer orphanBlocks blocks) := by
  unfold processBlocks
  rw [NodeProgram.HandsOn, Program.handsOn_bind]
  refine (Program.handsOn_foldlM (fun loop => ∀ block ∈ loop.orphanBlocks, policy.block block)
    horphans fun block hmem loop hloop =>
      processBlock_handsOn (hblocks block hmem) hloop).mono fun loop hloop => ?_
  split
  next => exact ⟨policy.idle _ rfl, fun _ _ => hloop⟩
  next => exact hloop

theorem fetchTransactions_handsOn {trans : List SignedTransaction}
    (htrans : ∀ st ∈ trans, policy.transaction st) (hashes : List H256) :
    NodeProgram.HandsOn policy (fun result => ∀ trans ∈ result, ∀ st ∈ trans, policy.transaction st)
      (fetchTransactions trans hashes) := by
  induction hashes generalizing trans with
  | nil =>
      intro result hresult
      obtain rfl := Option.some.inj hresult
      exact htrans
  | cons hash rest ih =>
      refine Program.handsOn_call trivial fun known _ => ?_
      cases known with
      | false => exact fun _ hresult => absurd hresult (Option.not_mem_none _)
      | true =>
          refine Program.handsOn_call trivial fun transaction htransaction => ih ?_
          exact List.forall_mem_append.mpr ⟨htrans, List.forall_mem_singleton.mpr htransaction⟩

theorem answerGetTransactions_handsOn (peer : PeerId) {hashes : List H256}
    (hasked : policy.message (.getTransactions hashes)) :
    NodeProgram.HandsOn policy (fun _ => True) (answerGetTransactions peer hashes) := by
  unfold answerGetTransactions
  rw [NodeProgram.HandsOn, Program.handsOn_bind]
  refine (fetchTransactions_handsOn (List.forall_mem_nil _) hashes).mono fun result hresult => ?_
  cases result with
  | none => trivial
  | some trans => exact ⟨policy.answers hashes hasked trans (hresult trans rfl), fun _ _ => trivial⟩

theorem storeTransactions_handsOn {transactions : List SignedTransaction}
    (htransactions : ∀ st ∈ transactions, policy.transaction st) :
    NodeProgram.HandsOn policy (fun _ => True) (storeTransactions C transactions) := by
  unfold storeTransactions
  rw [NodeProgram.HandsOn, Program.handsOn_bind]
  refine (Program.handsOn_foldlM (fun _ => True) trivial
    fun transaction hmem newTrans _ => ?_).mono fun newTrans _ => ?_
  · unfold storeTransaction
    split
    next =>
      refine Program.handsOn_call trivial fun known _ => ?_
      cases known with
      | true => trivial
      | false => exact ⟨htransactions transaction hmem, fun _ _ => trivial⟩
    next => trivial
  · split
    next => exact ⟨policy.idle _ rfl, fun _ _ => trivial⟩
    next => trivial

theorem handleMessage_handsOn (peer : PeerId) {orphanBlocks : List Block} {message : Message}
    (horphans : ∀ block ∈ orphanBlocks, policy.block block)
    (hmessage : policy.message message) :
    NodeProgram.HandsOn policy
      (fun orphanBlocks => ∀ block ∈ orphanBlocks, policy.block block)
      (handleMessage C build peer orphanBlocks message) := by
  cases message with
  | ping nonce => exact ⟨policy.idle _ rfl, fun _ _ => horphans⟩
  | pong nonce => exact horphans
  | newBlockHashes hashes => exact ⟨trivial, fun _ _ => horphans⟩
  | getBlocks hashes => exact ⟨trivial, fun _ _ => horphans⟩
  | blocks blocks => exact processBlocks_handsOn peer ((policy.blocks blocks).mp hmessage) horphans
  | newTransactionHashes hashes => exact horphans
  | getTransactions hashes =>
      simp only [handleMessage, NodeProgram.HandsOn, Program.handsOn_bind]
      exact (answerGetTransactions_handsOn peer hmessage).mono fun _ _ => horphans
  | transactions transactions =>
      simp only [handleMessage, NodeProgram.HandsOn, Program.handsOn_bind]
      exact (storeTransactions_handsOn (policy.delivers _ hmessage)).mono fun _ _ => horphans

theorem mineBlock_handsOn {miner : Miner} (hminer : ∀ st ∈ miner.transaction, policy.transaction st)
    (nonce : UInt32) (timestamp : BitVec 128) :
    NodeProgram.HandsOn policy (fun miner => ∀ st ∈ miner.transaction, policy.transaction st)
      (mineBlock C miner nonce timestamp) := by
  obtain ⟨tree, root, htree, hroot⟩ :=
    MerkleTree.new_root_ok (C := C) (SignedTransaction.hash C) miner.transaction
  simp only [mineBlock, htree, NodeProgram.ofExcept, Program.done_bind, hroot]
  refine Program.handsOn_call trivial fun parent _ => ?_
  split
  next =>
    refine Program.handsOn_call hminer fun _ _ => ?_
    rw [Program.handsOn_bind]
    have hremove : ∀ item : H256, (call (.mempoolRemove item)).All
        (fun op => op.Gives policy) fun _ => True :=
      fun item => ⟨trivial, fun _ => trivial⟩
    exact ((Program.all_forM hremove).handsOn fun _ => id).mono fun _ _ => List.forall_mem_nil _
  next => exact hminer

theorem selectTransactions_handsOn {miner : Miner}
    (hminer : ∀ st ∈ miner.transaction, policy.transaction st)
    (iteration : HashMap.Iteration H256 SignedTransaction) :
    NodeProgram.HandsOn policy (fun miner => ∀ st ∈ miner.transaction, policy.transaction st)
      (selectTransactions miner iteration) := by
  unfold selectTransactions
  split
  next =>
    refine Program.handsOn_call trivial fun entries hentries => ?_
    exact List.forall_mem_append.mpr ⟨hminer, List.forall_mem_map.mpr hentries⟩
  next => exact hminer

theorem minerRound_handsOn {miner : Miner}
    (hminer : ∀ st ∈ miner.transaction, policy.transaction st) (nonce : UInt32)
    (timestamp : BitVec 128) (iteration : HashMap.Iteration H256 SignedTransaction) :
    NodeProgram.HandsOn policy
      (fun result => ∀ miner ∈ result, ∀ st ∈ miner.transaction, policy.transaction st)
      (minerRound C miner nonce timestamp iteration) := by
  unfold minerRound
  split
  next =>
    refine Program.handsOn_call trivial fun signal _ result hresult => ?_
    obtain rfl := Option.some.inj hresult
    exact hminer
  next => exact fun _ hresult => absurd hresult (Option.not_mem_none _)
  next =>
    refine Program.handsOn_call trivial fun signal _ => ?_
    dsimp only
    split
    next => exact fun _ hresult => absurd hresult (Option.not_mem_none _)
    next =>
      rw [Program.handsOn_bind]
      refine Program.HandsOn.mono (selectTransactions_handsOn ?_ iteration) ?_
      · exact hminer
      intro selected hselected
      rw [Program.handsOn_bind]
      refine (mineBlock_handsOn hselected nonce timestamp).mono fun mined hmined => ?_
      intro result hresult
      obtain rfl := Option.some.inj hresult
      exact hmined

theorem minerWorkerRound_handsOn :
    NodeProgram.HandsOn policy (fun _ => True) (minerWorkerRound C build) := by
  unfold minerWorkerRound
  refine Program.handsOn_call trivial fun finished hfinished => ?_
  cases finished with
  | none => trivial
  | some block =>
      rw [Program.handsOn_bind]
      have hblock := policy.mines block (hfinished block rfl)
      refine (admitBlock_handsOn hblock).mono fun admitted _ => ?_
      cases admitted with
      | true => exact ⟨policy.idle _ rfl, fun _ _ => trivial⟩
      | false => trivial

theorem start_handsOn : NodeProgram.HandsOn policy
    (fun generator => policy.coins generator.state) GeneLoop.start := by
  unfold GeneLoop.start
  refine Program.handsOn_call trivial fun tip _ => Program.handsOn_call trivial ?_
  exact fun state hstate => policy.starts state hstate

theorem refresh_handsOn {generator : Generator}
    (hgenerator : policy.coins generator.state) :
    NodeProgram.HandsOn policy
      (fun generator => policy.coins generator.state)
      (GeneLoop.refresh generator) := by
  unfold GeneLoop.refresh
  refine Program.handsOn_call trivial fun tip _ => ?_
  split
  next => exact hgenerator
  next => exact Program.handsOn_call trivial fun state hstate => policy.starts state hstate

/-- What is generated spends a coin of the local state. -/
theorem generate_handsOn {generator : Generator} (hgenerator : policy.coins generator.state)
    {iteration : HashMap.Iteration (H256 × UInt8) (UInt32 × Address)}
    (hmade : ∀ st ∈ geneLoop.generated C iteration generator.state, st ∈ policy.made) :
    NodeProgram.HandsOn policy
      (fun generator => policy.coins generator.state)
      (geneLoop.generate C generator iteration) := by
  have hcases := geneLoop.generated_cases (C := C) iteration generator.state
  unfold GeneLoop.generated at hcases hmade
  unfold GeneLoop.generate
  generalize geneLoop.getTxBalance iteration generator.state = coin at hcases hmade ⊢
  obtain ⟨inputs, balance⟩ := coin
  dsimp only at hcases hmade ⊢
  split
  next => exact hgenerator
  next hbalance =>
    rw [if_neg hbalance] at hcases hmade
    obtain ⟨st, heq, hspends⟩ := hcases.resolve_left (List.cons_ne_nil _ _)
    obtain rfl := List.singleton_inj.mp heq
    obtain ⟨hmem, hexecuted⟩ :=
      policy.spends _ _ (hmade _ (List.mem_singleton_self _)) hgenerator hspends
    refine Program.handsOn_call trivial fun known _ => ?_
    cases known with
    | true => exact Program.handsOn_call (policy.idle _ rfl) fun _ _ => hexecuted
    | false =>
        refine Program.handsOn_call hmem fun _ _ => ?_
        exact Program.handsOn_call (policy.idle _ rfl) fun _ _ => hexecuted

/-- The generator only makes what is foreseen for it. -/
theorem round_sourced {generator : Generator} (h : Sourced policy s)
    (hgenerator : policy.coins generator.state)
    {iteration : HashMap.Iteration (H256 × UInt8) (UInt32 × Address)}
    (hmade : ∀ st ∈ (generator.upcoming s).elim [] (geneLoop.generated C iteration),
      st ∈ policy.made) :
    ((geneLoop.round C generator iteration).run C build).wp
      (fun result s' => Sourced policy s' ∧ ∀ generator ∈ result, policy.coins generator.state)
      (fun _ s' => Sourced policy s') s := by
  have hsignal : Sourced policy { s with generatorControl := s.generatorControl.tail } :=
    ⟨h.mempool, h.blocks, h.queue, h.sent, h.states⟩
  obtain ⟨operatingState, prevTip, state⟩ := generator
  cases operatingState with
  | paused =>
      refine ⟨hsignal, fun result hresult => ?_⟩
      obtain rfl := Option.some.inj hresult
      exact hgenerator
  | shutDown => exact ⟨h, fun result hresult => absurd hresult (Option.not_mem_none _)⟩
  | run interval =>
      simp only [GeneLoop.round, Generator.upcoming, call, Program.call_bind, Program.run_perform,
        Effect.wp_bind, Op.action, wp_generatorSignal] at hmade ⊢
      split
      next => exact ⟨hsignal, fun result hresult => absurd hresult (Option.not_mem_none _)⟩
      next hrunning =>
        rw [if_neg hrunning] at hmade
        rw [Program.run_bind, Effect.wp_bind]
        -- The state that is refreshed is the one that was foreseen.
        refine Effect.wp_and ((refresh_handsOn ?_).wp_run sourced_op hsignal)
          (GeneLoop.refresh_state _ _) ?_ fun _ _ hmemory _ => hmemory
        · exact hgenerator
        rintro refreshed s' ⟨hmemory, hcoins⟩ hstate
        dsimp only at hstate
        rw [hstate, Option.elim_some] at hmade
        rw [Program.run_bind, Effect.wp_bind]
        refine Effect.wp_mono ((generate_handsOn hcoins hmade).wp_run sourced_op hmemory)
          (fun generated s'' hgenerated => ?_) fun _ _ hmemory => hmemory
        refine ⟨hgenerated.1, fun result hresult => ?_⟩
        obtain rfl := Option.some.inj hresult
        exact hgenerated.2

theorem walkTxs_handsOn (height : Nat) (nextHash : H256) (hashes : List (List H256)) :
    NodeProgram.HandsOn policy (fun _ => True)
      (Api.walkTxs C height nextHash hashes) := by
  induction height generalizing nextHash hashes with
  | zero => trivial
  | succ height ih => exact Program.handsOn_call trivial fun entry _ => ih _ _

theorem walkDown_handsOn (steps : Nat) (nextHash : H256) (block : Block) :
    NodeProgram.HandsOn policy (fun _ => True)
      (Api.walkDown steps nextHash block) := by
  induction steps generalizing nextHash block with
  | zero => trivial
  | succ steps ih => exact Program.handsOn_call trivial fun entry _ => ih _ _

/-- The API sends no transactions. -/
theorem serve_handsOn (request : ApiRequest) :
    NodeProgram.HandsOn policy (fun _ => True) (Api.serve C request) := by
  cases request with
  | networkPing => exact Program.handsOn_call (policy.idle _ rfl) fun _ _ => trivial
  | longestChainTx =>
      unfold Api.serve Api.longestChainTx
      rw [NodeProgram.HandsOn, Program.handsOn_bind]
      refine Program.handsOn_call trivial fun tip _ => ?_
      refine Program.handsOn_call trivial fun entry _ => ?_
      rw [Program.handsOn_bind]
      exact (walkTxs_handsOn _ _ _).mono fun _ _ => trivial
  | state block =>
      unfold Api.serve Api.stateAt
      rw [NodeProgram.HandsOn, Program.handsOn_bind]
      refine Program.handsOn_call trivial fun tip _ => ?_
      refine Program.handsOn_call trivial fun entry _ => ?_
      rw [Program.handsOn_bind]
      refine (walkDown_handsOn _ _ _).mono fun hash _ => ?_
      exact ⟨trivial, fun _ _ => trivial⟩
  | longestChainTxCount => trivial
  | notFound => trivial
  | _ => exact Program.handsOn_call trivial fun _ _ => trivial

/-! ## Whole rounds -/

theorem nodeBody_handsOn {task : Task} {choice : Choice} {program : NodeProgram Task}
    (hdelivered : ∀ peer message, choice = .deliver peer message → policy.message message)
    (htask : ∀ generator, task ≠ .generator generator) (hloop : sourcedLoop policy task)
    (hbody : nodeBody C build geneLoop task choice = some program) :
    NodeProgram.HandsOn policy (sourcedLoop policy) program := by
  unfold nodeBody at hbody
  split at hbody
  all_goals cases hbody
  next orphanBlocks peer message =>
    exact (Program.handsOn_bind _ _).mpr
      ((handleMessage_handsOn peer hloop (hdelivered peer message rfl)).mono
        fun _ horphans => horphans)
  next => trivial
  next miner nonce timestamp iteration =>
    refine (Program.handsOn_bind _ _).mpr
      ((minerRound_handsOn hloop nonce timestamp iteration).mono fun result hresult => ?_)
    cases result with
    | none => trivial
    | some miner => exact hresult miner rfl
  next => exact (Program.handsOn_bind _ _).mpr (minerWorkerRound_handsOn.mono fun _ _ => trivial)
  next => exact (Program.handsOn_bind _ _).mpr (start_handsOn.mono fun _ hstate => hstate)
  next generator iteration => exact absurd rfl (htask generator)
  next request =>
    exact (Program.handsOn_bind _ _).mpr ((serve_handsOn request).mono fun _ _ => trivial)

section Rounds

variable {workers requests : Nat} {node next : IdleNode workers requests}
  {who : ThreadId workers requests} {choice : Choice}

/-- All threads begin without any contents. -/
theorem Conforms.start : Conforms policy (IdleNode.start C icoKey workers requests) where
  memory := sourced_initial
  threads who task htask := by
    obtain rfl : Task.start who = task := Except.ok.inj htask
    cases who with
    | network i => exact List.forall_mem_nil _
    | miner => exact List.forall_mem_nil _
    | _ => trivial

/-- A node that receives and generates what the policy allows has no other contents. -/
theorem Conforms.step (h : Conforms policy node)
    (hround : (nodeRounds C build geneLoop).next node who choice = some next)
    (hallows : policy.Allows node who choice) : Conforms policy next := by
  suffices hwp : ∀ task program, node.threads who = .ok task →
      nodeBody C build geneLoop task choice = some program →
      (program.run C build).wp (fun task s => Sourced policy s ∧ sourcedLoop policy task)
        (fun _ s => Sourced policy s) node.shared by
    obtain ⟨hmemory, hthreads⟩ := Program.round_keeps hround h.threads hwp
    exact ⟨hmemory, hthreads⟩
  intro task program htask hbody
  have hloop := h.threads who task htask
  by_cases hgenerator : ∃ generator, task = .generator generator
  · obtain ⟨generator, rfl⟩ := hgenerator
    cases choice with
    | generate iteration =>
        obtain rfl := Option.some.inj hbody
        have hmade : ∀ st ∈ (generator.upcoming node.shared).elim []
            (geneLoop.generated C iteration), st ∈ policy.made := by
          simpa only [Policy.Allows, IdleNode.generates, htask] using hallows
        rw [NodeProgram.run, Program.run_bind, Effect.wp_bind]
        refine Effect.wp_mono (round_sourced h.memory hloop hmade) (fun result s hresult => ?_)
          fun _ _ hmemory => hmemory
        refine ⟨hresult.1, ?_⟩
        cases result with
        | none => trivial
        | some generator => exact hresult.2 generator rfl
    | _ => cases hbody
  · refine (nodeBody_handsOn ?_ ?_ hloop hbody).wp_run sourced_op h.memory
    · rintro peer message rfl
      exact hallows
    · rintro generator rfl
      exact hgenerator ⟨generator, rfl⟩

end Rounds

end BitcoinClient
