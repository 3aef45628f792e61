import BitcoinClient.Ledger.Reordering
import BitcoinClient.Node.MempoolSafety

/-! # Whether a mined block is accepted

The miner takes transactions from the mempool in the order of its iteration and stops at
fifty. The worker executes them in that order, so it accepts the block if and only if no
transaction comes without, or before, one whose output it spends.
-/

namespace BitcoinClient

open NodeProgram (call)

/-- The transactions of the block that the miner assembles. -/
def Miner.chosen (miner : Miner) (s : Shared)
    (iteration : HashMap.Iteration H256 SignedTransaction) : List SignedTransaction :=
  if miner.toRemove.length = 0 then
    miner.transaction ++ ((iteration.entries s.mempool.value.trans).take blockSize).map Prod.snd
  else miner.transaction

/-- From `s` to `s'` no ledger state changed, and a block that was queued extends the tip
of `s` by these transactions. -/
structure Queues (transactions : List SignedTransaction) (s s' : Shared) : Prop where
  states : s'.blockState = s.blockState
  block : ∀ block, s'.finishedBlockChan = s.finishedBlockChan ++ [block] →
    block.head.parent = s.blockchain.value.tip ∧ block.cont.st = transactions

variable {C : Crypto} {build : Build} {s : Shared}

theorem Queues.none {transactions : List SignedTransaction} {s' : Shared}
    (hstates : s'.blockState = s.blockState)
    (hqueue : s'.finishedBlockChan = s.finishedBlockChan) : Queues transactions s s' := by
  refine ⟨hstates, fun block hblock => ?_⟩
  rw [hqueue] at hblock
  exact absurd (List.self_eq_append_right.mp hblock) (List.cons_ne_nil _ _)

/-- Removals from the mempool touch nothing else. -/
theorem removal_wp (items : List H256) :
    (NodeProgram.run C build (items.forM fun item => call (.mempoolRemove item))).wp
      (fun _ s' => s'.blockState = s.blockState ∧ s'.finishedBlockChan = s.finishedBlockChan)
      (fun _ _ => True) s := by
  have hall : Program.All (fun op => ∃ hash, op = .mempoolRemove hash) (fun _ => True)
      (items.forM fun item => call (.mempoolRemove item) : NodeProgram PUnit) :=
    Program.all_forM fun item => ⟨⟨item, rfl⟩, fun _ => trivial⟩
  have hop : ∀ op, (∃ hash, op = .mempoolRemove hash) → ∀ s, (Op.action C build op).wp
      (fun _ s' => s'.blockState = s.blockState ∧ s'.finishedBlockChan = s.finishedBlockChan)
      (fun _ s' => s'.blockState = s.blockState ∧ s'.finishedBlockChan = s.finishedBlockChan)
      s := by
    rintro op ⟨hash, rfl⟩ s
    simp [Op.action]
  refine Effect.wp_mono (hall.wp_run
    (fun s s' => s'.blockState = s.blockState ∧ s'.finishedBlockChan = s.finishedBlockChan)
    (fun _ => ⟨rfl, rfl⟩)
    (fun s s' s'' h h' => (⟨h'.1.trans h.1, h'.2.trans h.2⟩ :
      s''.blockState = s.blockState ∧ s''.finishedBlockChan = s.finishedBlockChan)) hop s)
    (fun _ _ h => h.2) fun _ _ _ => trivial

theorem mineBlock_wp (miner : Miner) (nonce : UInt32) (timestamp : BitVec 128) :
    ((mineBlock C miner nonce timestamp).run C build).wp
      (fun _ s' => Queues miner.transaction s s') (fun _ _ => True) s := by
  obtain ⟨tree, root, htree, hroot⟩ :=
    MerkleTree.new_root_ok (C := C) (SignedTransaction.hash C) miner.transaction
  simp only [mineBlock, htree, NodeProgram.ofExcept, Program.done_bind, hroot, call,
    Program.call_bind, Program.run_perform, Op.action, Effect.wp_bind, wp_readTip]
  refine ⟨fun _ => trivial, fun _ => ?_⟩
  split
  next =>
    change Effect.wp _ _ _ { s with finishedBlockChan := s.finishedBlockChan ++ [_] }
    rw [Program.run_bind, Effect.wp_bind]
    refine Effect.wp_mono (removal_wp _) (fun _ s' hremoved => ?_) fun _ _ h => h
    refine ⟨hremoved.1, fun block hblock => ?_⟩
    obtain ⟨rfl, -⟩ := List.cons.inj (List.append_cancel_left (hremoved.2.symm.trans hblock))
    exact ⟨rfl, rfl⟩
  next => exact .none rfl rfl

/-- A round of the miner queues what it chooses, on the tip. -/
theorem minerRound_wp (miner : Miner) (nonce : UInt32) (timestamp : BitVec 128)
    (iteration : HashMap.Iteration H256 SignedTransaction) :
    ((minerRound C miner nonce timestamp iteration).run C build).wp
      (fun _ s' => Queues (miner.chosen s iteration) s s') (fun _ _ => True) s := by
  unfold minerRound
  split
  next => exact .none rfl rfl
  next => exact .none rfl rfl
  next =>
    simp only [NodeProgram.run, call, Program.call_bind, Program.run_perform, Op.action,
      Effect.wp_bind]
    change Effect.wp _ _ _ { s with minerControl := s.minerControl.tail }
    split
    next => exact .none rfl rfl
    next =>
      have hmined : ∀ (selected : Miner), selected.transaction = miner.chosen s iteration →
          (Program.run (Op.action C build)
            (mineBlock C selected nonce timestamp >>= fun miner => pure (some miner))).wp
            (fun _ s' => Queues (miner.chosen s iteration) s s') (fun _ _ => True)
            { s with minerControl := s.minerControl.tail } := by
        intro selected hselected
        rw [Program.run_bind, Effect.wp_bind]
        refine Effect.wp_mono (mineBlock_wp selected nonce timestamp) (fun _ s' hqueues => ?_)
          fun _ _ h => h
        rw [hselected] at hqueues
        exact ⟨hqueues.states, hqueues.block⟩
      unfold selectTransactions call
      split
      next hempty =>
        simp only [Program.call_bind, Program.perform_bind, Program.run_perform, Op.action,
          iterateMempool, Effect.wp_bind, wp_withMempool]
        exact ⟨fun _ => trivial, fun _ => hmined _ (if_pos hempty).symm⟩
      next hheld => exact hmined _ (if_neg hheld).symm

/-- `check_tx_state` accepts the block. -/
def Block.PassesCheck (C : Crypto) (build : Build) (block : Block) (s : Shared) : Prop :=
  ∃ s', (checkTxState C build block.head.parent block.cont.st (block.hash C)).run C build s =
    .ok true s'

instance (block : Block) (s : Shared) : Decidable (block.PassesCheck C build s) :=
  decidable_of_iff _ Effect.wp_eq_iff

theorem Block.passesCheck_iff {block : Block} {state : State}
    (husable : s.blockState.poisoned = false)
    (hstate : s.blockState.value.get block.head.parent = some state) :
    block.PassesCheck C build s ↔ ∃ final, checkTxs C build state block.cont.st = .ok final := by
  rw [PassesCheck, ← Effect.wp_eq_iff, wp_checkTxState, husable, hstate]
  dsimp only
  cases checkTxs C build state block.cont.st with
  | ok next => simp
  | error failure => cases failure <;> simp

/-- The miner holds nothing, or what it took from the mempool for an earlier attempt. -/
structure Miner.HoldsFrom (miner : Miner) (order : List SignedTransaction) : Prop where
  keys : miner.toRemove.length = miner.transaction.length
  from_mempool : miner.transaction.Subperm order

/-- Whatever the order of the iteration, the miner takes each transaction at most once. -/
theorem Miner.HoldsFrom.chosen {miner : Miner} {order : List (H256 × SignedTransaction)}
    (h : miner.HoldsFrom (order.map Prod.snd)) (horder : s.mempool.value.trans.Enumerates order)
    (iteration : HashMap.Iteration H256 SignedTransaction) :
    (miner.chosen s iteration).Subperm (order.map Prod.snd) := by
  unfold Miner.chosen
  split
  next hempty =>
    have hnone : miner.transaction = [] := List.length_eq_zero_iff.mp (h.keys.symm.trans hempty)
    have hperm : (iteration.entries s.mempool.value.trans).Perm order :=
      Multiset.coe_eq_coe.mp ((iteration.enumerates _).trans horder.symm)
    rw [hnone, List.nil_append]
    exact ((List.take_sublist _ _).map _).subperm.trans (hperm.map _).subperm
  next => exact h.from_mempool

/-- The block that the miner assembles on a tip from a mempool whose transactions can be
executed on the tip in some order is accepted if and only if each of its transactions finds
its inputs at its turn. It always is when no transaction spends an output of another. -/
theorem minedBlock_accepted_iff (C : Crypto) (build : Build) (icoKey : Ed25519KeyPair)
    (chain : List (List SignedTransaction)) (tip : State)
    (hchain : checkChain C build (State.new C icoKey) chain = .ok tip) (s : Shared)
    (htip : s.blockState.value.get s.blockchain.value.tip = some tip)
    (husable : s.blockState.poisoned = false) (order : List (H256 × SignedTransaction))
    (horder : s.mempool.value.trans.Enumerates order) (final : State)
    (hfinal : checkTxs C build tip (order.map Prod.snd) = .ok final)
    (hfree : CollisionFree C {st | st ∈ chain.flatten ∨ st ∈ order.map Prod.snd})
    (hzero : AvoidsZeroHash C {st | st ∈ chain.flatten ∨ st ∈ order.map Prod.snd})
    (miner : Miner) (hheld : miner.HoldsFrom (order.map Prod.snd)) (nonce : UInt32)
    (timestamp : BitVec 128) (iteration : HashMap.Iteration H256 SignedTransaction)
    (result : Option Miner) (s' : Shared)
    (hround : (minerRound C miner nonce timestamp iteration).run C build s = .ok result s')
    (block : Block) (hblock : s'.finishedBlockChan = s.finishedBlockChan ++ [block]) :
    (block.PassesCheck C build s' ↔ FindsInputs C tip block.cont.st) ∧
      (Independent C (order.map Prod.snd) → block.PassesCheck C build s') := by
  have hqueues := (Effect.wp_of_ok hround).mp (minerRound_wp miner nonce timestamp iteration)
  obtain ⟨hparent, hcontent⟩ := hqueues.block block hblock
  have hsubperm : block.cont.st.Subperm (order.map Prod.snd) :=
    hcontent ▸ hheld.chosen horder iteration
  have hcheck : block.PassesCheck C build s' ↔
      ∃ final, checkTxs C build tip block.cont.st = .ok final := by
    refine Block.passesCheck_iff ?_ ?_
    · rw [hqueues.states, husable]
    · rw [hqueues.states, hparent, htip]
  have horigin : tip.OriginatesFrom C icoKey
      {st | st ∈ chain.flatten ∨ st ∈ order.map Prod.snd} := by
    rw [checkChain_eq_checkTxs] at hchain
    exact State.new_originatesFrom.checkTxs (fun _ => Or.inl) hchain
  have hfinds := checkTxs_iff_findsInputs build hfree hzero horigin
    (fun st hst => Or.inr (hsubperm.subset hst)) fun st hst =>
      exists_checkTx_of_mem horigin (fun _ => Or.inr) hfinal (hsubperm.subset hst)
  refine ⟨hcheck.trans hfinds, fun hindependent => (hcheck.trans hfinds).mpr ?_⟩
  obtain ⟨hdisjoint, hpresent⟩ := hindependent.spend hfinal
  obtain ⟨chosen, hperm, hsublist⟩ := hsubperm
  refine findsInputs_of_disjoint ?_ fun st hst =>
    hpresent st (hsublist.subset (hperm.mem_iff.mpr hst))
  exact (hperm.pairwise_iff InputsDisjoint.symm).mp (hdisjoint.sublist hsublist)

/-- A miner that has been started and holds nothing. -/
def runningMiner : Miner := { operatingState := .run 0 }

theorem runningMiner_holdsFrom (order : List SignedTransaction) : runningMiner.HoldsFrom order :=
  ⟨rfl, List.nil_subperm⟩

/-- A fresh node with these transactions in the mempool. -/
def Shared.withMempool (entries : List (H256 × SignedTransaction)) : Shared :=
  { Shared.initial .sample Crypto.sampleKey with
    mempool := ⟨⟨(∅ : HashMap _ _).insertAll entries⟩, false⟩ }

/-- It spends the coin that another transaction of the mempool moves. -/
def spendMovedCoin : SignedTransaction :=
  .signedBy .sample Crypto.sampleKey ⟨[⟨moveInitialCoin.hash .sample, 0⟩], []⟩

/-- Both transactions, with their hashes. -/
def dependentPair : List (H256 × SignedTransaction) :=
  [(moveInitialCoin.hash .sample, moveInitialCoin), (spendMovedCoin.hash .sample, spendMovedCoin)]

/-- The iteration that meets them in this order. -/
noncomputable def dependentIteration : HashMap.Iteration H256 SignedTransaction :=
  .ofOrder ((∅ : HashMap _ _).insertAll dependentPair) dependentPair (by decide +kernel)

/-- In this order the second one finds its input. -/
theorem minedBlock_accepted_iff_dependentPair : ∃ (s' : Shared) (block : Block),
    s'.finishedBlockChan = [block] ∧ block.cont.st = [moveInitialCoin, spendMovedCoin] ∧
      block.PassesCheck .sample .release s' := by
  have hwp : ((minerRound .sample runningMiner 0 0 dependentIteration).run .sample .release).wp
      (fun _ s' => s'.finishedBlockChan.map (fun block => block.cont.st) =
        [[moveInitialCoin, spendMovedCoin]])
      (fun _ _ => False) (Shared.withMempool dependentPair) := by
    decide +kernel
  obtain ⟨result, s', hround, hqueue⟩ := Effect.exists_ok_of_wp hwp
  obtain ⟨block, hblock, hcontent⟩ := List.map_eq_singleton_iff.mp hqueue
  have hdistinct : ∀ left ∈ dependentPair.map Prod.snd, ∀ right ∈ dependentPair.map Prod.snd,
      left.hash .sample = right.hash .sample → left = right := by
    decide +kernel
  have hnonzero : ∀ st ∈ dependentPair.map Prod.snd, st.hash .sample ≠ .hex 0 := by decide +kernel
  have hmem : ∀ st, st ∈ ([] : List (List SignedTransaction)).flatten ∨
      st ∈ dependentPair.map Prod.snd → st ∈ dependentPair.map Prod.snd := by
    simp
  have haccepted := minedBlock_accepted_iff .sample .release Crypto.sampleKey [] _ rfl
    (Shared.withMempool dependentPair) (by decide +kernel) rfl dependentPair (by decide +kernel)
    (((State.new .sample Crypto.sampleKey).execute .sample moveInitialCoin).execute .sample
      spendMovedCoin) (by decide +kernel)
    (fun left hleft right hright heq => hdistinct left (hmem left hleft) right (hmem right hright)
      heq)
    (fun st hst => hnonzero st (hmem st hst)) runningMiner (runningMiner_holdsFrom _) 0 0
    dependentIteration result s' hround block hblock
  refine ⟨s', block, hblock, hcontent, haccepted.1.mpr ?_⟩
  rw [hcontent]
  refine ⟨?_, ?_, trivial⟩
  · decide +kernel
  · decide +kernel

/-- The iteration that meets the second one first. -/
noncomputable def reversedIteration : HashMap.Iteration H256 SignedTransaction :=
  .ofOrder ((∅ : HashMap _ _).insertAll dependentPair) dependentPair.reverse (by decide +kernel)

/-- The order of the mempool's iteration need not be one in which its transactions can be
executed. -/
theorem not_minedBlock_accepted :
    ¬ ∀ (s : Shared) (chain : List (List SignedTransaction)) (tip : State),
      checkChain .sample .release (State.new .sample Crypto.sampleKey) chain = .ok tip →
      s.blockState.value.get s.blockchain.value.tip = some tip → s.blockState.poisoned = false →
      ∀ order : List (H256 × SignedTransaction), s.mempool.value.trans.Enumerates order →
      (∃ final, checkTxs .sample .release tip (order.map Prod.snd) = .ok final) →
      ∀ miner : Miner, miner.HoldsFrom (order.map Prod.snd) →
      ∀ nonce timestamp iteration result s',
        (minerRound .sample miner nonce timestamp iteration).run .sample .release s =
          .ok result s' →
        ∀ block, s'.finishedBlockChan = s.finishedBlockChan ++ [block] →
          block.PassesCheck .sample .release s' := by
  intro hall
  have hwp : ((minerRound .sample runningMiner 0 0 reversedIteration).run .sample .release).wp
      (fun _ s' => s'.finishedBlockChan.length = 1 ∧
        ∀ block ∈ s'.finishedBlockChan, ¬ block.PassesCheck .sample .release s')
      (fun _ _ => False) (Shared.withMempool dependentPair) := by
    decide +kernel
  obtain ⟨result, s', hround, hqueue, hrejected⟩ := Effect.exists_ok_of_wp hwp
  obtain ⟨block, hblock⟩ := List.length_eq_one_iff.mp hqueue
  have hexecuted : (checkTxs .sample .release (State.new .sample Crypto.sampleKey)
      (dependentPair.map Prod.snd)).isOk = true := by decide +kernel
  refine hrejected block (hblock ▸ List.mem_cons_self) ?_
  refine hall (Shared.withMempool dependentPair) [] _ rfl (by decide +kernel) rfl dependentPair
    (by decide +kernel) ?_ runningMiner (runningMiner_holdsFrom _) 0 0 reversedIteration result s'
    hround block hblock
  cases hcheck : checkTxs .sample .release (State.new .sample Crypto.sampleKey)
      (dependentPair.map Prod.snd) with
  | ok final => exact ⟨final, rfl⟩
  | error failure =>
      rw [hcheck] at hexecuted
      cases hexecuted

end BitcoinClient
