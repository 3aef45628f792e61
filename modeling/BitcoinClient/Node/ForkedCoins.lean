import BitcoinClient.Ledger.Coins
import BitcoinClient.Node.LedgerStates
import BitcoinClient.Node.Orphans

/-! # Coins on different forks

A transaction can be executed on several branches. Each of them keeps its coins under
the hash of the transaction, so an outpoint that two ledger states know stands for one
and the same coin.
-/

namespace BitcoinClient

variable (C : Crypto) (icoKey : Ed25519KeyPair) (txs : Set SignedTransaction)

/-- The block executes transactions of the set only. -/
def Block.Uses (block : Block) : Prop := ∀ st ∈ block.cont.st, st ∈ txs

/-- What the threads promise about the coins when every block uses the set. -/
def coinContract : Program.Contract Op Shared where
  inv s := (∀ hash state, s.blockState.value.get hash = some state →
      state.OriginatesFrom C icoKey txs) ∧ ∀ block ∈ s.finishedBlockChan, block.Uses txs
  pre op _ :=
    match op with
    | .writeBlockState _ state => state.OriginatesFrom C icoKey txs
    | _ => True
  allowed op _ :=
    match op with
    | .finishBlock block => block.Uses txs
    | _ => True
  rely _ _ _ := True

/-- What a thread knows between two rounds. -/
def coinLoop (txs : Set SignedTransaction) : Task → Shared → Prop
  | .network orphanBlocks, _ => ∀ block ∈ orphanBlocks, block.Uses txs
  | _, _ => True

variable {C icoKey txs} {build : Build} {s : Shared}

/-- A program that meets the contract about coins. -/
abbrev NodeProgram.CoinMeets {α : Type} (C : Crypto) (build : Build) (icoKey : Ed25519KeyPair)
    (txs : Set SignedTransaction) (post : α → Shared → Prop) (program : NodeProgram α)
    (s : Shared) : Prop :=
  Program.Meets (Op.action C build) (coinContract C icoKey txs) post program s

theorem coin_pre_of_not_writes {op : Op} (h : op.writesStates = false) (s : Shared) :
    (coinContract C icoKey txs).pre op s := by
  cases op with
  | writeBlockState hash state => cases h
  | _ => trivial

/-- The rule for an operation that writes no ledger state. -/
theorem coin_call {α : Type} {op : Op} {next : op.Result → NodeProgram α}
    {post : α → Shared → Prop} (hop : op.writesStates = false)
    (hnext : ∀ result s, NodeProgram.CoinMeets C build icoKey txs post (next result) s) :
    NodeProgram.CoinMeets C build icoKey txs post (NodeProgram.call op >>= next) s := by
  intro s' _ _
  refine ⟨coin_pre_of_not_writes hop s', fun _ => ?_⟩
  exact Effect.wp_mono Effect.wp_true (fun result s'' _ _ => hnext result s'') fun _ _ h => h

/-- The new state has the coins of the parent's state and those of the block. -/
theorem admitBlock_coinMeets {block : Block} (hblock : block.Uses txs) (s : Shared) :
    NodeProgram.CoinMeets C build icoKey txs (fun _ _ => True) (admitBlock C build block) s := by
  unfold admitBlock checkTxState
  rw [NodeProgram.CoinMeets, Program.meets_bind]
  refine Program.meets_call fun s₁ _ hinv₁ => ⟨trivial, fun _ => ?_⟩
  simp only [Op.action, wp_readBlockState]
  refine ⟨fun _ => trivial, fun _ => ?_⟩
  split
  next parent hparent =>
    intro _
    split
    next => trivial
    next => exact fun _ _ _ => ⟨trivial, fun _ => trivial⟩
    next state hcheck =>
      have horigin := (hinv₁.1 _ parent hparent).checkTxs hblock hcheck
      refine Program.meets_call fun s₂ _ _ => ⟨horigin, fun _ => ?_⟩
      refine Effect.wp_mono Effect.wp_true (fun _ _ _ _ => ?_) fun _ _ h => h
      exact coin_call rfl fun _ _ => trivial
  next => trivial

theorem releaseOrphans_coinMeets (loop : BlocksLoop) (i : Nat)
    (horphans : ∀ block ∈ loop.orphanBlocks, block.Uses txs) (s : Shared) :
    NodeProgram.CoinMeets C build icoKey txs
      (fun loop _ => ∀ block ∈ loop.orphanBlocks, block.Uses txs)
      (releaseOrphans C build loop i) s := by
  induction loop, i using releaseOrphans.induct C generalizing s with
  | case1 loop i hn hi blockToUnorphan hparent orphanBlocks ihAdmitted =>
      rename_i ihDropped
      have hrest : ∀ block ∈ orphanBlocks, block.Uses txs :=
        fun block hblock => horphans block (List.mem_of_mem_eraseIdx hblock)
      rw [releaseOrphans, dif_pos hn, dif_pos hi]
      simp only
      rw [if_pos hparent]
      refine coin_call rfl fun parent s' => ?_
      split
      next =>
        rw [NodeProgram.CoinMeets, Program.meets_bind]
        refine (admitBlock_coinMeets (horphans _ (List.getElem_mem hi)) s').mono ?_
        intro admitted s'' _
        cases admitted with
        | true => exact ihAdmitted hrest s''
        | false => exact ihDropped hrest s''
      next => exact ihDropped hrest s'
  | case2 loop i hn hi blockToUnorphan hparent =>
      rename_i ih
      rw [releaseOrphans, dif_pos hn, dif_pos hi]
      simp only
      rw [if_neg hparent]
      exact ih horphans s
  | case3 loop i hn hi ih =>
      rw [releaseOrphans, dif_pos hn, dif_neg hi]
      exact ih horphans s
  | case4 loop i hn =>
      rw [releaseOrphans, dif_neg hn]
      exact horphans

theorem processBlock_coinMeets {peer : PeerId} {message : Message} {loop : BlocksLoop}
    {block : Block} (hblock : block.Uses txs)
    (horphans : ∀ block ∈ loop.orphanBlocks, block.Uses txs) (s : Shared) :
    NodeProgram.CoinMeets C build icoKey txs
      (fun loop _ => ∀ block ∈ loop.orphanBlocks, block.Uses txs)
      (processBlock C build peer message loop block) s := by
  simp only [processBlock]
  split
  next =>
    refine coin_call rfl fun known s₁ => ?_
    cases known with
    | true => exact horphans
    | false =>
        refine coin_call rfl fun hasParent s₂ => ?_
        cases hasParent with
        | false =>
            refine coin_call rfl fun _ _ orphan hmem => ?_
            rcases List.mem_append.mp hmem with hmem | hmem
            · exact horphans orphan hmem
            · exact List.mem_singleton.mp hmem ▸ hblock
        | true =>
            refine coin_call rfl fun parent s₃ => ?_
            split
            next =>
              rw [NodeProgram.CoinMeets, Program.meets_bind]
              refine (admitBlock_coinMeets hblock s₃).mono fun admitted s₄ _ => ?_
              cases admitted with
              | true =>
                  exact releaseOrphans_coinMeets
                    { loop with newBlocks := loop.newBlocks ++ [block.hash C] } 0 horphans s₄
              | false => exact releaseOrphans_coinMeets _ _ horphans s₄
            next => exact releaseOrphans_coinMeets _ _ horphans s₃
  next => exact horphans

theorem handleMessage_coinMeets {peer : PeerId} {orphanBlocks : List Block} {message : Message}
    (horphans : ∀ block ∈ orphanBlocks, block.Uses txs)
    (hblocks : ∀ blocks, message = .blocks blocks → ∀ block ∈ blocks, block.Uses txs)
    (s : Shared) :
    NodeProgram.CoinMeets C build icoKey txs
      (fun orphanBlocks _ => ∀ block ∈ orphanBlocks, block.Uses txs)
      (handleMessage C build peer orphanBlocks message) s := by
  by_cases hmessage : ∃ blocks, message = .blocks blocks
  · obtain ⟨blocks, rfl⟩ := hmessage
    simp only [handleMessage, processBlocks]
    rw [NodeProgram.CoinMeets, Program.meets_bind]
    refine (Program.meets_foldlM horphans fun block hmem loop s hloop =>
      processBlock_coinMeets (hblocks blocks rfl block hmem) hloop s).mono fun loop s hloop => ?_
    split
    next => exact coin_call rfl fun _ _ => hloop
    next => exact hloop
  · refine (handleMessage_free peer orphanBlocks message fun blocks heq =>
      hmessage ⟨blocks, heq⟩).meets ?_ fun _ _ heq => heq ▸ horphans
    intro op hfree s
    cases op with
    | writeBlockState hash state => cases hfree
    | _ => trivial

theorem minerWorkerRound_coinMeets (s : Shared) :
    NodeProgram.CoinMeets C build icoKey txs (fun _ _ => True) (minerWorkerRound C build) s := by
  unfold minerWorkerRound
  refine Program.meets_call fun s' _ hinv => ⟨trivial, fun _ _ => ?_⟩
  cases hhead : s'.finishedBlockChan.head? with
  | none => trivial
  | some block =>
      dsimp only
      rw [Program.meets_bind]
      refine (admitBlock_coinMeets (hinv.2 block (List.mem_of_head? hhead)) _).mono ?_
      intro admitted s'' _
      cases admitted with
      | false => trivial
      | true => exact coin_call rfl fun _ _ => trivial

/-- Every operation keeps the coins. -/
theorem coin_op (op : Op) (hinv : (coinContract C icoKey txs).inv s)
    (hpre : (coinContract C icoKey txs).pre op s)
    (hallowed : (coinContract C icoKey txs).allowed op s) :
    (op.action C build).wp (fun _ s' => (coinContract C icoKey txs).inv s')
      (fun _ s' => (coinContract C icoKey txs).inv s') s := by
  have hframe : ∀ s', op.writesStates = false → op.usesQueue = false → op.Frame s s' →
      (coinContract C icoKey txs).inv s' := by
    intro s' hstates hqueue h
    refine ⟨fun hash state hget => ?_, fun block hmem => ?_⟩
    · rw [h.states hstates] at hget
      exact hinv.1 hash state hget
    · rw [h.queue hqueue] at hmem
      exact hinv.2 block hmem
  cases op with
  | writeBlockState hash state =>
      simp only [Op.action, wp_writeBlockState]
      exact ⟨fun _ => hinv, fun _ => ⟨HashMap.forall_insert hinv.1 hpre, hinv.2⟩⟩
  | finishBlock block =>
      refine ⟨hinv.1, fun other hmem => ?_⟩
      rcases List.mem_append.mp hmem with hmem | hmem
      · exact hinv.2 other hmem
      · exact List.mem_singleton.mp hmem ▸ hallowed
  | takeFinishedBlock =>
      exact ⟨hinv.1, fun block hmem => hinv.2 block (List.mem_of_mem_tail hmem)⟩
  | _ =>
      exact Effect.wp_mono (Op.wp_frame C build _) (fun _ s' h => hframe s' rfl rfl h)
        fun _ s' h => hframe s' rfl rfl h.1

/-- Every round of every thread meets the contract. -/
theorem nodeBody_coinMeets {geneLoop : GeneLoop} {task : Task} {choice : Choice}
    {program : NodeProgram Task} (hdelivered : ∀ block ∈ choice.blocks, block.Uses txs)
    (hloop : coinLoop txs task s)
    (hbody : nodeBody C build geneLoop task choice = some program) :
    NodeProgram.CoinMeets C build icoKey txs (coinLoop txs) program s := by
  have hplain : ∀ {α : Type} {program : NodeProgram α} {post : α → Shared → Prop},
      Program.Composed (fun op => op.isPlain = true)
        (fun _ part => part.All (fun op => op.isFree = true) fun _ => True) program →
      (∀ value s, post value s) →
      NodeProgram.CoinMeets C build icoKey txs post program s := by
    intro α program post hcomposed hpost
    refine (hcomposed.meets ?_ ?_ s).mono fun value s _ => hpost value s
    · intro op hop s
      cases op with
      | writeBlockState hash state => cases hop
      | _ => trivial
    · intro β part hpart s
      refine hpart.meets ?_ fun _ _ _ => trivial
      intro op hop s
      cases op with
      | writeBlockState hash state => cases hop
      | _ => trivial
  unfold nodeBody at hbody
  split at hbody
  all_goals cases hbody
  next orphanBlocks peer message =>
    refine (Program.meets_bind _ _).mpr (Program.Meets.mono
      (handleMessage_coinMeets hloop (fun blocks heq => ?_) s) fun _ _ h => h)
    subst heq
    exact hdelivered
  next => trivial
  next miner nonce timestamp iteration =>
    refine (Program.meets_bind _ _).mpr (hplain (minerRound_composed _ _ _ _) fun miner s => ?_)
    cases miner <;> trivial
  next =>
    exact (Program.meets_bind _ _).mpr ((minerWorkerRound_coinMeets s).mono fun _ _ _ => trivial)
  next => exact coin_call rfl fun _ _ => coin_call rfl fun _ _ => trivial
  next generator iteration =>
    refine (Program.meets_bind _ _).mpr
      (hplain (round_composed _ _ _ fun _ => generate_free _ _ _).plain fun generator s => ?_)
    cases generator <;> trivial
  next request =>
    exact (Program.meets_bind _ _).mpr (hplain (serve_composed _).plain fun _ _ => trivial)

theorem coin_initial : (coinContract C icoKey txs).inv (Shared.initial C icoKey) := by
  refine ⟨fun hash state hget => ?_, nofun⟩
  simp only [Shared.initial, HashMap.get_insert, HashMap.get_empty,
    Option.ite_none_right_eq_some, Option.some.injEq] at hget
  exact hget.2 ▸ State.new_originatesFrom

/-- The blocks that a step brings in, from the network or from the miner, use the set. -/
def BringsIn {workers requests : Nat} (txs : Set SignedTransaction) (node : Node workers requests)
    (who : ThreadId workers requests) (choice : Choice) : Prop :=
  (∀ block ∈ choice.blocks, block.Uses txs) ∧ ∀ block ∈ node.finishing who, block.Uses txs

/-- Every coin of a running node is the initial one or an output of a transaction of the set. -/
theorem blockStates_originate {geneLoop : GeneLoop} {workers requests : Nat}
    {node : Node workers requests}
    (hreach : (nodeMachine C build geneLoop).Reachable (BringsIn txs)
      (Node.start C icoKey workers requests) node)
    {hash : H256} {state : State} (hget : node.shared.blockState.value.get hash = some state) :
    state.OriginatesFrom C icoKey txs := by
  refine (Program.Reachable.meets (coinContract C icoKey txs) (fun _ => True) (coinLoop txs)
    (fun _ _ => trivial) (fun _ _ _ _ _ _ => trivial) ?_ ?_ ?_ ?_ hreach).1.1 hash state hget
  · refine ⟨coin_initial, fun who => ⟨.start who, rfl, ?_⟩⟩
    cases who <;> simp [Task.start, coinLoop]
  · intro task s s' _ _ _ hloop
    cases task <;> exact hloop
  · intro node who choice task program hguard _ _ hloop hbody
    exact nodeBody_coinMeets hguard.1 hloop hbody
  · intro node who choice op next hguard hthread hinv hpre
    have hallowed : (coinContract C icoKey txs).allowed op node.shared := by
      cases op with
      | finishBlock block =>
          apply hguard.2
          rw [Node.finishing, hthread]
          rfl
      | _ => trivial
    refine ⟨hallowed, Effect.wp_mono (coin_op op hinv hpre hallowed) ?_ ?_⟩
    · exact fun _ _ h => ⟨h, fun _ _ => trivial⟩
    · exact fun _ _ h => ⟨trivial, h, fun _ _ => trivial⟩

/-- Two ledger states of a node, on one chain or on different forks, agree about every
outpoint that is in both. -/
theorem forkedCoins_agree (C : Crypto) (build : Build) (geneLoop : GeneLoop)
    (icoKey : Ed25519KeyPair) (workers requests : Nat) (txs : Set SignedTransaction)
    (hfree : CollisionFree C txs) (hzero : AvoidsZeroHash C txs) (node : Node workers requests)
    (hreach : (nodeMachine C build geneLoop).Reachable (BringsIn txs)
      (Node.start C icoKey workers requests) node)
    (b1 b2 : H256) (state1 state2 : State)
    (hstate1 : node.shared.blockState.value.get b1 = some state1)
    (hstate2 : node.shared.blockState.value.get b2 = some state2)
    (outpoint : H256 × UInt8) (value1 value2 : UInt32) (recipient1 recipient2 : Address)
    (hcoin1 : state1.states.get outpoint = some (value1, recipient1))
    (hcoin2 : state2.states.get outpoint = some (value2, recipient2)) :
    value1 = value2 ∧ recipient1 = recipient2 := by
  have hsame := (blockStates_originate hreach hstate1).coherent hfree hzero
    (blockStates_originate hreach hstate2) hcoin1 hcoin2
  exact Prod.mk.inj hsame

/-- One of several blocks on the genesis block that move the initial coin. -/
def forkBlock (nonce : UInt32) : Block :=
  ⟨⟨Blockchain.genesis.hash .sample, nonce, Blockchain.genesisDifficulty, 0, .hex 0⟩,
    ⟨[moveInitialCoin]⟩⟩

/-- What the state of a block holds under an outpoint. -/
def Shared.coin (s : Shared) (hash : H256) (outpoint : H256 × UInt8) :
    Option (UInt32 × Address) :=
  (s.blockState.value.get hash).bind fun state => state.states.get outpoint

theorem forkedCoins_agree_forkBlock :
    ∃ (node : Node 1 0) (value1 value2 : UInt32) (recipient1 recipient2 : Address),
      node.shared.coin ((forkBlock 0).hash .sample) (moveInitialCoin.hash .sample, 0) =
        some (value1, recipient1) ∧
      node.shared.coin ((forkBlock 1).hash .sample) (moveInitialCoin.hash .sample, 0) =
        some (value2, recipient2) ∧
      value1 = value2 ∧ recipient1 = recipient2 := by
  have hrun : ((nodeMachine .sample .release sampleGeneLoop).run
      (fun (node : Node 1 0) who choice => decide (
        (∀ block ∈ choice.blocks, ∀ st ∈ block.cont.st, st = moveInitialCoin) ∧
          ∀ block ∈ node.finishing who, ∀ st ∈ block.cont.st, st = moveInitialCoin))
      (Node.start .sample Crypto.sampleKey 1 0)
      ((.network 0, .deliver 0 (.blocks [forkBlock 0, forkBlock 1])) ::
        List.replicate 13 (.network 0, .go))).any
        (fun node : Node 1 0 =>
          (node.shared.coin ((forkBlock 0).hash .sample)
            (moveInitialCoin.hash .sample, 0)).isSome &&
          (node.shared.coin ((forkBlock 1).hash .sample)
            (moveInitialCoin.hash .sample, 0)).isSome) = true := by
    decide +kernel
  have hguard : ∀ (node : Node 1 0) who choice,
      (∀ block ∈ choice.blocks, ∀ st ∈ block.cont.st, st = moveInitialCoin) ∧
        (∀ block ∈ node.finishing who, ∀ st ∈ block.cont.st, st = moveInitialCoin) →
      BringsIn {moveInitialCoin} node who choice := fun _ _ _ h => h
  obtain ⟨node, hreach, hcheck⟩ := Machine.exists_reachable
    (fun node who choice hallowed => hguard node who choice (of_decide_eq_true hallowed)) hrun
  obtain ⟨hcoin1, hcoin2⟩ := Bool.and_eq_true_iff.mp hcheck
  obtain ⟨⟨value1, recipient1⟩, hcoin1⟩ := Option.isSome_iff_exists.mp hcoin1
  obtain ⟨⟨value2, recipient2⟩, hcoin2⟩ := Option.isSome_iff_exists.mp hcoin2
  obtain ⟨state1, hstate1, hget1⟩ := Option.bind_eq_some_iff.mp hcoin1
  obtain ⟨state2, hstate2, hget2⟩ := Option.bind_eq_some_iff.mp hcoin2
  have hfree : CollisionFree .sample {moveInitialCoin} := Set.injOn_singleton _ _
  have hzero : AvoidsZeroHash .sample {moveInitialCoin} := by
    rintro st rfl
    decide +kernel
  exact ⟨node, value1, value2, recipient1, recipient2, hcoin1, hcoin2,
    forkedCoins_agree .sample .release sampleGeneLoop Crypto.sampleKey 1 0 {moveInitialCoin} hfree
      hzero node hreach _ _ state1 state2 hstate1 hstate2 _ _ _ _ _ hget1 hget2⟩

end BitcoinClient
