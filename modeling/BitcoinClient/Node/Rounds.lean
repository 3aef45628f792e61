import BitcoinClient.Node.System

/-! # What the rounds of the threads are composed of

Only a few parts of the source write to the block tree and the ledger states, or
depend on more than one access to the mempool. Every round is put together from
these parts and from operations that are harmless on their own.
-/

namespace BitcoinClient

/-- The operations that stand outside of the parts below. -/
def Op.isPlain : Op → Bool
  | insertBlock _ | writeBlockState .. | mempoolGet _ | mempoolInsert .. | panic _ => false
  | send (.write _ (.getTransactions _) _) => false
  | _ => true

/-- The plain operations of the threads other than the miner and its worker. -/
def Op.isCommon : Op → Bool
  | mempoolRemove _ | iterateMempool .. | minerSignal | finishBlock _ | takeFinishedBlock => false
  | op => op.isPlain

/-- The parts with operations that depend on each other. -/
inductive IsPart (C : Crypto) (build : Build) : (α : Type) → NodeProgram α → Prop
  | admitBlock (block : Block) : IsPart C build Bool (admitBlock C build block)
  | answerGetTransactions (peer : PeerId) (hashes : List H256) :
      IsPart C build Unit (answerGetTransactions peer hashes)
  | storeTransaction (newTrans : List H256) (trans : SignedTransaction) :
      IsPart C build (List H256) (storeTransaction C newTrans trans)
  | generate (geneLoop : GeneLoop) (generator : Generator)
      (iteration : HashMap.Iteration (H256 × UInt8) (UInt32 × Address)) :
      IsPart C build Generator (geneLoop.generate C generator iteration)

/-- The operations that neither write to the block tree or the ledger states, nor queue
a block, nor unwrap a lookup in them. -/
def Op.isFree : Op → Bool
  | getBlock _ | readBlockState _ | insertBlock _ | writeBlockState .. | finishBlock _ => false
  | panic reason => !reason.isLookup
  | _ => true

/-- A program made of plain operations and the parts. -/
abbrev NodeProgram.Composed {α : Type} (C : Crypto) (build : Build) (program : NodeProgram α) :
    Prop :=
  Program.Composed (fun op => op.isPlain = true) (IsPart C build) program

/-- A program of a thread other than the miner and its worker. -/
abbrev NodeProgram.Common {α : Type} (C : Crypto) (build : Build) (program : NodeProgram α) :
    Prop :=
  Program.Composed (fun op => op.isCommon = true) (IsPart C build) program

theorem Op.isPlain_of_isCommon {op : Op} (h : op.isCommon = true) : op.isPlain = true := by
  cases op with
  | mempoolRemove hash => cases h
  | iterateMempool iteration limit => cases h
  | minerSignal => cases h
  | finishBlock block => cases h
  | takeFinishedBlock => cases h
  | _ => exact h

variable {C : Crypto} {build : Build}

theorem Program.Composed.plain {α : Type} {S : (α : Type) → NodeProgram α → Prop}
    {program : NodeProgram α} (h : Composed (fun op => op.isCommon = true) S program) :
    Composed (fun op => op.isPlain = true) S program :=
  h.mono fun _ => Op.isPlain_of_isCommon

theorem fetchTransactions_free (trans : List SignedTransaction) (hashes : List H256) :
    (fetchTransactions trans hashes).All (fun op => op.isFree = true) fun _ => True := by
  induction hashes generalizing trans with
  | nil => trivial
  | cons hash rest ih =>
      refine ⟨rfl, fun known => ?_⟩
      cases known with
      | false => trivial
      | true => exact ⟨rfl, fun transaction => ih _⟩

theorem answerGetTransactions_free (peer : PeerId) (hashes : List H256) :
    (answerGetTransactions peer hashes).All (fun op => op.isFree = true) fun _ => True := by
  unfold answerGetTransactions
  rw [Program.all_bind]
  refine (fetchTransactions_free _ _).mono (fun _ => id) fun trans _ => ?_
  cases trans with
  | some trans => exact ⟨rfl, fun _ => trivial⟩
  | none => trivial

theorem storeTransaction_free (newTrans : List H256) (trans : SignedTransaction) :
    (storeTransaction C newTrans trans).All (fun op => op.isFree = true) fun _ => True := by
  unfold storeTransaction
  split
  next =>
    refine ⟨rfl, fun known => ?_⟩
    cases known with
    | true => trivial
    | false => exact ⟨rfl, fun _ => trivial⟩
  next => trivial

theorem storeTransactions_free (transactions : List SignedTransaction) :
    (storeTransactions C transactions).All (fun op => op.isFree = true) fun _ => True := by
  unfold storeTransactions
  rw [Program.all_bind]
  refine (Program.all_foldlM storeTransaction_free).mono (fun _ => id) fun newTrans _ => ?_
  split
  next => exact ⟨rfl, fun _ => trivial⟩
  next => trivial

/-- Only the arm for `Blocks` needs more than the free operations. -/
theorem handleMessage_free (peer : PeerId) (orphanBlocks : List Block) (message : Message)
    (hmessage : ∀ blocks, message ≠ .blocks blocks) :
    (handleMessage C build peer orphanBlocks message).All (fun op => op.isFree = true)
      fun result => result = orphanBlocks := by
  cases message with
  | ping nonce => exact ⟨rfl, fun _ => rfl⟩
  | pong nonce => rfl
  | newBlockHashes hashes => exact ⟨rfl, fun _ => rfl⟩
  | getBlocks blockHashes => exact ⟨rfl, fun _ => rfl⟩
  | blocks blocks => exact absurd rfl (hmessage blocks)
  | newTransactionHashes hashes => rfl
  | getTransactions transactionHashes =>
      simp only [handleMessage, Program.all_bind]
      exact (answerGetTransactions_free _ _).mono (fun _ => id) fun _ _ => rfl
  | transactions transactions =>
      simp only [handleMessage, Program.all_bind]
      exact (storeTransactions_free _).mono (fun _ => id) fun _ _ => rfl

theorem generate_free (geneLoop : GeneLoop) (generator : Generator)
    (iteration : HashMap.Iteration (H256 × UInt8) (UInt32 × Address)) :
    (geneLoop.generate C generator iteration).All (fun op => op.isFree = true) fun _ => True := by
  unfold GeneLoop.generate
  split
  next inputs balance _ =>
    split
    next => trivial
    next =>
      refine ⟨rfl, fun known => ?_⟩
      cases known with
      | true => exact ⟨rfl, fun _ => trivial⟩
      | false => exact ⟨rfl, fun _ => ⟨rfl, fun _ => trivial⟩⟩

theorem releaseOrphans_composed (loop : BlocksLoop) (i : Nat) :
    (releaseOrphans C build loop i).Common C build := by
  induction loop, i using releaseOrphans.induct C with
  | case1 loop i hn hi blockToUnorphan hparent orphanBlocks ihAdmitted =>
      rename_i ihDropped
      rw [releaseOrphans, dif_pos hn, dif_pos hi]
      simp only
      rw [if_pos hparent]
      refine .bind (.call rfl) fun parent => ?_
      split
      next =>
        refine .bind (.part (.admitBlock _)) fun admitted => ?_
        cases admitted with
        | true => exact ihAdmitted
        | false => exact ihDropped
      next => exact ihDropped
  | case2 loop i hn hi blockToUnorphan hparent =>
      rename_i ih
      rw [releaseOrphans, dif_pos hn, dif_pos hi]
      simp only
      rw [if_neg hparent]
      exact ih
  | case3 loop i hn hi ih =>
      rw [releaseOrphans, dif_pos hn, dif_neg hi]
      exact ih
  | case4 loop i hn =>
      rw [releaseOrphans, dif_neg hn]
      exact .done loop

theorem processBlock_composed (peer : PeerId) (blocks : List Block) (loop : BlocksLoop)
    (block : Block) : (processBlock C build peer (.blocks blocks) loop block).Common C build := by
  simp only [processBlock]
  split
  next =>
    refine .bind (.call rfl) fun known => ?_
    cases known with
    | true => exact .done loop
    | false =>
        refine .bind (.call rfl) fun hasParent => ?_
        cases hasParent with
        | false => exact .bind (.call rfl) fun _ => .done _
        | true =>
            refine .bind (.call rfl) fun parent => ?_
            split
            next =>
              refine .bind (.part (.admitBlock block)) fun admitted => ?_
              cases admitted with
              | true => exact releaseOrphans_composed _ _
              | false => exact releaseOrphans_composed _ _
            next => exact releaseOrphans_composed _ _
  next => exact .done loop

theorem handleMessage_composed (peer : PeerId) (orphanBlocks : List Block) (message : Message) :
    (handleMessage C build peer orphanBlocks message).Common C build := by
  cases message with
  | ping nonce => exact .bind (.call rfl) fun _ => .done _
  | pong nonce => exact .done _
  | newBlockHashes hashes => exact .bind (.call rfl) fun _ => .done _
  | getBlocks blockHashes => exact .bind (.call rfl) fun _ => .done _
  | blocks blocks =>
      refine .bind (.foldlM (fun _ _ => processBlock_composed _ _ _ _) _ _) fun loop => ?_
      split
      next => exact .bind (.call rfl) fun _ => .done _
      next => exact .done _
  | newTransactionHashes hashes => exact .done _
  | getTransactions hashes => exact .bind (.part (.answerGetTransactions _ _)) fun _ => .done _
  | transactions transactions =>
      refine .bind ?_ fun _ => .done _
      refine .bind (.foldlM (fun _ _ => .part (.storeTransaction _ _)) _ _) fun newTrans => ?_
      split
      next => exact .call rfl
      next => exact .done _

section Plain

variable {S : (α : Type) → NodeProgram α → Prop}

theorem minerRound_composed (miner : Miner) (nonce : UInt32) (timestamp : BitVec 128)
    (iteration : HashMap.Iteration H256 SignedTransaction) :
    Program.Composed (fun op => op.isPlain = true) S
      (minerRound C miner nonce timestamp iteration) := by
  unfold minerRound
  split
  next => exact .bind (.call rfl) fun _ => .done _
  next => exact .done _
  next =>
    refine .bind (.call rfl) fun signal => ?_
    simp only
    split
    next => exact .done _
    next =>
      refine .bind ?_ fun miner => .bind ?_ fun _ => .done _
      · unfold selectTransactions
        split
        next => exact .bind (.call rfl) fun _ => .done _
        next => exact .done _
      · obtain ⟨tree, root, htree, hroot⟩ :=
          MerkleTree.new_root_ok (C := C) (SignedTransaction.hash C) miner.transaction
        simp only [mineBlock, htree, NodeProgram.ofExcept, Program.done_bind, hroot]
        refine .bind (.call rfl) fun parent => ?_
        split
        next =>
          have hremove : ∀ item, Program.Composed (fun op => op.isPlain = true) S
              (NodeProgram.call (.mempoolRemove item)) := fun item => .call rfl
          exact .bind (.call rfl) fun _ => .bind (.forM hremove _) fun _ => .done _
        next => exact .done _

theorem round_composed (geneLoop : GeneLoop) (generator : Generator)
    (iteration : HashMap.Iteration (H256 × UInt8) (UInt32 × Address))
    (hgenerate : ∀ generator, S Generator (geneLoop.generate C generator iteration)) :
    Program.Composed (fun op => op.isCommon = true) S (geneLoop.round C generator iteration) := by
  unfold GeneLoop.round
  split
  next => exact .bind (.call rfl) fun _ => .done _
  next => exact .done _
  next =>
    refine .bind (.call rfl) fun signal => ?_
    simp only
    split
    next => exact .done _
    next =>
      refine .bind ?_ fun generator => .bind (.part (hgenerate _)) fun _ => .done _
      refine .bind (.call rfl) fun tip => ?_
      split
      next => exact .done _
      next => exact .bind (.call rfl) fun _ => .done _

theorem walkTxs_composed (height : Nat) (nextHash : H256) (hashes : List (List H256)) :
    Program.Composed (fun op => op.isCommon = true) S (Api.walkTxs C height nextHash hashes) := by
  induction height generalizing nextHash hashes with
  | zero => exact .done _
  | succ height ih => exact .bind (.call rfl) fun _ => ih _ _

theorem walkDown_composed (steps : Nat) (nextHash : H256) (block : Block) :
    Program.Composed (fun op => op.isCommon = true) S (Api.walkDown steps nextHash block) := by
  induction steps generalizing nextHash block with
  | zero => exact .done _
  | succ steps ih => exact .bind (.call rfl) fun _ => ih _ _

theorem serve_composed (request : ApiRequest) :
    Program.Composed (fun op => op.isCommon = true) S (Api.serve C request) := by
  cases request with
  | minerStart lambda => exact .bind (.call rfl) fun _ => .done _
  | txGeneratorStart theta => exact .bind (.call rfl) fun _ => .done _
  | networkPing => exact .bind (.call rfl) fun _ => .done _
  | longestChain => exact .bind (.call rfl) fun _ => .done _
  | longestChainTx =>
      refine .bind ?_ fun _ => .done _
      exact .bind (.call rfl) fun _ => .bind (.call rfl) fun _ =>
        .bind (walkTxs_composed _ _ _) fun _ => .done _
  | longestChainTxCount => exact .done _
  | state block =>
      refine .bind ?_ fun _ => .done _
      exact .bind (.call rfl) fun _ => .bind (.call rfl) fun _ =>
        .bind (walkDown_composed _ _ _) fun _ => .call rfl
  | notFound => exact .done _

end Plain

/-- Every round of every thread is composed of plain operations and the parts. -/
theorem nodeBody_composed {geneLoop : GeneLoop} {task : Task} {choice : Choice}
    {program : NodeProgram Task} (hbody : nodeBody C build geneLoop task choice = some program) :
    program.Composed C build := by
  unfold nodeBody at hbody
  split at hbody
  all_goals cases hbody
  next => exact .bind (handleMessage_composed _ _ _).plain fun _ => .done _
  next => exact .done _
  next => exact .bind (minerRound_composed _ _ _ _) fun _ => .done _
  next =>
    refine .bind ?_ fun _ => .done _
    refine .bind (.call rfl) fun finished => ?_
    cases finished with
    | none => exact .done _
    | some block =>
        refine .bind (.part (.admitBlock block)) fun admitted => ?_
        cases admitted with
        | true => exact .call rfl
        | false => exact .done _
  next =>
    refine .bind ?_ fun _ => .done _
    exact .bind (.call rfl) fun _ => .bind (.call rfl) fun _ => .done _
  next =>
    exact .bind (round_composed _ _ _ fun _ => .generate _ _ _).plain fun _ => .done _
  next => exact .bind (serve_composed _).plain fun _ => .done _

end BitcoinClient
