import BitcoinClient.Foundation.Program
import BitcoinClient.Node.Shared

/-! # The operations of the node's threads

A thread acts on the shared memory through the operations below, each one step
for the others. `NodeProgram` is what the bodies of the source's loops become.
-/

namespace BitcoinClient

/-- The panics of a lookup in `blocks` or `block_state`. -/
def Panic.isLookup : Panic → Bool
  | .blocksLookup | .blockStateLookup => true
  | _ => false

inductive Op where
  | containsBlock (hash : H256)
  | getBlock (hash : H256)
  | readTip
  | insertBlock (block : Block)
  | longestChain
  | answerNewBlockHashes (peer : PeerId) (hashes : List H256)
  | answerGetBlocks (peer : PeerId) (blockHashes : List H256)
  | readBlockState (hash : H256)
  | writeBlockState (hash : H256) (state : State)
  | mempoolContains (hash : H256)
  | mempoolGet (hash : H256)
  | mempoolInsert (hash : H256) (trans : SignedTransaction)
  | mempoolRemove (hash : H256)
  | iterateMempool (iteration : HashMap.Iteration H256 SignedTransaction) (limit : Nat)
  | minerSignal
  | generatorSignal
  | signalMiner (signal : ControlSignal)
  | signalGenerator (signal : ControlSignal)
  | finishBlock (block : Block)
  | takeFinishedBlock
  | send (message : Sent)
  /-- A panic that no lock is held for. -/
  | panic (reason : Panic)

namespace Op

/-- What an operation returns. -/
@[reducible] def Result : Op → Type
  | containsBlock _ => Bool
  | getBlock _ => Block × UInt32
  | readTip => H256
  | longestChain => List H256
  | readBlockState _ => State
  | mempoolContains _ => Bool
  | mempoolGet _ => SignedTransaction
  | iterateMempool .. => List (H256 × SignedTransaction)
  | minerSignal => Option ControlSignal
  | generatorSignal => Option ControlSignal
  | takeFinishedBlock => Option Block
  | panic _ => Empty
  | insertBlock _ | answerNewBlockHashes .. | answerGetBlocks .. | writeBlockState ..
  | mempoolInsert .. | mempoolRemove _ | signalMiner _ | signalGenerator _ | finishBlock _
  | send _ => Unit

/-- The effect of an operation on the shared memory. -/
def action (C : Crypto) (build : Build) : (op : Op) → Action op.Result
  | containsBlock hash => BitcoinClient.containsBlock hash
  | getBlock hash => BitcoinClient.getBlock hash
  | readTip => BitcoinClient.readTip
  | insertBlock block => BitcoinClient.insertBlock C build block
  | longestChain => BitcoinClient.longestChain
  | answerNewBlockHashes peer hashes => BitcoinClient.answerNewBlockHashes peer hashes
  | answerGetBlocks peer blockHashes => BitcoinClient.answerGetBlocks peer blockHashes
  | readBlockState hash => BitcoinClient.readBlockState hash
  | writeBlockState hash state => BitcoinClient.writeBlockState hash state
  | mempoolContains hash => BitcoinClient.mempoolContains hash
  | mempoolGet hash => BitcoinClient.mempoolGet hash
  | mempoolInsert hash transaction => BitcoinClient.mempoolInsert hash transaction
  | mempoolRemove hash => BitcoinClient.mempoolRemove hash
  | iterateMempool iteration limit => BitcoinClient.iterateMempool iteration limit
  | minerSignal => BitcoinClient.minerSignal
  | generatorSignal => BitcoinClient.generatorSignal
  | signalMiner signal => BitcoinClient.signalMiner signal
  | signalGenerator signal => BitcoinClient.signalGenerator signal
  | finishBlock block => BitcoinClient.finishBlock block
  | takeFinishedBlock => BitcoinClient.takeFinishedBlock
  | send message => BitcoinClient.send message
  | panic reason => throw reason

/-- Whether an operation writes to the block tree. -/
def writesBlocks : Op → Bool
  | insertBlock _ => true
  | _ => false

/-- Whether an operation writes to the ledger states. -/
def writesStates : Op → Bool
  | writeBlockState .. => true
  | _ => false

/-- Whether an operation locks the mempool. -/
def locksMempool : Op → Bool
  | mempoolContains _ | mempoolGet _ | mempoolInsert .. | mempoolRemove _ | iterateMempool .. =>
    true
  | _ => false

/-- Whether an operation uses the queue of mined blocks. -/
def usesQueue : Op → Bool
  | finishBlock _ | takeFinishedBlock => true
  | _ => false

/-- Whether an operation hands messages to the network layer. -/
def sends : Op → Bool
  | send _ | answerNewBlockHashes .. | answerGetBlocks .. => true
  | _ => false

/-- Whether an operation unwraps a lookup in the block tree or the ledger states. -/
def looksUp : Op → Bool
  | getBlock _ | insertBlock _ | longestChain | readBlockState _ => true
  | panic reason => reason.isLookup
  | _ => false

/-- What an operation leaves alone. -/
structure Frame (op : Op) (s s' : Shared) : Prop where
  blocks : op.writesBlocks = false → s'.blockchain.value = s.blockchain.value
  states : op.writesStates = false → s'.blockState.value = s.blockState.value
  mempool : op.locksMempool = false → s'.mempool = s.mempool
  queue : op.usesQueue = false → s'.finishedBlockChan = s.finishedBlockChan
  sent : op.sends = false → s'.sent = s.sent

theorem Frame.refl (op : Op) (s : Shared) : op.Frame s s :=
  ⟨fun _ => rfl, fun _ => rfl, fun _ => rfl, fun _ => rfl, fun _ => rfl⟩

section Frame

variable (C : Crypto) (build : Build) {s : Shared}

theorem wp_frame_withBlockchain {α : Type} {op : Op}
    {body : Blockchain → Except Panic (α × Blockchain)}
    (hread : op.writesBlocks = false → ∀ result value,
      body s.blockchain.value = .ok (result, value) →
      value = s.blockchain.value)
    (hfail : ∀ reason, body s.blockchain.value = .error reason →
      reason.isLookup = true → op.looksUp = true) :
    (withBlockchain body).wp (fun _ s' => op.Frame s s')
      (fun reason s' => op.Frame s s' ∧ (reason.isLookup = true → op.looksUp = true)) s := by
  rw [wp_withBlockchain]
  refine ⟨fun _ => ⟨.refl op s, nofun⟩, fun _ => ?_⟩
  cases hbody : body s.blockchain.value with
  | error reason =>
      exact ⟨⟨fun _ => rfl, fun _ => rfl, fun _ => rfl, fun _ => rfl, fun _ => rfl⟩,
        hfail reason hbody⟩
  | ok result =>
      exact ⟨fun hop => hread hop _ _ hbody, fun _ => rfl, fun _ => rfl, fun _ => rfl,
        fun _ => rfl⟩

theorem wp_frame_withBlockState {α : Type} {op : Op}
    {body : HashMap H256 State → Except Panic (α × HashMap H256 State)}
    (hread : op.writesStates = false → ∀ result value,
      body s.blockState.value = .ok (result, value) →
      value = s.blockState.value)
    (hfail : ∀ reason, body s.blockState.value = .error reason →
      reason.isLookup = true → op.looksUp = true) :
    (withBlockState body).wp (fun _ s' => op.Frame s s')
      (fun reason s' => op.Frame s s' ∧ (reason.isLookup = true → op.looksUp = true)) s := by
  rw [wp_withBlockState]
  refine ⟨fun _ => ⟨.refl op s, nofun⟩, fun _ => ?_⟩
  cases hbody : body s.blockState.value with
  | error reason =>
      exact ⟨⟨fun _ => rfl, fun _ => rfl, fun _ => rfl, fun _ => rfl, fun _ => rfl⟩,
        hfail reason hbody⟩
  | ok result =>
      exact ⟨fun _ => rfl, fun hop => hread hop _ _ hbody, fun _ => rfl, fun _ => rfl,
        fun _ => rfl⟩

theorem wp_frame_withMempool {α : Type} {op : Op} {body : Mempool → Except Panic (α × Mempool)}
    (hop : op.locksMempool = true)
    (hfail : ∀ reason, body s.mempool.value = .error reason → reason.isLookup = false) :
    (withMempool body).wp (fun _ s' => op.Frame s s')
      (fun reason s' => op.Frame s s' ∧ (reason.isLookup = true → op.looksUp = true)) s := by
  rw [wp_withMempool]
  refine ⟨fun _ => ⟨.refl op s, nofun⟩, fun _ => ?_⟩
  have hmempool : ∀ {P : Prop}, op.locksMempool = false → P := by
    intro P hfalse
    rw [hop] at hfalse
    cases hfalse
  cases hbody : body s.mempool.value with
  | error reason =>
      refine ⟨⟨fun _ => rfl, fun _ => rfl, hmempool, fun _ => rfl, fun _ => rfl⟩, fun hlookup => ?_⟩
      rw [hfail reason hbody] at hlookup
      cases hlookup
  | ok result => exact ⟨fun _ => rfl, fun _ => rfl, hmempool, fun _ => rfl, fun _ => rfl⟩

/-- What one step can change, and which steps can fail on a lookup. -/
theorem wp_frame (op : Op) :
    (op.action C build).wp (fun _ s' => op.Frame s s')
      (fun reason s' => op.Frame s s' ∧ (reason.isLookup = true → op.looksUp = true)) s := by
  cases op with
  | containsBlock hash =>
      simp only [action, BitcoinClient.containsBlock]
      exact wp_frame_withBlockchain (by simp) (by simp)
  | getBlock hash =>
      simp only [action, BitcoinClient.getBlock]
      refine wp_frame_withBlockchain (fun _ entry value hbody => ?_) fun _ _ _ => rfl
      obtain ⟨_, _, heq⟩ := except_bind_eq_ok.mp hbody
      cases heq
      rfl
  | readTip =>
      simp only [action, BitcoinClient.readTip]
      exact wp_frame_withBlockchain (by simp) (by simp)
  | insertBlock block =>
      simp only [action, BitcoinClient.insertBlock]
      exact wp_frame_withBlockchain (by simp [writesBlocks]) fun _ _ _ => rfl
  | longestChain =>
      simp only [action, BitcoinClient.longestChain]
      refine wp_frame_withBlockchain (fun _ hashes value hbody => ?_) fun _ _ _ => rfl
      obtain ⟨_, _, heq⟩ := except_bind_eq_ok.mp hbody
      cases heq
      rfl
  | answerNewBlockHashes peer hashes =>
      simp only [action, BitcoinClient.answerNewBlockHashes, Effect.wp_bind]
      refine Effect.wp_mono (wp_frame_withBlockchain (by simp) (by simp)) ?_ fun _ _ h => h
      intro blockHashes s' hframe
      split
      next => exact ⟨hframe.blocks, hframe.states, hframe.mempool, hframe.queue, by simp [sends]⟩
      next => exact hframe
  | answerGetBlocks peer blockHashes =>
      simp only [action, BitcoinClient.answerGetBlocks, Effect.wp_bind]
      refine Effect.wp_mono (wp_frame_withBlockchain (by simp) (by simp)) ?_ fun _ _ h => h
      intro blocks s' hframe
      cases blocks with
      | some blocks =>
          exact ⟨hframe.blocks, hframe.states, hframe.mempool, hframe.queue, by simp [sends]⟩
      | none => exact hframe
  | readBlockState hash =>
      simp only [action, BitcoinClient.readBlockState]
      refine wp_frame_withBlockState (fun _ state value hbody => ?_) fun _ _ _ => rfl
      obtain ⟨_, _, heq⟩ := except_bind_eq_ok.mp hbody
      cases heq
      rfl
  | writeBlockState hash state =>
      simp only [action, BitcoinClient.writeBlockState]
      exact wp_frame_withBlockState (by simp [writesStates]) (by simp)
  | mempoolContains hash =>
      simp only [action, BitcoinClient.mempoolContains]
      exact wp_frame_withMempool rfl (by simp)
  | mempoolGet hash =>
      simp only [action, BitcoinClient.mempoolGet]
      refine wp_frame_withMempool rfl fun reason hbody => ?_
      cases hget : s.mempool.value.trans.get hash with
      | none =>
          rw [hget] at hbody
          cases hbody
          rfl
      | some transaction =>
          rw [hget] at hbody
          cases hbody
  | mempoolInsert hash transaction =>
      simp only [action, BitcoinClient.mempoolInsert]
      exact wp_frame_withMempool rfl (by simp)
  | mempoolRemove hash =>
      simp only [action, BitcoinClient.mempoolRemove]
      exact wp_frame_withMempool rfl (by simp)
  | iterateMempool iteration limit =>
      simp only [action, BitcoinClient.iterateMempool]
      exact wp_frame_withMempool rfl (by simp)
  | finishBlock block =>
      exact ⟨fun _ => rfl, fun _ => rfl, fun _ => rfl, by simp [usesQueue], fun _ => rfl⟩
  | takeFinishedBlock =>
      exact ⟨fun _ => rfl, fun _ => rfl, fun _ => rfl, by simp [usesQueue], fun _ => rfl⟩
  | send message =>
      exact ⟨fun _ => rfl, fun _ => rfl, fun _ => rfl, fun _ => rfl, by simp [sends]⟩
  | minerSignal => exact ⟨fun _ => rfl, fun _ => rfl, fun _ => rfl, fun _ => rfl, fun _ => rfl⟩
  | generatorSignal =>
      exact ⟨fun _ => rfl, fun _ => rfl, fun _ => rfl, fun _ => rfl, fun _ => rfl⟩
  | signalMiner signal =>
      exact ⟨fun _ => rfl, fun _ => rfl, fun _ => rfl, fun _ => rfl, fun _ => rfl⟩
  | signalGenerator signal =>
      exact ⟨fun _ => rfl, fun _ => rfl, fun _ => rfl, fun _ => rfl, fun _ => rfl⟩
  | panic reason => exact ⟨.refl _ s, id⟩

end Frame

end Op

/-- A program over the operations of the node. -/
abbrev NodeProgram (α : Type) := Program Op Op.Result α

namespace NodeProgram

/-- Perform one operation. -/
def call (op : Op) : NodeProgram op.Result := Program.call op

/-- Panic outside of every critical section. -/
def panic {α : Type} (reason : Panic) : NodeProgram α := .perform (.panic reason) Empty.elim

/-- Go on with the value of a computation that may panic. -/
def ofExcept {α : Type} : Except Panic α → NodeProgram α
  | .ok value => .done value
  | .error reason => panic reason

end NodeProgram

open NodeProgram (call)

section CheckTxState

variable (C : Crypto) (build : Build)

/-- `check_tx_state`, the same function in both workers. The loop over the
transactions holds no lock. -/
def checkTxState (parentHash : H256) (signedTxs : List SignedTransaction) (blockHash : H256) :
    NodeProgram Bool := do
  let state : State ← call (.readBlockState parentHash)
  match checkTxs C build state signedTxs with
  | .error .rejected => pure false
  | .error .overflow => NodeProgram.panic .overflow
  | .ok state => do
    call (.writeBlockState blockHash state)
    pure true

/-- Both workers insert a block right after `check_tx_state` returned true. The
result says whether they did. -/
def admitBlock (block : Block) : NodeProgram Bool := do
  let valid ← checkTxState C build block.head.parent block.cont.st (block.hash C)
  if valid then
    call (.insertBlock block)
    pure true
  else pure false

/-- Run a program of the node without interference. -/
abbrev NodeProgram.run {α : Type} (program : NodeProgram α) : Action α :=
  Program.run (Op.action C build) program

variable {C build}

theorem wp_checkTxState (parentHash blockHash : H256) (signedTxs : List SignedTransaction)
    {post : Bool → Shared → Prop} {fail : Panic → Shared → Prop} {s : Shared} :
    ((checkTxState C build parentHash signedTxs blockHash).run C build).wp post fail s ↔
      (s.blockState.poisoned = true → fail .poisoned s) ∧
      (s.blockState.poisoned = false →
        match s.blockState.value.get parentHash with
        | none => fail .blockStateLookup
            { s with blockState := { s.blockState with poisoned := true } }
        | some state =>
          match checkTxs C build state signedTxs with
          | .error .rejected => post false s
          | .error .overflow => fail .overflow s
          | .ok next => post true { s with blockState :=
              { s.blockState with value := s.blockState.value.insert blockHash next } }) := by
  unfold checkTxState call
  simp only [Program.call_bind, Program.run_perform, Op.action, Effect.wp_bind, wp_readBlockState]
  refine and_congr_right fun _ => forall_congr' fun hpoisoned => ?_
  cases s.blockState.value.get parentHash with
  | none => rfl
  | some state =>
      dsimp only
      split
      next => simp
      next => simp [NodeProgram.panic, Op.action]
      next => simp [Op.action, hpoisoned]

end CheckTxState

end BitcoinClient
