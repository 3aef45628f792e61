import BitcoinClient.Foundation.Effect
import BitcoinClient.Blockchain
import BitcoinClient.Ledger.CheckTx
import BitcoinClient.Types.Message

/-! # The memory that the threads of a node share

Three mutexes guard the block tree, the ledger states and the mempool. Every
expression of the source that takes one of them is one `Effect` here: the lock
is held from the start of the expression to its end and never two at a time,
so each is an atomic step for the other threads. A panic inside poisons the
mutex, and every later `lock().unwrap()` on it panics too.
-/

namespace BitcoinClient

/-- `std::sync::Mutex`. -/
structure Mutex (α : Type) where
  value : α
  poisoned : Bool := false

/-- Signals to the miner and to the generator. -/
inductive ControlSignal where
  | start (interval : UInt64)
  | update
  | exit
deriving DecidableEq, Repr

structure Shared where
  blockchain : Mutex Blockchain
  blockState : Mutex (HashMap H256 State)
  mempool : Mutex Mempool
  /-- The queue from the miner to its worker. -/
  finishedBlockChan : List Block
  minerControl : List ControlSignal
  generatorControl : List ControlSignal
  /-- Everything handed to the network layer, oldest first. -/
  sent : List Sent

/-- `main`: only genesis is stored, with the state of the initial coin offering. -/
def Shared.initial (C : Crypto) (icoKey : Ed25519KeyPair) : Shared where
  blockchain := ⟨Blockchain.new C, false⟩
  blockState := ⟨(∅ : HashMap _ _).insert (Blockchain.genesis.hash C) (State.new C icoKey), false⟩
  mempool := ⟨Mempool.new, false⟩
  finishedBlockChan := []
  minerControl := []
  generatorControl := []
  sent := []

/-- What a thread does between two scheduling points. -/
abbrev Action := Effect Panic Shared

/-! ## Critical sections -/

section Sections

variable {α : Type}

def withBlockchain (body : Blockchain → Except Panic (α × Blockchain)) : Action α := fun s =>
  if s.blockchain.poisoned then .error .poisoned s
  else
    match body s.blockchain.value with
    | .ok (result, value) => .ok result { s with blockchain := { s.blockchain with value } }
    | .error panic => .error panic { s with blockchain := { s.blockchain with poisoned := true } }

def withBlockState (body : HashMap H256 State → Except Panic (α × HashMap H256 State)) :
    Action α := fun s =>
  if s.blockState.poisoned then .error .poisoned s
  else
    match body s.blockState.value with
    | .ok (result, value) => .ok result { s with blockState := { s.blockState with value } }
    | .error panic => .error panic { s with blockState := { s.blockState with poisoned := true } }

def withMempool (body : Mempool → Except Panic (α × Mempool)) : Action α := fun s =>
  if s.mempool.poisoned then .error .poisoned s
  else
    match body s.mempool.value with
    | .ok (result, value) => .ok result { s with mempool := { s.mempool with value } }
    | .error panic => .error panic { s with mempool := { s.mempool with poisoned := true } }

variable {post : α → Shared → Prop} {fail : Panic → Shared → Prop} {s : Shared}

theorem wp_withBlockchain (body : Blockchain → Except Panic (α × Blockchain)) :
    (withBlockchain body).wp post fail s ↔
      (s.blockchain.poisoned = true → fail .poisoned s) ∧
      (s.blockchain.poisoned = false →
        match body s.blockchain.value with
        | .ok (result, value) => post result { s with blockchain := { s.blockchain with value } }
        | .error panic =>
          fail panic { s with blockchain := { s.blockchain with poisoned := true } }) := by
  unfold Effect.wp withBlockchain
  cases s.blockchain.poisoned
  · cases body s.blockchain.value <;> simp
  · simp

theorem wp_withBlockState (body : HashMap H256 State → Except Panic (α × HashMap H256 State)) :
    (withBlockState body).wp post fail s ↔
      (s.blockState.poisoned = true → fail .poisoned s) ∧
      (s.blockState.poisoned = false →
        match body s.blockState.value with
        | .ok (result, value) => post result { s with blockState := { s.blockState with value } }
        | .error panic =>
          fail panic { s with blockState := { s.blockState with poisoned := true } }) := by
  unfold Effect.wp withBlockState
  cases s.blockState.poisoned
  · cases body s.blockState.value <;> simp
  · simp

theorem wp_withMempool (body : Mempool → Except Panic (α × Mempool)) :
    (withMempool body).wp post fail s ↔
      (s.mempool.poisoned = true → fail .poisoned s) ∧
      (s.mempool.poisoned = false →
        match body s.mempool.value with
        | .ok (result, value) => post result { s with mempool := { s.mempool with value } }
        | .error panic =>
          fail panic { s with mempool := { s.mempool with poisoned := true } }) := by
  unfold Effect.wp withMempool
  cases s.mempool.poisoned
  · cases body s.mempool.value <;> simp
  · simp

end Sections

/-! ## The lock acquisitions of the source -/

/-- `blockchain.lock().unwrap().blocks.contains_key(&hash)`. -/
def containsBlock (hash : H256) : Action Bool :=
  withBlockchain fun blockchain => .ok (blockchain.blocks.containsKey hash, blockchain)

/-- `blockchain.lock().unwrap().blocks.get(&hash).unwrap().clone()`. -/
def getBlock (hash : H256) : Action (Block × UInt32) :=
  withBlockchain fun blockchain => do
    let entry ← unwrap (blockchain.blocks.get hash) .blocksLookup
    pure (entry, blockchain)

/-- `blockchain.lock().unwrap().tip()`. -/
def readTip : Action H256 :=
  withBlockchain fun blockchain => .ok (blockchain.tip, blockchain)

/-- `blockchain.lock().unwrap().insert(&block)`. -/
def insertBlock (C : Crypto) (build : Build) (block : Block) : Action Unit :=
  withBlockchain fun blockchain => do
    let blockchain ← blockchain.insert C build block
    pure ((), blockchain)

/-- `block_state.lock().unwrap().get(&hash).unwrap().clone()`. -/
def readBlockState (hash : H256) : Action State :=
  withBlockState fun states => do
    let state ← unwrap (states.get hash) .blockStateLookup
    pure (state, states)

/-- `block_state.lock().unwrap().insert(hash, state)`. -/
def writeBlockState (hash : H256) (state : State) : Action Unit :=
  withBlockState fun states => .ok ((), states.insert hash state)

/-- `mempool.lock().unwrap().trans.contains_key(&hash)`. -/
def mempoolContains (hash : H256) : Action Bool :=
  withMempool fun mempool => .ok (mempool.trans.containsKey hash, mempool)

/-- `mempool.lock().unwrap().trans.get(&hash).unwrap().clone()`. -/
def mempoolGet (hash : H256) : Action SignedTransaction :=
  withMempool fun mempool => do
    let trans ← unwrap (mempool.trans.get hash) .mempoolLookup
    pure (trans, mempool)

/-- `mempool.lock().unwrap().trans.insert(hash, trans)`. -/
def mempoolInsert (hash : H256) (trans : SignedTransaction) : Action Unit :=
  withMempool fun mempool => .ok ((), ⟨mempool.trans.insert hash trans⟩)

/-- `mempool.lock().unwrap().trans.remove(&hash)`. -/
def mempoolRemove (hash : H256) : Action Unit :=
  withMempool fun mempool => .ok ((), ⟨mempool.trans.remove hash⟩)

/-- `peer.write` and `server.broadcast`: hand a message to the network layer. -/
def send (message : Sent) : Action Unit :=
  modify fun s => { s with sent := s.sent ++ [message] }

/-- `all_blocks_in_longest_chain` under one acquisition of the lock. -/
def longestChain : Action (List H256) :=
  withBlockchain fun blockchain => do
    let hashes ← blockchain.allBlocksInLongestChain
    pure (hashes, blockchain)

/-- `mempool.lock().unwrap().trans.iter()`, left after `limit` entries. -/
def iterateMempool (iteration : HashMap.Iteration H256 SignedTransaction) (limit : Nat) :
    Action (List (H256 × SignedTransaction)) :=
  withMempool fun mempool => .ok ((iteration.entries mempool.trans).take limit, mempool)

/-- The arm for `NewBlockHashes`, which keeps the lock to its end. -/
def answerNewBlockHashes (peer : PeerId) (hashes : List H256) : Action Unit := do
  let blockHashes ← withBlockchain fun blockchain =>
    .ok (hashes.filter fun hash => !blockchain.blocks.containsKey hash, blockchain)
  if blockHashes.length > 0 then
    send (.write peer (.newBlockHashes hashes) (.getBlocks blockHashes))

/-- The arm for `GetBlocks`, which keeps the lock to its end. -/
def answerGetBlocks (peer : PeerId) (blockHashes : List H256) : Action Unit := do
  let blocks ← withBlockchain fun blockchain =>
    .ok (blockHashes.mapM fun hash => (blockchain.blocks.get hash).map Prod.fst, blockchain)
  match blocks with
  | some blocks => send (.write peer (.getBlocks blockHashes) (.blocks blocks))
  | none => pure ()

/-- `control_chan.try_recv()` of the miner. -/
def minerSignal : Action (Option ControlSignal) := do
  let s ← get
  set { s with minerControl := s.minerControl.tail }
  pure s.minerControl.head?

/-- `chan_receiver.try_recv()` of the generator. -/
def generatorSignal : Action (Option ControlSignal) := do
  let s ← get
  set { s with generatorControl := s.generatorControl.tail }
  pure s.generatorControl.head?

def signalMiner (signal : ControlSignal) : Action Unit :=
  modify fun s => { s with minerControl := s.minerControl ++ [signal] }

def signalGenerator (signal : ControlSignal) : Action Unit :=
  modify fun s => { s with generatorControl := s.generatorControl ++ [signal] }

/-- `finished_block_chan.send(block)`. -/
def finishBlock (block : Block) : Action Unit :=
  modify fun s => { s with finishedBlockChan := s.finishedBlockChan ++ [block] }

/-- `finished_block_chan.recv()`; nothing when the queue is empty. -/
def takeFinishedBlock : Action (Option Block) := do
  let s ← get
  set { s with finishedBlockChan := s.finishedBlockChan.tail }
  pure s.finishedBlockChan.head?

/-! ## Specifications -/

section Specifications

variable {post : Bool → Shared → Prop} {fail : Panic → Shared → Prop} {s : Shared}

/-- The mutex of the block tree, seen from a section that cannot panic. -/
@[simp] theorem wp_containsBlock (hash : H256) :
    (containsBlock hash).wp post fail s ↔
      (s.blockchain.poisoned = true → fail .poisoned s) ∧
      (s.blockchain.poisoned = false → post (s.blockchain.value.blocks.containsKey hash) s) :=
  wp_withBlockchain _

@[simp] theorem wp_getBlock (hash : H256) {post : Block × UInt32 → Shared → Prop} :
    (getBlock hash).wp post fail s ↔
      (s.blockchain.poisoned = true → fail .poisoned s) ∧
      (s.blockchain.poisoned = false →
        match s.blockchain.value.blocks.get hash with
        | some entry => post entry s
        | none => fail .blocksLookup
            { s with blockchain := { s.blockchain with poisoned := true } }) := by
  unfold getBlock
  rw [wp_withBlockchain]
  cases s.blockchain.value.blocks.get hash <;> rfl

@[simp] theorem wp_readTip {post : H256 → Shared → Prop} :
    readTip.wp post fail s ↔
      (s.blockchain.poisoned = true → fail .poisoned s) ∧
      (s.blockchain.poisoned = false → post s.blockchain.value.tip s) :=
  wp_withBlockchain _

theorem wp_insertBlock (C : Crypto) (build : Build) (block : Block)
    {post : Unit → Shared → Prop} :
    (insertBlock C build block).wp post fail s ↔
      (s.blockchain.poisoned = true → fail .poisoned s) ∧
      (s.blockchain.poisoned = false →
        match s.blockchain.value.insert C build block with
        | .ok value => post () { s with blockchain := { s.blockchain with value } }
        | .error panic =>
          fail panic { s with blockchain := { s.blockchain with poisoned := true } }) := by
  unfold insertBlock
  rw [wp_withBlockchain]
  cases s.blockchain.value.insert C build block <;> rfl

@[simp] theorem wp_readBlockState (hash : H256) {post : State → Shared → Prop} :
    (readBlockState hash).wp post fail s ↔
      (s.blockState.poisoned = true → fail .poisoned s) ∧
      (s.blockState.poisoned = false →
        match s.blockState.value.get hash with
        | some state => post state s
        | none => fail .blockStateLookup
            { s with blockState := { s.blockState with poisoned := true } }) := by
  unfold readBlockState
  rw [wp_withBlockState]
  cases s.blockState.value.get hash <;> rfl

@[simp] theorem wp_writeBlockState (hash : H256) (state : State) {post : Unit → Shared → Prop} :
    (writeBlockState hash state).wp post fail s ↔
      (s.blockState.poisoned = true → fail .poisoned s) ∧
      (s.blockState.poisoned = false →
        post () { s with blockState :=
          { s.blockState with value := s.blockState.value.insert hash state } }) :=
  wp_withBlockState _

@[simp] theorem wp_mempoolContains (hash : H256) :
    (mempoolContains hash).wp post fail s ↔
      (s.mempool.poisoned = true → fail .poisoned s) ∧
      (s.mempool.poisoned = false → post (s.mempool.value.trans.containsKey hash) s) :=
  wp_withMempool _

@[simp] theorem wp_mempoolGet (hash : H256) {post : SignedTransaction → Shared → Prop} :
    (mempoolGet hash).wp post fail s ↔
      (s.mempool.poisoned = true → fail .poisoned s) ∧
      (s.mempool.poisoned = false →
        match s.mempool.value.trans.get hash with
        | some transaction => post transaction s
        | none => fail .mempoolLookup
            { s with mempool := { s.mempool with poisoned := true } }) := by
  unfold mempoolGet
  rw [wp_withMempool]
  cases s.mempool.value.trans.get hash <;> rfl

@[simp] theorem wp_mempoolInsert (hash : H256) (trans : SignedTransaction)
    {post : Unit → Shared → Prop} :
    (mempoolInsert hash trans).wp post fail s ↔
      (s.mempool.poisoned = true → fail .poisoned s) ∧
      (s.mempool.poisoned = false →
        post () { s with mempool :=
          { s.mempool with value := ⟨s.mempool.value.trans.insert hash trans⟩ } }) :=
  wp_withMempool _

@[simp] theorem wp_mempoolRemove (hash : H256) {post : Unit → Shared → Prop} :
    (mempoolRemove hash).wp post fail s ↔
      (s.mempool.poisoned = true → fail .poisoned s) ∧
      (s.mempool.poisoned = false →
        post () { s with mempool :=
          { s.mempool with value := ⟨s.mempool.value.trans.remove hash⟩ } }) :=
  wp_withMempool _

@[simp] theorem wp_send (message : Sent) {post : Unit → Shared → Prop} :
    (send message).wp post fail s ↔ post () { s with sent := s.sent ++ [message] } := Iff.rfl

@[simp] theorem wp_generatorSignal {post : Option ControlSignal → Shared → Prop} :
    generatorSignal.wp post fail s ↔
      post s.generatorControl.head? { s with generatorControl := s.generatorControl.tail } :=
  Iff.rfl

@[simp] theorem wp_signalGenerator (signal : ControlSignal) {post : Unit → Shared → Prop} :
    (signalGenerator signal).wp post fail s ↔
      post () { s with generatorControl := s.generatorControl ++ [signal] } := Iff.rfl

end Specifications

end BitcoinClient
