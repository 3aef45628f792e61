import BitcoinClient.Node.Operation
import BitcoinClient.Types.Merkle

/-! # The miner and its worker

The miner assembles blocks from the mempool and queues those that meet the
difficulty; its worker checks the queued blocks and inserts them.
-/

namespace BitcoinClient

open NodeProgram (call)

inductive OperatingState where
  | paused
  | run (interval : UInt64)
  | shutDown
deriving DecidableEq, Repr

namespace OperatingState

/-- How the miner and the generator react to a control signal. -/
def react (operatingState : OperatingState) : ControlSignal → OperatingState
  | .exit => .shutDown
  | .start interval => .run interval
  | .update => operatingState

end OperatingState

/-- The variables of `miner_loop` that survive an iteration. -/
structure Miner where
  operatingState : OperatingState := .paused
  toRemove : List H256 := []
  transaction : List SignedTransaction := []

variable (C : Crypto) (build : Build)

/-- The most transactions of the mempool that go into a block. -/
def blockSize : Nat := 50

/-- Copy transactions from the mempool, unless those for an earlier block are still held. -/
def selectTransactions (miner : Miner)
    (iteration : HashMap.Iteration H256 SignedTransaction) : NodeProgram Miner := do
  if miner.toRemove.length = 0 then
    let entries ← call (.iterateMempool iteration blockSize)
    pure { miner with
      transaction := miner.transaction ++ entries.map Prod.snd
      toRemove := miner.toRemove ++ entries.map Prod.fst }
  else
    pure miner

/-- Assemble a block on the present tip and queue it when it meets the difficulty. -/
def mineBlock (miner : Miner) (nonce : UInt32) (timestamp : BitVec 128) :
    NodeProgram Miner := do
  let tree ← NodeProgram.ofExcept (MerkleTree.new C (SignedTransaction.hash C) miner.transaction)
  let root ← NodeProgram.ofExcept tree.root
  let diff := Blockchain.genesisDifficulty
  let parent ← call .readTip
  let block : Block := ⟨⟨parent, nonce, diff, timestamp, root⟩, ⟨miner.transaction⟩⟩
  if block.hash C ≤ diff then
    call (.finishBlock block)
    miner.toRemove.forM fun item => call (.mempoolRemove item)
    pure { miner with toRemove := [], transaction := [] }
  else
    pure miner

/-- One iteration of `miner_loop`; nothing when the loop returns. A paused miner
that finds no signal goes on waiting. -/
def minerRound (miner : Miner) (nonce : UInt32) (timestamp : BitVec 128)
    (iteration : HashMap.Iteration H256 SignedTransaction) : NodeProgram (Option Miner) :=
  match miner.operatingState with
  | .paused => do
    let signal ← call .minerSignal
    let operatingState := signal.elim miner.operatingState miner.operatingState.react
    pure (some { miner with operatingState })
  | .shutDown => pure none
  | .run _ => do
    let signal ← call .minerSignal
    let operatingState := signal.elim miner.operatingState miner.operatingState.react
    if operatingState = .shutDown then
      pure none
    else do
      let miner ← selectTransactions { miner with operatingState } iteration
      let miner ← mineBlock C miner nonce timestamp
      pure (some miner)

/-- The loop over the transactions of a block in `tx_exist_check`. -/
def hasTransaction (tx : H256) (block : Block) : Bool :=
  block.cont.st.any fun signedTransaction => tx == signedTransaction.hash C

/-- The loop of `tx_exist_check` over the blocks, counting `height` down. -/
def txExistLoop (tx : H256) : Nat → H256 → NodeProgram Bool
  | 0, _ => pure true
  | height + 1, nextHash => do
    let entry ← call (.getBlock nextHash)
    if hasTransaction C tx entry.1 then pure false
    else txExistLoop tx height entry.1.head.parent

/-- `tx_exist_check`, whose only call is commented out. -/
def txExistCheck (tx : H256) : NodeProgram Bool := do
  let tip ← call .readTip
  let entry ← call (.getBlock tip)
  if hasTransaction C tx entry.1 then pure false
  else txExistLoop C tx entry.2.toNat entry.1.head.parent

/-- One round of the miner worker's `worker_loop`. -/
def minerWorkerRound : NodeProgram Unit := do
  let finished ← call .takeFinishedBlock
  match finished with
  | none => pure ()
  | some block => do
    let admitted ← admitBlock C build block
    if admitted then
      call (.send (.broadcast (.newBlockHashes [block.hash C])))

end BitcoinClient
