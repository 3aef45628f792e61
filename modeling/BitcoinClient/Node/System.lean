import BitcoinClient.Api
import BitcoinClient.Generator
import BitcoinClient.Network.Worker

/-! # The node as a system of threads

`main` starts the network workers, the miner, the miner worker and the generator
over one shared memory, and the API server answers requests in further threads.
A run interleaves their operations in any order and with any messages, nonces,
times, iteration orders and requests.
-/

namespace BitcoinClient

/-- The threads of a node with that many network workers and API requests at a time. -/
inductive ThreadId (workers requests : Nat) where
  | network (i : Fin workers)
  | miner
  | minerWorker
  | generator
  | api (i : Fin requests)
deriving DecidableEq

/-- The numbers of a few workers are written as literals. -/
instance neZeroOne : NeZero 1 := ⟨Nat.one_ne_zero⟩

instance neZeroTwo : NeZero 2 := ⟨Nat.succ_ne_zero 1⟩

/-- What a thread does next, with the variables that its loop keeps. -/
inductive Task where
  | network (orphanBlocks : List Block)
  | miner (miner : Miner)
  | minerWorker
  | generatorStart
  | generator (generator : Generator)
  | api
  | exited

/-- What the environment supplies to a round. -/
inductive Choice where
  | deliver (peer : PeerId) (message : Message)
  /-- The channel of a network worker is closed. -/
  | disconnect
  | mine (nonce : UInt32) (timestamp : BitVec 128)
      (iteration : HashMap.Iteration H256 SignedTransaction)
  | generate (iteration : HashMap.Iteration (H256 × UInt8) (UInt32 × Address))
  | request (request : ApiRequest)
  | go

/-- The blocks that the network delivers. -/
def Choice.blocks : Choice → List Block
  | .deliver _ (.blocks blocks) => blocks
  | _ => []

section Node

variable (C : Crypto) (build : Build) (geneLoop : GeneLoop)

/-- One round of every thread. -/
def nodeBody : Task → Choice → Option (NodeProgram Task)
  | .network orphanBlocks, .deliver peer message => some do
    let orphanBlocks ← handleMessage C build peer orphanBlocks message
    pure (.network orphanBlocks)
  | .network _, .disconnect => some (pure .exited)
  | .miner miner, .mine nonce timestamp iteration => some do
    let miner ← minerRound C miner nonce timestamp iteration
    pure (miner.elim .exited .miner)
  | .minerWorker, .go => some do
    minerWorkerRound C build
    pure .minerWorker
  | .generatorStart, .go => some do
    let generator ← GeneLoop.start
    pure (.generator generator)
  | .generator generator, .generate iteration => some do
    let generator ← geneLoop.round C generator iteration
    pure (generator.elim .exited .generator)
  | .api, .request request => some do
    let _ ← Api.serve C request
    pure .api
  | _, _ => none

/-- The threads of the node, one operation at a time. -/
def nodeMachine : Machine Shared Panic (Program.Thread Panic Op Op.Result Task) Choice :=
  Program.loopMachine (Op.action C build) (nodeBody C build geneLoop)

/-- The threads of the node, one whole round at a time. -/
def nodeRounds : Machine Shared Panic (Except Panic Task) Choice :=
  Program.roundMachine (Op.action C build) (nodeBody C build geneLoop)

/-- The memory and the threads of a running node. -/
abbrev Node (workers requests : Nat) :=
  Config Shared (Program.Thread Panic Op Op.Result Task) (ThreadId workers requests)

/-- Where a thread starts. -/
def Task.start {workers requests : Nat} : ThreadId workers requests → Task
  | .network _ => .network []
  | .miner => .miner {}
  | .minerWorker => .minerWorker
  | .generator => .generatorStart
  | .api _ => .api

/-- `main`. -/
def Node.start (icoKey : Ed25519KeyPair) (workers requests : Nat) : Node workers requests :=
  ⟨Shared.initial C icoKey, fun who => .ok (.done (.start who))⟩

/-- A node in which every thread is between two rounds. -/
abbrev IdleNode (workers requests : Nat) :=
  Config Shared (Except Panic Task) (ThreadId workers requests)

def IdleNode.start (icoKey : Ed25519KeyPair) (workers requests : Nat) :
    IdleNode workers requests :=
  ⟨Shared.initial C icoKey, fun who => .ok (.start who)⟩

variable {C build geneLoop} in
/-- Threads that take turns by whole rounds are a case of the threads of the node. -/
theorem IdleNode.reachable {icoKey : Ed25519KeyPair} {workers requests : Nat}
    {node : IdleNode workers requests}
    {guard : IdleNode workers requests → ThreadId workers requests → Choice → Prop}
    (hreach : (nodeRounds C build geneLoop).Reachable guard
      (IdleNode.start C icoKey workers requests) node) :
    (nodeMachine C build geneLoop).Reachable (fun _ _ _ => True)
      (Node.start C icoKey workers requests) (Program.betweenRounds node) :=
  Program.Reachable.betweenRounds hreach

end Node

/-- The block that the next step of a thread queues for the miner worker. -/
def Node.finishing {workers requests : Nat} (node : Node workers requests)
    (who : ThreadId workers requests) : Option Block :=
  match (node.threads who).pending with
  | some (.finishBlock block) => some block
  | _ => none

theorem Node.finishing_eq_some {workers requests : Nat} {node : Node workers requests}
    {who : ThreadId workers requests} {block : Block} :
    node.finishing who = some block ↔ (node.threads who).pending = some (.finishBlock block) := by
  unfold Node.finishing
  cases (node.threads who).pending with
  | none => simp
  | some op => cases op <;> simp

/-- The block that an operation inserts into the block tree. -/
def Op.inserting : Op → Option Block
  | insertBlock block => some block
  | _ => none

/-- The ledger state that an operation reads. -/
def Op.reading (s : Shared) : Op → Option State
  | readBlockState hash => s.blockState.value.get hash
  | _ => none

/-- The transactions of the mempool, with their hashes, that an operation chooses. -/
def Op.choosing (s : Shared) : Op → List (H256 × SignedTransaction)
  | iterateMempool iteration limit => (iteration.entries s.mempool.value.trans).take limit
  | _ => []

/-- The block that the next step of a thread inserts into the block tree. -/
def Node.inserting {workers requests : Nat} (node : Node workers requests)
    (who : ThreadId workers requests) : Option Block :=
  (node.threads who).pending.bind Op.inserting

/-- The ledger state that the next step of a thread writes, with its key. -/
def Node.writing {workers requests : Nat} (node : Node workers requests)
    (who : ThreadId workers requests) : Option (H256 × State) :=
  match (node.threads who).pending with
  | some (.writeBlockState hash state) => some (hash, state)
  | _ => none

/-- The transaction that the next step of a thread removes from the mempool. -/
def Node.removing {workers requests : Nat} (node : Node workers requests)
    (who : ThreadId workers requests) : Option H256 :=
  match (node.threads who).pending with
  | some (.mempoolRemove hash) => some hash
  | _ => none

/-- The transaction that the next step of a thread fetches after it was found to be there. -/
def Node.fetching {workers requests : Nat} (node : Node workers requests)
    (who : ThreadId workers requests) : Option H256 :=
  match (node.threads who).pending with
  | some (.mempoolGet hash) => some hash
  | _ => none

/-- Whether a thread is between two rounds. -/
def Node.isIdle {workers requests : Nat} (node : Node workers requests)
    (who : ThreadId workers requests) : Bool :=
  match node.threads who with
  | .ok (.done _) => true
  | _ => false

end BitcoinClient
