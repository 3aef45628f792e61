import BitcoinClient.Node.Operation

/-! # The HTTP endpoints

Every request is served by a thread of its own. The path and the query of the
URL are taken as already parsed.
-/

namespace BitcoinClient

open NodeProgram (call)

inductive ApiRequest where
  | minerStart (lambda : UInt64)
  | txGeneratorStart (theta : UInt64)
  | networkPing
  | longestChain
  | longestChainTx
  | longestChainTxCount
  | state (block : UInt32)
  | notFound

inductive ApiResponse where
  | result (success : Bool) (message : String)
  | hashes (hashes : List H256)
  | txHashes (hashes : List (List H256))
  | state (state : State)

namespace Api

variable (C : Crypto)

def txHashes (block : Block) : List H256 := block.cont.st.map (SignedTransaction.hash C)

/-- The loop of `/blockchain/longest-chain-tx`, counting `height` down. -/
def walkTxs : Nat → H256 → List (List H256) → NodeProgram (List (List H256))
  | 0, _, hashes => pure hashes
  | height + 1, nextHash, hashes => do
    let entry ← call (.getBlock nextHash)
    walkTxs height entry.1.head.parent (hashes ++ [txHashes C entry.1])

/-- `/blockchain/longest-chain-tx`. -/
def longestChainTx : NodeProgram (List (List H256)) := do
  let tip ← call .readTip
  let entry ← call (.getBlock tip)
  let hashes ← walkTxs C entry.2.toNat entry.1.head.parent [txHashes C entry.1]
  pure hashes.reverse

/-- The loop of `/blockchain/state`, `steps` blocks down from `nextHash`. -/
def walkDown : Nat → H256 → Block → NodeProgram H256
  | 0, nextHash, _ => pure nextHash
  | steps + 1, _, block => do
    let entry ← call (.getBlock block.head.parent)
    walkDown steps block.head.parent entry.1

/-- `/blockchain/state`. -/
def stateAt (blockIndex : UInt32) : NodeProgram State := do
  let tip ← call .readTip
  let entry ← call (.getBlock tip)
  let nextHash ← walkDown (entry.2.toNat - blockIndex.toNat) tip entry.1
  call (.readBlockState nextHash)

/-- The thread that serves one request. -/
def serve : ApiRequest → NodeProgram ApiResponse
  | .minerStart lambda => do
    call (.signalMiner (.start lambda))
    pure (.result true "ok")
  | .txGeneratorStart theta => do
    call (.signalGenerator (.start theta))
    pure (.result true "ok!")
  | .networkPing => do
    call (.send (.broadcast (.ping "Test ping")))
    pure (.result true "ok")
  | .longestChain => do
    let hashes ← call .longestChain
    pure (.hashes hashes)
  | .longestChainTx => do
    let hashes ← longestChainTx C
    pure (.txHashes hashes)
  | .longestChainTxCount => pure (.result false "unimplemented!")
  | .state block => do
    let state ← stateAt block
    pure (.state state)
  | .notFound => pure (.result false "endpoint not found")

end Api

end BitcoinClient
