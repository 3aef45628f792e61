import BitcoinClient.Node.Operation

/-! # The network worker

One round of `worker_loop` takes a message from the channel and handles it. The
orphan buffer belongs to the worker and survives from message to message.
-/

namespace BitcoinClient

open NodeProgram (call)

variable (C : Crypto) (build : Build)

/-- The variables of the arm for `Blocks`, with the worker's orphan buffer. -/
structure BlocksLoop where
  orphanBlocks : List Block
  newBlocks : List H256 := []
  /-- The position in `newBlocks` from which the orphans are not yet scanned. -/
  n : Nat := 0

namespace BlocksLoop

/-- Each orphan can be released once, and each new block is the parent to look for once. -/
def work (loop : BlocksLoop) : Nat :=
  2 * loop.orphanBlocks.length + (loop.newBlocks.length - loop.n)

/-- A bound on the steps that the two loops have left. -/
def remaining (loop : BlocksLoop) (i : Nat) : Nat :=
  loop.work * (loop.orphanBlocks.length + 1) + (loop.orphanBlocks.length - i)

theorem remaining_lt {loop next : BlocksLoop} {i j : Nat}
    (hlength : next.orphanBlocks.length ≤ loop.orphanBlocks.length)
    (hwork : next.work < loop.work) : next.remaining j < loop.remaining i := by
  have hmul : (next.work + 1) * (next.orphanBlocks.length + 1) ≤
      loop.work * (loop.orphanBlocks.length + 1) :=
    Nat.mul_le_mul hwork (Nat.succ_le_succ hlength)
  rw [Nat.succ_mul] at hmul
  unfold remaining
  omega

end BlocksLoop

/-- Both loops that release orphans. The inner one scans the buffer with `i` for
children of `newBlocks[n]` and removes them as it goes; at its end the outer one
moves `n` on. -/
def releaseOrphans (loop : BlocksLoop) (i : Nat) : NodeProgram BlocksLoop :=
  if hn : loop.n < loop.newBlocks.length then
    if hi : i < loop.orphanBlocks.length then
      let blockToUnorphan := loop.orphanBlocks[i]
      if blockToUnorphan.head.parent = loop.newBlocks[loop.n] then do
        let orphanBlocks := loop.orphanBlocks.eraseIdx i
        let parent ← call (.getBlock loop.newBlocks[loop.n])
        if blockToUnorphan.head.difficulty = parent.1.head.difficulty then do
          let admitted ← admitBlock C build blockToUnorphan
          if admitted then
            releaseOrphans { loop with orphanBlocks, newBlocks :=
              loop.newBlocks ++ [blockToUnorphan.hash C] } i
          else
            releaseOrphans { loop with orphanBlocks } i
        else
          releaseOrphans { loop with orphanBlocks } i
      else
        releaseOrphans loop (i + 1)
    else
      releaseOrphans { loop with n := loop.n + 1 } 0
  else
    pure loop
termination_by loop.remaining i
decreasing_by
  · have hlength := List.length_eraseIdx_of_lt hi
    apply BlocksLoop.remaining_lt <;> simp only [BlocksLoop.work, List.length_append,
      List.length_singleton] <;> omega
  · have hlength := List.length_eraseIdx_of_lt hi
    apply BlocksLoop.remaining_lt <;> simp only [BlocksLoop.work] <;> omega
  · have hlength := List.length_eraseIdx_of_lt hi
    apply BlocksLoop.remaining_lt <;> simp only [BlocksLoop.work] <;> omega
  · unfold BlocksLoop.remaining
    omega
  · apply BlocksLoop.remaining_lt <;> simp only [BlocksLoop.work] <;> omega

/-- The body of the loop over the blocks of a message. -/
def processBlock (peer : PeerId) (message : Message) (loop : BlocksLoop) (block : Block) :
    NodeProgram BlocksLoop := do
  let blockHash := block.hash C
  if blockHash ≤ block.head.difficulty then
    let known ← call (.containsBlock blockHash)
    if known then
      pure loop
    else
      let hasParent ← call (.containsBlock block.head.parent)
      if hasParent then
        let parent ← call (.getBlock block.head.parent)
        if block.head.difficulty = parent.1.head.difficulty then
          let admitted ← admitBlock C build block
          if admitted then
            releaseOrphans C build { loop with newBlocks := loop.newBlocks ++ [blockHash] } 0
          else
            releaseOrphans C build loop 0
        else
          releaseOrphans C build loop 0
      else
        call (.send (.write peer message (.getBlocks [block.head.parent])))
        pure { loop with orphanBlocks := loop.orphanBlocks ++ [block] }
  else
    pure loop

/-- The arm for `Blocks`. -/
def processBlocks (peer : PeerId) (orphanBlocks : List Block) (blocks : List Block) :
    NodeProgram (List Block) := do
  let loop ← blocks.foldlM (processBlock C build peer (.blocks blocks)) { orphanBlocks }
  if loop.newBlocks.length > 0 then
    call (.send (.broadcast (.newBlockHashes loop.newBlocks)))
  pure loop.orphanBlocks

/-- The loop of the arm for `GetTransactions`; it ends at the first unknown hash. -/
def fetchTransactions (trans : List SignedTransaction) :
    List H256 → NodeProgram (Option (List SignedTransaction))
  | [] => pure (some trans)
  | hash :: rest => do
    let known ← call (.mempoolContains hash)
    if known then
      let transaction ← call (.mempoolGet hash)
      fetchTransactions (trans ++ [transaction]) rest
    else
      pure none

/-- The arm for `GetTransactions`. -/
def answerGetTransactions (peer : PeerId) (transactionHashes : List H256) : NodeProgram Unit := do
  let trans ← fetchTransactions [] transactionHashes
  match trans with
  | some trans => call (.send (.write peer (.getTransactions transactionHashes)
      (.transactions trans)))
  | none => pure ()

/-- The body of the loop over the transactions of a message. -/
def storeTransaction (newTrans : List H256) (trans : SignedTransaction) :
    NodeProgram (List H256) := do
  if verify C trans.transaction trans.publicKeyVector trans.signatureVector then
    let known ← call (.mempoolContains (trans.hash C))
    if known then
      pure newTrans
    else
      call (.mempoolInsert (trans.hash C) trans)
      pure (newTrans ++ [trans.hash C])
  else
    pure newTrans

/-- The arm for `Transactions`. -/
def storeTransactions (transactions : List SignedTransaction) : NodeProgram Unit := do
  let newTrans ← transactions.foldlM (storeTransaction C) []
  if newTrans.length > 0 then
    call (.send (.broadcast (.newTransactionHashes newTrans)))

/-- One round of `worker_loop`; the result is the orphan buffer. -/
def handleMessage (peer : PeerId) (orphanBlocks : List Block) :
    Message → NodeProgram (List Block)
  | .ping nonce => do
    call (.send (.write peer (.ping nonce) (.pong nonce)))
    pure orphanBlocks
  | .pong _ => pure orphanBlocks
  | .newBlockHashes hashes => do
    call (.answerNewBlockHashes peer hashes)
    pure orphanBlocks
  | .getBlocks blockHashes => do
    call (.answerGetBlocks peer blockHashes)
    pure orphanBlocks
  | .blocks blocks => processBlocks C build peer orphanBlocks blocks
  -- The arm collects the hashes and drops them.
  | .newTransactionHashes _ => pure orphanBlocks
  | .getTransactions transactionHashes => do
    answerGetTransactions peer transactionHashes
    pure orphanBlocks
  | .transactions transactions => do
    storeTransactions C transactions
    pure orphanBlocks

end BitcoinClient
