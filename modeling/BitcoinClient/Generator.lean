import BitcoinClient.Miner

/-! # The transaction generator

The generator spends coins of its own address. It keeps a local copy of the
tip's ledger state, on which it executes what it generates until the tip moves.
-/

namespace BitcoinClient

open NodeProgram (call)

/-- The constants of a `GeneLoop`. -/
structure GeneLoop where
  publicKey : Ed25519KeyPair
  addr : Address
  peerAddrs : Address × Address

/-- The variables of `generator_loop`. -/
structure Generator where
  operatingState : OperatingState := .paused
  prevTip : H256
  state : State

/-- `TxGenerator::public_key_gen`; it is not implemented for other indices. -/
def TxGenerator.publicKeyGen : Nat → Option Ed25519KeyPair
  | 0 => some {
      seed := (beBytes 32 0xaac6a03715d753a0da9968a1ab2ee7107395999d92bb028d8af43744474e0401).toList
      publicKey :=
        (beBytes 32 0xa776f2f76ba35860d04cfb6123dd7dd419f8f0dc38c6cf422fbcd53820813974).toList }
  | 1 => some {
      seed := (beBytes 32 0x7fa1544a3614bf76fe63671781c6490e21a97ed2124371087b6245aab472dcc6).toList
      publicKey :=
        (beBytes 32 0xbd74203c7a28d7de63e02e4bdb7cba4fe033456efce862481edf65f233c067cc).toList }
  | 2 => some {
      seed := (beBytes 32 0xe858bcc3138b3c7d952c1747bba18cf27f8607e7bae5c7952b5a494df16a8253).toList
      publicKey :=
        (beBytes 32 0x2581c9f51b3740dd7cacbb691e41989505df86e0a22d93cbd9f527c43bd702d6).toList }
  | _ => none

namespace GeneLoop

variable (C : Crypto)

/-- The constants that `TxGenerator::new` sets: the node's own key and address, and the
addresses of the two other nodes. -/
def new (pubKeyIndex : Nat) : Option GeneLoop := do
  let publicKey ← TxGenerator.publicKeyGen pubKeyIndex
  let peers ← ((List.range 3).filter fun i => i ≠ pubKeyIndex).mapM TxGenerator.publicKeyGen
  let peerAddr := peers.map fun key => Address.fromPublicKeyBytes C key.publicKey
  let first ← peerAddr[0]?
  let second ← peerAddr[1]?
  pure {
    publicKey
    addr := .fromPublicKeyBytes C publicKey.publicKey
    peerAddrs := (first, second) }

theorem new_addr {pubKeyIndex : Nat} {geneLoop : GeneLoop}
    (h : new C pubKeyIndex = some geneLoop) :
    geneLoop.addr = .fromPublicKeyBytes C geneLoop.publicKey.publicKey := by
  obtain ⟨publicKey, _, h⟩ := Option.bind_eq_some_iff.mp h
  obtain ⟨peers, _, h⟩ := Option.bind_eq_some_iff.mp h
  obtain ⟨first, _, h⟩ := Option.bind_eq_some_iff.mp h
  obtain ⟨second, _, h⟩ := Option.bind_eq_some_iff.mp h
  obtain rfl := Option.some.inj h
  rfl

variable (config : GeneLoop)

/-- `get_tx_balance`: the first own coin in the order of the iteration. -/
def getTxBalance (iteration : HashMap.Iteration (H256 × UInt8) (UInt32 × Address))
    (state : State) : List Input × UInt32 :=
  match (iteration.entries state.states).find? fun entry => entry.2.2 = config.addr with
  | some ((txHash, index), (v, _)) => ([⟨txHash, index⟩], v)
  | none => ([], 0)

/-- The transaction that spends `balance`, signed. -/
def newSignedTransaction (inputs : List Input) (balance : UInt32) : SignedTransaction :=
  .signedBy C config.publicKey (Transaction.passCheck inputs balance config.peerAddrs)

/-- Generate one transaction when there is a coin to spend. -/
def generate (generator : Generator)
    (iteration : HashMap.Iteration (H256 × UInt8) (UInt32 × Address)) :
    NodeProgram Generator := do
  let (inputs, balance) := config.getTxBalance iteration generator.state
  if balance = 0 then
    pure generator
  else do
    let newSignedTransaction := config.newSignedTransaction C inputs balance
    let txHash := newSignedTransaction.hash C
    let known ← call (.mempoolContains txHash)
    if known then pure () else call (.mempoolInsert txHash newSignedTransaction)
    call (.send (.broadcast (.newTransactionHashes [txHash])))
    pure { generator with state := generator.state.execute C newSignedTransaction }

/-- What `generator_loop` does before its loop. -/
def start : NodeProgram Generator := do
  let prevTip ← call .readTip
  let state ← call (.readBlockState prevTip)
  pure { prevTip, state }

/-- Start over from the state of the tip when it has moved. -/
def refresh (generator : Generator) : NodeProgram Generator := do
  let tip ← call .readTip
  if generator.prevTip = tip then
    pure generator
  else
    let state ← call (.readBlockState tip)
    pure { generator with prevTip := tip, state }

/-- One iteration of `generator_loop`; nothing when the loop returns. -/
def round (generator : Generator)
    (iteration : HashMap.Iteration (H256 × UInt8) (UInt32 × Address)) :
    NodeProgram (Option Generator) :=
  match generator.operatingState with
  | .paused => do
    let signal ← call .generatorSignal
    let operatingState := signal.elim generator.operatingState generator.operatingState.react
    pure (some { generator with operatingState })
  | .shutDown => pure none
  | .run _ => do
    let signal ← call .generatorSignal
    let operatingState := signal.elim generator.operatingState generator.operatingState.react
    if operatingState = .shutDown then
      pure none
    else do
      let generator ← refresh { generator with operatingState }
      let generator ← config.generate C generator iteration
      pure (some generator)

end GeneLoop

end BitcoinClient
