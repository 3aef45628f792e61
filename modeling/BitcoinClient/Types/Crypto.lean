import BitcoinClient.Types.Block

/-! # Hashing, addresses and signatures

SHA-256 and Ed25519 come from the `ring` crate and the byte encoding from
`bincode`. They are parameters of the model, collected in `Crypto`; a result
that relies on one of their properties names it as a hypothesis.
-/

namespace BitcoinClient

/-- `ring::signature::Ed25519KeyPair`. -/
structure Ed25519KeyPair where
  seed : List UInt8
  publicKey : List UInt8
deriving DecidableEq, Repr

structure Crypto where
  /-- `ring::digest::digest(&SHA256, _)`. -/
  sha256 : List UInt8 → H256
  /-- `UnparsedPublicKey::verify`: public key, message, signature. -/
  ed25519Verify : List UInt8 → List UInt8 → List UInt8 → Bool
  /-- `Ed25519KeyPair::sign`. -/
  ed25519Sign : Ed25519KeyPair → List UInt8 → List UInt8
  serializeTransaction : Transaction → List UInt8
  serializeSignedTransaction : SignedTransaction → List UInt8
  serializeHeader : Header → List UInt8

variable (C : Crypto)

/-- `impl Hashable for H256`. -/
def H256.hash (hash : H256) : H256 := C.sha256 hash.bytes.toList

/-- `impl Hashable for SignedTransaction`. -/
def SignedTransaction.hash (st : SignedTransaction) : H256 :=
  C.sha256 (C.serializeSignedTransaction st)

/-- `impl Hashable for Header`. -/
def Header.hash (header : Header) : H256 := C.sha256 (C.serializeHeader header)

/-- `impl Hashable for Block`: only the header is hashed. -/
def Block.hash (block : Block) : H256 := block.head.hash C

/-- `Address::from_public_key_bytes`: the last 20 bytes of the key's hash. -/
def Address.fromPublicKeyBytes (bytes : List UInt8) : Address :=
  ⟨(C.sha256 bytes).bytes.drop 12⟩

/-- `sign`. -/
def sign (t : Transaction) (key : Ed25519KeyPair) : List UInt8 :=
  C.ed25519Sign key (C.serializeTransaction t)

/-- `verify`. -/
def verify (t : Transaction) (publicKey signature : List UInt8) : Bool :=
  C.ed25519Verify publicKey (C.serializeTransaction t) signature

namespace State

/-- `State::new`: the initial coin offering of 100 units. -/
def new (publicKey1 : Ed25519KeyPair) : State :=
  ⟨(∅ : HashMap _ _).insert (H256.hex 0, 0)
    (100, Address.fromPublicKeyBytes C publicKey1.publicKey)⟩

/-- `states.remove` for every input, in order. -/
def removeInputs (state : State) (inputs : List Input) : State :=
  inputs.foldl (fun state input => ⟨state.states.remove input.outpoint⟩) state

/-- `states.insert` for every output of `enumerate()`; the position is truncated
to a byte. -/
def insertOutputs (state : State) (txHash : H256) (outputs : List Output) : State :=
  outputs.zipIdx.foldl (fun state (output, index) =>
    ⟨state.states.insert (txHash, UInt8.ofNat index) (output.value, output.recipientAddr)⟩) state

/-- `State::update`. -/
def update (state : State) (transaction : SignedTransaction) : State :=
  let state := transaction.transaction.input.foldl (fun state i =>
    if state.states.containsKey i.outpoint then ⟨state.states.remove i.outpoint⟩ else state) state
  state.insertOutputs (transaction.hash C) transaction.transaction.output

end State

/-! ## A concrete instance

The byte layout is that of `bincode` (little-endian integers, sequences behind
their length in eight bytes). The hash is a polynomial in place of SHA-256 and a
signature repeats the key and the message, which is enough to evaluate the
model on inputs whose hashes do not collide.
-/

namespace Crypto

def leBytes (width value : Nat) : List UInt8 := (beBytes width value).toList.reverse

def encodeSeq {α : Type} (encode : α → List UInt8) (items : List α) : List UInt8 :=
  leBytes 8 items.length ++ items.flatMap encode

def encodeTransaction (t : Transaction) : List UInt8 :=
  encodeSeq (fun i => i.prevTrans.bytes.toList ++ [i.index]) t.input ++
    encodeSeq (fun o => o.recipientAddr.bytes.toList ++ leBytes 4 o.value.toNat) t.output

def sample : Crypto where
  sha256 bytes := .hex (bytes.foldl (fun acc byte => (acc * 257 + byte.toNat + 1) % 2 ^ 240) 1)
  ed25519Verify publicKey message signature := signature == publicKey ++ message
  ed25519Sign key message := key.publicKey ++ message
  serializeTransaction := encodeTransaction
  serializeSignedTransaction st := encodeTransaction st.transaction ++
    encodeSeq (fun byte => [byte]) st.signatureVector ++
    encodeSeq (fun byte => [byte]) st.publicKeyVector
  serializeHeader header := header.parent.bytes.toList ++ leBytes 4 header.nonce.toNat ++
    header.difficulty.bytes.toList ++ leBytes 16 header.timestamp.toNat ++
    header.merkleRoot.bytes.toList

def sampleKey : Ed25519KeyPair := ⟨[1], [2]⟩

end Crypto

/-- A transaction with the signature that `sign` makes for it. -/
def SignedTransaction.signedBy (key : Ed25519KeyPair) (t : Transaction) : SignedTransaction :=
  ⟨t, sign C t key, key.publicKey⟩

/-- The whole initial coin, moved to its own owner. -/
def moveInitialCoin : SignedTransaction :=
  .signedBy .sample Crypto.sampleKey ⟨[⟨.hex 0, 0⟩],
    [⟨.fromPublicKeyBytes .sample Crypto.sampleKey.publicKey, 100⟩]⟩

end BitcoinClient
