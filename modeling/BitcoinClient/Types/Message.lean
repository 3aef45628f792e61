import BitcoinClient.Types.Block

/-! # Messages between peers -/

namespace BitcoinClient

inductive Message where
  | ping (nonce : String)
  | pong (nonce : String)
  | newBlockHashes (hashes : List H256)
  | getBlocks (hashes : List H256)
  | blocks (blocks : List Block)
  | newTransactionHashes (hashes : List H256)
  | getTransactions (hashes : List H256)
  | transactions (transactions : List SignedTransaction)
deriving DecidableEq, Repr

/-- A `peer::Handle`, identified by the connection it writes to. -/
abbrev PeerId := Nat

/-- What a node hands to its network layer. A write to one peer is kept with the
message whose handler made it. -/
inductive Sent where
  | write (peer : PeerId) (inReplyTo reply : Message)
  | broadcast (message : Message)
deriving DecidableEq, Repr

end BitcoinClient
