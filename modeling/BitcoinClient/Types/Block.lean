import BitcoinClient.Types.Transaction

/-! # Blocks -/

namespace BitcoinClient

structure Header where
  parent : H256
  nonce : UInt32
  difficulty : H256
  timestamp : BitVec 128
  merkleRoot : H256
deriving DecidableEq, Repr

structure Content where
  st : List SignedTransaction
deriving DecidableEq, Repr

structure Block where
  head : Header
  cont : Content
deriving DecidableEq, Repr

end BitcoinClient
