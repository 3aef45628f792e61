import BitcoinClient.Foundation.HashMap
import BitcoinClient.Types.Hash

/-! # Transactions, ledger states and the mempool -/

namespace BitcoinClient

/-- The outpoint that is spent: the hash of a signed transaction and the
position of the output, kept in one byte. -/
structure Input where
  prevTrans : H256
  index : UInt8
deriving DecidableEq, Repr

structure Output where
  recipientAddr : Address
  value : UInt32
deriving DecidableEq, Repr

structure Transaction where
  input : List Input
  output : List Output
deriving DecidableEq, Repr

structure SignedTransaction where
  transaction : Transaction
  signatureVector : List UInt8
  publicKeyVector : List UInt8
deriving DecidableEq, Repr

/-- The unspent outputs: value and recipient under every outpoint. -/
structure State where
  states : HashMap (H256 × UInt8) (UInt32 × Address)
deriving DecidableEq

structure Mempool where
  trans : HashMap H256 SignedTransaction
deriving DecidableEq

/-- The key under which an input is looked up. -/
def Input.outpoint (input : Input) : H256 × UInt8 := (input.prevTrans, input.index)

def Mempool.new : Mempool := ⟨∅⟩

namespace Output

/-- `Output::pass_check`: split a balance over the two peers, or give it whole
to the first when one of the three shares would be zero. -/
def passCheck (balance : UInt32) (peerAddrs : Address × Address) : List Output :=
  let v1 := balance / 3
  let v2 := (balance - v1) / 2
  let v3 := balance - v1 - v2
  if v1 = 0 ∨ v2 = 0 ∨ v3 = 0 then
    [⟨peerAddrs.1, balance⟩]
  else
    [⟨peerAddrs.1, v1⟩, ⟨peerAddrs.2, v2⟩, ⟨peerAddrs.2, v3⟩]

end Output

/-- `Transaction::pass_check`. -/
def Transaction.passCheck (inputs : List Input) (balance : UInt32)
    (peerAddrs : Address × Address) : Transaction :=
  ⟨inputs, Output.passCheck balance peerAddrs⟩

end BitcoinClient
