import BitcoinClient.BlockTree
import BitcoinClient.Ledger.Accounting
import BitcoinClient.Ledger.Coins
import BitcoinClient.Ledger.OutputCoins
import BitcoinClient.Ledger.Permutations
import BitcoinClient.Ledger.Replay
import BitcoinClient.LongestChain
import BitcoinClient.Node.AdmitsOnce
import BitcoinClient.Node.Agreement
import BitcoinClient.Node.BackwardWalks
import BitcoinClient.Node.Consensus
import BitcoinClient.Node.GeneratorSpends
import BitcoinClient.Node.LedgerStates
import BitcoinClient.Node.LookupSafety
import BitcoinClient.Node.MempoolSafety
import BitcoinClient.Node.MinedBlock
import BitcoinClient.Node.OrphanCascade
import BitcoinClient.Node.Orphans
import BitcoinClient.Node.OwnChain
import BitcoinClient.Node.Reconfirmation
import BitcoinClient.Node.Synchronization
import BitcoinClient.Node.ValueSums
import BitcoinClient.Node.Gossip
import BitcoinClient.Node.FaithfulReplies
import BitcoinClient.Node.MinerBooks
import BitcoinClient.Node.SpendableCoins
import BitcoinClient.Types.MerkleShape
import BitcoinClient.Network.Server
import BitcoinClient.Network.Registry
import BitcoinClient.Network.Resilience
import BitcoinClient.Node.NetworkContent
import BitcoinClient.Node.NetworkSafety
import BitcoinClient.Node.NetworkSettling
import BitcoinClient.Node.NetworkLedgers
import BitcoinClient.Node.ByteSettling
