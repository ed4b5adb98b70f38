import Arbor.State.DomainHeadsHistory
import Arbor.Deposit.Authority
import Arbor.State.TrieDepth
import Arbor.State.TrieComposition
import Arbor.State.TrieCanonical
import Arbor.State.TrieProof
import Arbor.Evm.StateReload
import Arbor.Storage.FlatCache
import Arbor.Storage.Retention
import Arbor.Node.Requests
import Arbor.Network.PeerBan
import Arbor.Evm.StateOrder
import Arbor.Executor.Creation
import Arbor.Network.Staging
import Arbor.Node.Agreement
import Arbor.Consensus.FeeRuns
