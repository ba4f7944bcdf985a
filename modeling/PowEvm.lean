import PowEvm.Library.Fallible
import PowEvm.Library.Selection
import PowEvm.Library.Commutation
import PowEvm.Library.ContentAddressed
import PowEvm.Library.CyclicSearch
import PowEvm.Runtime.Chain
import PowEvm.Runtime.Preimages
import PowEvm.Runtime.Validation
import PowEvm.Runtime.Spending
import PowEvm.Runtime.Filings
import PowEvm.Runtime.Genesis
import PowEvm.Runtime.Supply
import PowEvm.Runtime.Replay
import PowEvm.Runtime.Ownership
import PowEvm.Runtime.DeadOutputs
import PowEvm.Runtime.Independence
import PowEvm.Runtime.Accounting
import PowEvm.Runtime.Inherent
import PowEvm.Runtime.SignedMessage
import PowEvm.Runtime.Contract
import PowEvm.Runtime.PoolTags
import PowEvm.Runtime.Pool
import PowEvm.Runtime.Unspent
import PowEvm.Runtime.Readiness
import PowEvm.Runtime.Waiting
import PowEvm.Runtime.Lineage
import PowEvm.Runtime.Forks
import PowEvm.Runtime.Histories
import PowEvm.Runtime.Sweep
import PowEvm.Runtime.EventLog
import PowEvm.Runtime.Bookkeeping
import PowEvm.Runtime.Twins
import PowEvm.Runtime.IssuanceCap
import PowEvm.Runtime.Progress
import PowEvm.Runtime.Authorless
import PowEvm.Pallets.FindAuthor
import PowEvm.Pallets.Authorship
import PowEvm.Pallets.Difficulty
import PowEvm.Node.Sha3Pow
import PowEvm.Node.Difficulty
import PowEvm.Node.Mining
import PowEvm.Node.NonceSearch
import PowEvm.Node.ChainSpec
import PowEvm.Node.Proposer
import PowEvm.Node.Consensus
import PowEvm.Node.Network
