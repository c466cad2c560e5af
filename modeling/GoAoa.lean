import GoAoa.Aoa.Agreement
import GoAoa.Aoa.Announcements
import GoAoa.Aoa.Certified
import GoAoa.Aoa.Collector
import GoAoa.Aoa.PendingLock
import GoAoa.Aoa.RoundClock
import GoAoa.Common.Compress
import GoAoa.Core.Admitted
import GoAoa.Core.Bloombits
import GoAoa.Core.Canonical
import GoAoa.Core.ContractBudget
import GoAoa.Core.FundedDelegates
import GoAoa.Core.NonNegative
import GoAoa.Core.PendingRuns
import GoAoa.Core.PriceCoherence
import GoAoa.Core.PriceSort
import GoAoa.Core.Signer
import GoAoa.Core.Snapshots
import GoAoa.Core.Supply
import GoAoa.Core.Upgrade
import GoAoa.Core.VoteLock
import GoAoa.DelegateState.Copy
import GoAoa.Dpos.GasLimit
import GoAoa.Dpos.Recovery
import GoAoa.Dpos.Rounds
import GoAoa.P2p.Table
import GoAoa.State.AssetList
import GoAoa.Task.Timer
import GoAoa.VM.Analysis
import GoAoa.VM.Arithmetic
import GoAoa.VM.Handlers
import GoAoa.VM.Metering
import GoAoa.VM.NoLoss
import GoAoa.VM.Static
