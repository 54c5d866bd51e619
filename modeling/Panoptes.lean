import Panoptes.Consensus.OptimisticConfirmation
import Panoptes.Consensus.TowerRestore
import Panoptes.ForkChoice.Commute
import Panoptes.Gossip.Crds
import Panoptes.Ledger.InsertShreds
import Panoptes.Ledger.PohRecorder
import Panoptes.Ledger.ShredRecovery
import Panoptes.Ledger.VerifyPaths
import Panoptes.Programs.System
import Panoptes.Programs.VestBooks
import Panoptes.Repair.Run
import Panoptes.Runtime.AccountsHash
import Panoptes.Runtime.AccountsIndex
import Panoptes.Runtime.BatchOrder
import Panoptes.Runtime.FixedCycle
import Panoptes.Runtime.Settlement
import Panoptes.Runtime.StakesMirror
import Panoptes.Runtime.VariableCycle
import Panoptes.Runtime.Verify
import Panoptes.Stake.Balances
import Panoptes.Stake.Funding
import Panoptes.Vote.Credits
import Panoptes.Vote.PriorVoters
import Panoptes.Vote.Size
import Panoptes.Ledger.Merkle
