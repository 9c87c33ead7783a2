import BtcIndexer.UtxoExactness
import BtcIndexer.Harvester
import BtcIndexer.Rollback
import BtcIndexer.ForkReplay
import BtcIndexer.Handoff
import BtcIndexer.Ledger
import BtcIndexer.Aggregator
import BtcIndexer.AggregatorEffect
import BtcIndexer.AggregatorRuns
import BtcIndexer.LedgerReorg
import BtcIndexer.Maturation
import BtcIndexer.BlockEvents
import BtcIndexer.System
import BtcIndexer.Conservation
import BtcIndexer.Settlement
import BtcIndexer.ReorgTotality
import BtcIndexer.Solvency
import BtcIndexer.BlockTree
import BtcIndexer.BalanceViews
import BtcIndexer.Reprocessing
import BtcIndexer.RangeOrder
import BtcIndexer.HarvesterRules
import BtcIndexer.Pausing
import BtcIndexer.Branches
import BtcIndexer.FixedChain
import BtcIndexer.ScanRange
import BtcIndexer.Continuity
import BtcIndexer.Cancellation
import BtcIndexer.ForkWalk
import BtcIndexer.Heights
import BtcIndexer.TableDeltas
import BtcIndexer.Shutdown
import BtcIndexer.Cooldown
import BtcIndexer.Calendar
import BtcIndexer.Snapshots
import BtcIndexer.LiveRules
import BtcIndexer.Linkage
import BtcIndexer.Retries
import BtcIndexer.Convergence
import BtcIndexer.HandoffRuns
import BtcIndexer.Positions
import BtcIndexer.ForkHeads
import BtcIndexer.IndexedRange
import BtcIndexer.HourlyBuckets
import BtcIndexer.Numerals
import BtcIndexer.TextForms
import BtcIndexer.Columns
import BtcIndexer.RowCodec
import BtcIndexer.ReadBack
import BtcIndexer.Machines
import BtcIndexer.Histories
import BtcIndexer.Holdings
import BtcIndexer.Service
import BtcIndexer.LoopRefinement
import BtcIndexer.Accounting
import BtcIndexer.ForkConservation
import BtcIndexer.GracefulStop
import BtcIndexer.Following
import BtcIndexer.ForkRound
import BtcIndexer.Routing
import BtcIndexer.Api
import BtcIndexer.CommandQueue
import BtcIndexer.Serving
import BtcIndexer.NetworkGuard
import BtcIndexer.RpcClient
import BtcIndexer.Provenance
import BtcIndexer.NodeAnswers
import BtcIndexer.HandoffRuns
