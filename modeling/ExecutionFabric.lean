import ExecutionFabric.Lib.Table
import ExecutionFabric.Lib.Program
import ExecutionFabric.Lib.Wire
import ExecutionFabric.Lib.Codec
import ExecutionFabric.Lib.Fifo
import ExecutionFabric.Audit.RecordCodec
import ExecutionFabric.Audit.JournalDamage
import ExecutionFabric.Audit.FailedAppends
import ExecutionFabric.Audit.Tokens
import ExecutionFabric.Audit.Refusals
import ExecutionFabric.Audit.Overlap
import ExecutionFabric.Audit.InsertionOrder
import ExecutionFabric.Audit.Frames
import ExecutionFabric.Audit.Conservative
import ExecutionFabric.Audit.Separation
import ExecutionFabric.Audit.FileOpens
import ExecutionFabric.Audit.Reopening
import ExecutionFabric.Audit.RefusedOpens
import ExecutionFabric.Audit.Dating
import ExecutionFabric.Audit.Redriving
import ExecutionFabric.Audit.BlockConsistency
import ExecutionFabric.Audit.Bindings
import ExecutionFabric.Audit.Checkpoints
import ExecutionFabric.Audit.Replays
import ExecutionFabric.Audit.StoredBindings
import ExecutionFabric.Audit.Receipts
import ExecutionFabric.Audit.StaleBindings
import ExecutionFabric.Audit.CheckpointCurrency
import ExecutionFabric.Audit.Lineage
import ExecutionFabric.Audit.Origins
import ExecutionFabric.Audit.Grounds
import ExecutionFabric.Audit.Bursts
import ExecutionFabric.Audit.Injectivity
import ExecutionFabric.Model.Server
import ExecutionFabric.Model.Audit
import ExecutionFabric.Model.Texts
import ExecutionFabric.Audit.Texts
import ExecutionFabric.Model.RecordTable
import ExecutionFabric.Audit.RecordTables
import ExecutionFabric.Audit.Reconciling
import ExecutionFabric.Audit.LostPromotions
import ExecutionFabric.Audit.Indexes
import ExecutionFabric.Audit.SessionEnds
import ExecutionFabric.Audit.Repeats
import ExecutionFabric.Audit.Versions
import ExecutionFabric.Audit.Connections
import ExecutionFabric.Audit.ReplyCache
import ExecutionFabric.Audit.Sanity
import ExecutionFabric.Audit.Seeds
import ExecutionFabric.Audit.Findings
import ExecutionFabric.Audit.Compaction
import ExecutionFabric.Audit.Finality
import ExecutionFabric.Audit.Ledger
import ExecutionFabric.Audit.Counters
import ExecutionFabric.Audit.OutdatedCheckpoints
import ExecutionFabric.Audit.StoreFiles
