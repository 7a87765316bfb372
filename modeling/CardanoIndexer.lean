import CardanoIndexer.Lib.SortedMap
import CardanoIndexer.Lib.Bytes
import CardanoIndexer.Lib.Transaction
import CardanoIndexer.Lib.Run
import CardanoIndexer.Lib.Fault
import CardanoIndexer.Lib.Sorting
import CardanoIndexer.Lib.PrefixCode
import CardanoIndexer.Timbre.Keys
import CardanoIndexer.Timbre.Address
import CardanoIndexer.Timbre.Encode
import CardanoIndexer.Timbre.Namespace
import CardanoIndexer.Timbre.Ranges
import CardanoIndexer.Polyphony.Model
import CardanoIndexer.Polyphony.RollbackBuffer
import CardanoIndexer.Polyphony.SyncBatcher
import CardanoIndexer.Polyphony.Executors
import CardanoIndexer.Polyphony.Cells
import CardanoIndexer.Polyphony.Batching
import CardanoIndexer.Polyphony.RollbackMetadata
import CardanoIndexer.Polyphony.Verification
import CardanoIndexer.Polyphony.Worker
import CardanoIndexer.Polyphony.WorkerSpec
import CardanoIndexer.Polyphony.Rewinding
import CardanoIndexer.Polyphony.Rollback
import CardanoIndexer.Polyphony.Cursor
import CardanoIndexer.Polyphony.BufferChain
import CardanoIndexer.Polyphony.Published
import CardanoIndexer.Polyphony.Faults
import CardanoIndexer.Polyphony.ExactlyOnce
import CardanoIndexer.Polyphony.Paranoid
import CardanoIndexer.Polyphony.CursorAgreement
import CardanoIndexer.Polyphony.PersistentBuffer
import CardanoIndexer.Polyphony.Restart
import CardanoIndexer.Lib.Journal
import CardanoIndexer.Lib.Spending
import CardanoIndexer.Compressor.Model
import CardanoIndexer.Compressor.Storage
import CardanoIndexer.Compressor.StorageSpec
import CardanoIndexer.Compressor.Adopted
import CardanoIndexer.Compressor.Outputs
import CardanoIndexer.Compressor.Utxo
import CardanoIndexer.Compressor.Grpc
import CardanoIndexer.Compressor.Wal
import CardanoIndexer.Compressor.Search
import CardanoIndexer.Compressor.Stream
import CardanoIndexer.Compressor.Breadcrumbs
import CardanoIndexer.Compressor.Paging
import CardanoIndexer.Polyphony.Source
import CardanoIndexer.Pipeline.Enrichment
import CardanoIndexer.Pipeline.Immutable
import CardanoIndexer.Pipeline.Origin
import CardanoIndexer.TikvGc.Model
import CardanoIndexer.TikvGc.Safepoint
import CardanoIndexer.TikvGc.Cycles
import CardanoIndexer.Pipeline.RedisWire
import CardanoIndexer.Timbre.PaymentCred
import CardanoIndexer.Timbre.Decode
import CardanoIndexer.Mapi.Request
import CardanoIndexer.Mapi.UtxosByPaymentCreds
import CardanoIndexer.Mapi.Cache
import CardanoIndexer.Mapi.Scan
import CardanoIndexer.Lib.Paging
import CardanoIndexer.Timbre.Histories
import CardanoIndexer.Timbre.DecodeKey
import CardanoIndexer.Timbre.BlockRecord
import CardanoIndexer.Mapi.SlotPages
import CardanoIndexer.Mapi.SlotListings
import CardanoIndexer.Mapi.TxsByPaymentCreds
import CardanoIndexer.Mapi.UtxosByPaymentCred
import CardanoIndexer.Mapi.OwnerPages
import CardanoIndexer.Mapi.UtxosByAddresses
import CardanoIndexer.Mapi.TxosByTxoRefs
import CardanoIndexer.Lib.Tally
import CardanoIndexer.Mapi.StakeAddress
import CardanoIndexer.Mapi.PolicyHolders
import CardanoIndexer.Mapi.Redeemers
import CardanoIndexer.Daw.Delete
import CardanoIndexer.Lib.Effect
import CardanoIndexer.Daw.Commands
import CardanoIndexer.Pipeline.AdaptiveScans
import CardanoIndexer.Pipeline.Agreement
import CardanoIndexer.Pipeline.Answers
import CardanoIndexer.Reducers.UtxoIndexes
import CardanoIndexer.Reducers.Balance
import CardanoIndexer.Reducers.Supply
import CardanoIndexer.Lib.Register
import CardanoIndexer.Reducers.Values
import CardanoIndexer.Timbre.Values
import CardanoIndexer.Reducers.Datums
import CardanoIndexer.Mapi.Metadata
import CardanoIndexer.Pipeline.Cip25
import CardanoIndexer.Reducers.TxCounts
import CardanoIndexer.Polyphony.BatchLimits
import CardanoIndexer.Polyphony.Emulator
import CardanoIndexer.Reducers.BlockTotals
import CardanoIndexer.Reducers.Filters
import CardanoIndexer.Mapi.Cip68
