import JsonpySql.OrdDict
import JsonpySql.LastWins
import JsonpySql.CrashProg
import JsonpySql.InvertedIndex
import JsonpySql.PyFloat
import JsonpySql.PyStr
import JsonpySql.PyVal
import JsonpySql.Disk
import JsonpySql.DocumentStore
import JsonpySql.LockManager
import JsonpySql.IndexManager
import JsonpySql.Wal
import JsonpySql.Engine
import JsonpySql.Effects
import JsonpySql.Refinement
import JsonpySql.Transactions
import JsonpySql.Collections
import JsonpySql.IndexInvariants
import JsonpySql.Recovery
import JsonpySql.Atomicity
import JsonpySql.FailedCommit
import JsonpySql.Planner
import JsonpySql.Executor
import JsonpySql.RangeQuery
import JsonpySql.Fields
import JsonpySql.Constraints
import JsonpySql.SchemaCollection
import JsonpySql.ReverseIndex
import JsonpySql.SchemaCalls
import JsonpySql.SchemaRuns
import JsonpySql.UniqueFields
import JsonpySql.ReferentialIntegrity
import JsonpySql.Compaction
import JsonpySql.Loading
import JsonpySql.Reopening
import JsonpySql.Refiling
import JsonpySql.DamagedIndexes
import JsonpySql.CrashedWrites
import JsonpySql.LostChildren
import JsonpySql.BatchConstraints
import JsonpySql.KeyHistory
import JsonpySql.Listings
import JsonpySql.CommittedIndexes
import JsonpySql.UnindexedLookups
import JsonpySql.StringQueries
import JsonpySql.FileLock
import JsonpySql.LockedClients
import JsonpySql.Pushdown
import JsonpySql.LambdaSource
import JsonpySql.Generators
import JsonpySql.GroupBy
import JsonpySql.PyArith
import JsonpySql.StableSort
import JsonpySql.Aggregates
import JsonpySql.Pipeline
import JsonpySql.Paging
import JsonpySql.Sorting
import JsonpySql.Joins
import JsonpySql.ScanRows
import JsonpySql.Grouping
import JsonpySql.RollUp
import JsonpySql.PrimaryKeys
import JsonpySql.CommitErrors
import JsonpySql.CrashedCompaction
import JsonpySql.LineHistory
import JsonpySql.Statistics
import JsonpySql.Tombstones
import JsonpySql.Streaming
import JsonpySql.Diverging
import JsonpySql.StoredKeys
import JsonpySql.FailedCalls
import JsonpySql.LiveInserts
import JsonpySql.Children
import JsonpySql.UniqueVerdicts
import JsonpySql.CollectionManager
import JsonpySql.FileReads
import JsonpySql.FunctionRegistry
import JsonpySql.FloatText
import JsonpySql.JsonNumber
import JsonpySql.JsonText
import JsonpySql.JsonRoundTrip
import JsonpySql.JsonScan
import JsonpySql.TextFile
import JsonpySql.FileText
import JsonpySql.EmittedWrites
import JsonpySql.TextRuns
import JsonpySql.TornWrites
import JsonpySql.SharedDirectory
import JsonpySql.OpenLogs
import JsonpySql.CrashedCollections
import JsonpySql.PlannedQueries
import JsonpySql.FileSwap
import JsonpySql.LostWrites
