import ExternalSort.Lib.Bytes
import ExternalSort.Lib.ByteFile
import ExternalSort.Lib.MachineArith
import ExternalSort.Lib.Rounding
import ExternalSort.Lib.Loop
import ExternalSort.Lib.StreamMerge
import ExternalSort.Lib.Decimal
import ExternalSort.Lib.DecimalText
import ExternalSort.Lib.OrderedStore
import ExternalSort.Lib.Comparator
import ExternalSort.Lib.Cursor
import ExternalSort.Lib.Cut
import ExternalSort.Lib.ByteNumbers
import ExternalSort.Lib.Ranges
import ExternalSort.Model.Schema
import ExternalSort.Model.RunIterator
import ExternalSort.Model.MergeRuns
import ExternalSort.Model.MakeRuns
import ExternalSort.Model.Msort
import ExternalSort.Model.Bsort
import ExternalSort.Model.DataGenerator
import ExternalSort.Model.LevelDb.Coding
import ExternalSort.Model.LevelDb.InternalKey
import ExternalSort.Model.LevelDb.SkipList
import ExternalSort.Model.LevelDb.WriteBatch
import ExternalSort.Model.LevelDb.MemTable
import ExternalSort.Model.LevelDb.MergingIterator
import ExternalSort.Model.LevelDb.DbIter
import ExternalSort.Model.LevelDb.TwoLevelIterator
import ExternalSort.Model.LevelDb.Version
import ExternalSort.Model.LevelDb.InternalIterator
import ExternalSort.Model.LevelDb.Compaction
import ExternalSort.Model.LevelDb.Store
import ExternalSort.Analysis.Comparator
import ExternalSort.Analysis.SchemaLayout
import ExternalSort.Analysis.LexicographicOrder
import ExternalSort.Analysis.NameSearch
import ExternalSort.Analysis.MissingNames
import ExternalSort.Analysis.SharedHandle
import ExternalSort.Analysis.IteratorDelivery
import ExternalSort.Analysis.HasNextObserves
import ExternalSort.Analysis.IteratorInvariant
import ExternalSort.Analysis.IteratorPeek
import ExternalSort.Analysis.MergeRule
import ExternalSort.Analysis.MergeStable
import ExternalSort.Analysis.MergeRestart
import ExternalSort.Analysis.PassRouting
import ExternalSort.Analysis.MakeRuns
import ExternalSort.Analysis.RunCounts
import ExternalSort.Analysis.FileSize
import ExternalSort.Analysis.MsortPass
import ExternalSort.Analysis.MsortPrepare
import ExternalSort.Analysis.MsortMemory
import ExternalSort.Analysis.PassSizes
import ExternalSort.Analysis.MsortLoop
import ExternalSort.Analysis.PassCount
import ExternalSort.Analysis.RunCover
import ExternalSort.Analysis.MergeWidth
import ExternalSort.Analysis.MsortSorts
import ExternalSort.Analysis.MsortExact
import ExternalSort.Analysis.BsortChunks
import ExternalSort.Analysis.BsortRun
import ExternalSort.Analysis.RecordTiling
import ExternalSort.Analysis.BsortReading
import ExternalSort.Analysis.BsortSorts
import ExternalSort.Analysis.KeyRoom
import ExternalSort.Analysis.BsortRuns
import ExternalSort.Analysis.GeneratedField
import ExternalSort.Analysis.GeneratedLayout
import ExternalSort.Analysis.NumericOrder
import ExternalSort.Analysis.LevelDb.Coding
import ExternalSort.Analysis.LevelDb.InternalKey
import ExternalSort.Analysis.LevelDb.SkipList
import ExternalSort.Analysis.LevelDb.SkipListInsert
import ExternalSort.Analysis.LevelDb.SkipListThreads
import ExternalSort.Analysis.LevelDb.MergingIterator
import ExternalSort.Analysis.LevelDb.DbIter
import ExternalSort.Analysis.LevelDb.WriteBatch
import ExternalSort.Analysis.LevelDb.MemTable
import ExternalSort.Analysis.LevelDb.TwoLevelIterator
import ExternalSort.Analysis.LevelDb.Version
import ExternalSort.Analysis.LevelDb.VersionEdit
import ExternalSort.Analysis.LevelDb.InternalIterator
import ExternalSort.Analysis.LevelDb.CompactionInputs
import ExternalSort.Analysis.LevelDb.CompactionLoop
import ExternalSort.Analysis.LevelDb.StoreInvariant
import ExternalSort.Analysis.LevelDb.StoreSteps
import ExternalSort.Analysis.LevelDb.StoreRuns
import ExternalSort.Analysis.BsortStore
