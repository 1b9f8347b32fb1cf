import Cqlite.Merge.Associativity
import Cqlite.Engine.WalScan
import Cqlite.Engine.PurgeRuns
import Cqlite.Writer.FlushSplit
import Cqlite.Writer.RowMarker
import Cqlite.Writer.TokenOrder
import Cqlite.Engine.MergeRetry
import Cqlite.Engine.CompactionRest
import Cqlite.Writer.SessionRefines
import Cqlite.Reader.RowIndexWalk
import Cqlite.Writer.RowsTrie
import Cqlite.Writer.PartitionsTrie
import Cqlite.Engine.KeyEncoders
import Cqlite.Reader.ChildLookup
import Cqlite.Reader.TrieVisit
import Cqlite.Engine.DeleteCoverage
import Cqlite.Reader.BoundBytes
import Cqlite.Query.LookupExact
import Cqlite.Merge.ReadRows
import Cqlite.Reader.IndexLookup
import Cqlite.Reader.PartitionDriver
import Cqlite.Engine.WalLayouts
import Cqlite.Reader.ScanMerge
import Cqlite.Reader.BloomFilter
import Cqlite.Writer.ScalarOrder
import Cqlite.Query.ClausesMeet
import Cqlite.Query.PushedAgreement
import Cqlite.Reader.WindowExact
import Cqlite.Reader.KeyCache
import Cqlite.Writer.SizedInts
import Cqlite.Query.Arithmetic
import Cqlite.Engine.MemtableLimit
import Cqlite.Reader.TtlRoundTrip
