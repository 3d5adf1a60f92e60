import Tigon.Queue.StartRow
import Tigon.Queue.Lifetime
import Tigon.Queue.Reconfigure
import Tigon.Queue.FilteredScan
import Tigon.Queue.QueueAdmin
import Tigon.Queue.EvictionSafety
import Tigon.Wd.DistributedScanner
import Tigon.InMemory.StartKey
import Tigon.InMemory.Acknowledge
import Tigon.InMemory.Ownership
import Tigon.Hfta.Merge
import Tigon.Hfta.Groupby
import Tigon.Hfta.GroupbyOopRuns
import Tigon.Hfta.JoinEqHashRuns
import Tigon.Hfta.MultopRuns
import Tigon.Gscphost.FtaInstance
import Tigon.Ftacmp.Temporal
import Tigon.Ftacmp.CommonFilter
import Tigon.Ftacmp.JoinSplitRows
import Tigon.Flow.ProgramController
import Tigon.Flow.ProcessRunner
import Tigon.Increment.SummingScanner
import Tigon.Sql.GdatRecord
import Tigon.Ftacmp.HftaSets
import Tigon.Io.BinaryCodec
import Tigon.Io.SchemaGenerator
import Tigon.Io.SchemaRoundTrip
import Tigon.Io.UnionResolution
import Tigon.Flow.SchemaFinder
import Tigon.Hfta.HashSet
import Tigon.Common.PutGet
import Tigon.Transaction.SnapshotCodec
import Tigon.Ftacmp.SplitSources
import Tigon.Ftacmp.FilterJoin
import Tigon.Ftacmp.GroupByPatterns
import Tigon.Ftacmp.SeEquivalence
import Tigon.Ftacmp.Linkage
import Tigon.Gscphost.FtaLookup
import Tigon.Gscphost.Wakeup
import Tigon.Ftaaux.Strings
import Tigon.Sql.OutputServerSocket
import Tigon.Sql.GDATRecordQueue
import Tigon.Queue.QueueEntry
import Tigon.Queue.QueueProducer
import Tigon.Hfta.RunningAgg
import Tigon.Hfta.OutputQueue
import Tigon.Lib.Rounding
import Tigon.Ftacmp.MergeSlack
import Tigon.Ftacmp.IfaceQ
import Tigon.Ftacmp.VirtualIfaces
import Tigon.Ftacmp.LftaNames
import Tigon.Ftacmp.SchemaParser
import Tigon.Ftacmp.ParamBlock
import Tigon.Ftacmp.SplitAggr
import Tigon.Ftacmp.LftaAggr
import Tigon.Ftacmp.SplitGroupBy
import Tigon.Sql.JsonInputServerSocket
import Tigon.Gscprts.RtsCsv
import Tigon.Increment.Compaction
