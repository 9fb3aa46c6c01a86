import Famfs.Lib.Machine
import Famfs.Lib.Intervals
import Famfs.Lib.Runs
import Famfs.Lib.Crc32
import Famfs.Lib.Paths
import Famfs.Spec.Bitmap
import Famfs.Spec.Meta
import Famfs.Spec.Log
import Famfs.Spec.Alloc
import Famfs.Spec.Flock
import Famfs.Spec.Copy
import Famfs.Spec.Namespace
import Famfs.Spec.Create
import Famfs.Spec.Logplay
import Famfs.Sanity.AllocBits
import Famfs.Sanity.AllocLayout
import Famfs.Sanity.AllocStrips
import Famfs.Sanity.AllocFmap
import Famfs.Sanity.CreateCases
import Famfs.Sanity.Tree
import Famfs.Sanity.PlayEntries
import Famfs.Sanity.PlayLog
import Famfs.Sanity.MasterPaths
import Famfs.Sanity.MasterSteps
import Famfs.Proofs.LogRuns
import Famfs.Proofs.AllocRuns
import Famfs.Proofs.AllocInside
import Famfs.Proofs.FlockRuns
import Famfs.Proofs.CopyRuns
import Famfs.Proofs.MasterRuns
import Famfs.Proofs.ReplayRuns
import Famfs.Lib.Records
import Famfs.Sanity.SlotBytes
import Famfs.Proofs.ReaderRuns
import Famfs.Sanity.CreateOutcomes
import Famfs.Proofs.CreateAtomic
import Famfs.Spec.Pcq
import Famfs.Sanity.PcqEntries
import Famfs.Sanity.PcqSteps
import Famfs.Proofs.PcqRuns
import Famfs.Sanity.PcqCalls
import Famfs.Proofs.PcqStale
import Famfs.Lib.Numerals
import Famfs.Spec.Yaml
import Famfs.Proofs.YamlRoundTrip
import Famfs.Lib.Buffer
import Famfs.Spec.Fmap
import Famfs.Proofs.FmapMessage
import Famfs.Lib.Links
import Famfs.Sanity.IcacheHeap
import Famfs.Sanity.IcacheOps
import Famfs.Sanity.IcacheRequests
import Famfs.Sanity.IcacheSteps
import Famfs.Proofs.IcacheRuns
import Famfs.Sanity.PlayOutcomes
import Famfs.Proofs.ReplayStatus
import Famfs.Sanity.PlayPlaces
import Famfs.Proofs.ReplayConfined
import Famfs.Spec.Cp
import Famfs.Sanity.CopyReads
import Famfs.Sanity.CpWalk
import Famfs.Proofs.CpStatus
import Famfs.Proofs.CopyRelease
import Famfs.Proofs.PcqRestarts
import Famfs.Sanity.AllocPasses
import Famfs.Sanity.StripedCalls
import Famfs.Proofs.AllocBuckets
import Famfs.Proofs.AllocUndo
import Famfs.Proofs.AllocParams
import Famfs.Lib.Stripes
import Famfs.Proofs.AllocStripes
import Famfs.Proofs.AllocCapacity
import Famfs.Proofs.AllocFirstFit
import Famfs.Proofs.AllocUnits
import Famfs.Sanity.LogScan
import Famfs.Proofs.LogCounts
import Famfs.Lib.Traced
import Famfs.Spec.LogAccess
import Famfs.Proofs.LogBounds
import Famfs.Proofs.FsckVerdict
import Famfs.Proofs.LoggedPaths
import Famfs.Proofs.ReplayZero
import Famfs.Lib.Cache
import Famfs.Proofs.StaleEntries
import Famfs.Spec.MapAccess
import Famfs.Proofs.MapBounds
import Famfs.Lib.Loops
import Famfs.Spec.YamlWrites
import Famfs.Sanity.YamlSteps
import Famfs.Proofs.YamlBounds
import Famfs.Proofs.YamlReturns
import Famfs.Proofs.YamlCounts
import Famfs.Spec.Lookup
import Famfs.Proofs.LookupErrors
import Famfs.Proofs.IcacheDrop
import Famfs.Proofs.BitmapAddress
import Famfs.Proofs.DaxdevTable
import Famfs.Lib.Fragments
import Famfs.Proofs.RangeStats
import Famfs.Proofs.ShadowInUse
import Famfs.Proofs.CheckVerdict
import Famfs.Lib.Literals
import Famfs.Proofs.SizeTexts
import Famfs.Proofs.MkdirParents
import Famfs.Proofs.RelpathInside
import Famfs.Proofs.SeriesOrder
import Famfs.Lib.Lines
import Famfs.Proofs.FlushCoverage
import Famfs.Proofs.MemFmapExact
import Famfs.Proofs.MkfsOwner
import Famfs.Proofs.SingleWriter
import Famfs.Proofs.ClusterSpace
import Famfs.Proofs.TornCounters
import Famfs.Proofs.FusedRuns
import Famfs.Proofs.IcacheDestroy
import Famfs.Proofs.ReaddirStream
import Famfs.Proofs.ClientMaps
import Famfs.Proofs.ClusterFsck
