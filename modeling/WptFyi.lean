import WptFyi.Lib.Runs
import WptFyi.Shared.Models
import WptFyi.Shared.RunDiff
import WptFyi.Lib.Slices
import WptFyi.Taskcluster.CreateAllRuns
import WptFyi.Lib.GoMap
import WptFyi.Shared.Metadata
import WptFyi.Shared.TriageMetadata
import WptFyi.Shared.TriageNoLoss
import WptFyi.History.ProcessRun
import WptFyi.History.Replay
import WptFyi.Cache.BindSemantics
import WptFyi.Cache.Aggregator
import WptFyi.Cache.Interleaving
import WptFyi.Cache.NaiveSearch
import WptFyi.Cache.Representation
import WptFyi.Cache.Search
import WptFyi.Cache.ExistsNone
import WptFyi.Checks.CheckRunName
import WptFyi.Shared.AlignedRuns
import WptFyi.Webapp.PrintedSpecs
import WptFyi.Webapp.QueryReload
import WptFyi.Webapp.SpecAgreement
import WptFyi.Lib.JsNumber
import WptFyi.Query.Decode
import WptFyi.Query.DecodeSafety
import WptFyi.Webapp.QueryDecoding
import WptFyi.Webapp.RootQueries
import WptFyi.Cache.IngestRun
import WptFyi.Cache.Lossless
import WptFyi.Cache.Monitor
import WptFyi.History.Checkpoints
import WptFyi.Lib.PyValue
import WptFyi.Lib.SettledValues
import WptFyi.Processor.ReportMerge
import WptFyi.Shared.AlignedPages
import WptFyi.Shared.CommaPlaceholder
import WptFyi.Shared.MetadataArchive
import WptFyi.Shared.PluralProducts
import WptFyi.Shared.RowDiffs
import WptFyi.Lib.OffsetPages
import WptFyi.Shared.RunPages
import WptFyi.History.Invocations
import WptFyi.History.Restarts
import WptFyi.Cache.Eviction
import WptFyi.Cache.Wildcards
import WptFyi.Checks.CollapseOrder
import WptFyi.Lib.Fallback
import WptFyi.Screenshots.RecentHashes
import WptFyi.Shared.BatchLoads
import WptFyi.Shared.ManifestFilter
import WptFyi.Shared.RequestCaching
import WptFyi.Taskcluster.ArtifactURLs
import WptFyi.Lib.NewestFirst
import WptFyi.Shared.RunKeys
import WptFyi.Lib.CommonPrefix
import WptFyi.Shared.SharedPath
import WptFyi.Shared.TestURLs
import WptFyi.Processor.SummaryCache
import WptFyi.Receiver.PendingTestRuns
import WptFyi.Cache.LruConcurrency
import WptFyi.Cache.EmptyNames
import WptFyi.Cache.PlainSearch
import WptFyi.Search.SearchResponse
import WptFyi.Search.SummaryFiles
import WptFyi.Search.IndexedCounts
import WptFyi.Search.SearchesAgree
import WptFyi.Lib.Base64
import WptFyi.Lib.JsonText
import WptFyi.Lib.GoTime
import WptFyi.Filters.TestRunFilter
import WptFyi.Filters.Fields
import WptFyi.Filters.Products
import WptFyi.Filters.Query
import WptFyi.Filters.RoundTrip
import WptFyi.Filters.Token
import WptFyi.Lib.JsObject
import WptFyi.Lib.Fallible
import WptFyi.Webapp.ResultsTree
import WptFyi.Webapp.DrillDown
import WptFyi.Webapp.SubtestTable
import WptFyi.Receiver.Pipeline
import WptFyi.Receiver.PipelineSafety
import WptFyi.Screenshots.Batches
import WptFyi.Screenshots.Uploads
import WptFyi.Cache.Snapshots
import WptFyi.Cache.SearchHandler
import WptFyi.Triage.PendingMetadata
import WptFyi.History.HistoryChart
