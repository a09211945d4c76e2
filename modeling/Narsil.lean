import Narsil.Durability.CheckpointCoverage
import Narsil.Restore.RestoreRecovery
import Narsil.Pattern.MatchPattern
import Narsil.Composite.PartitionRuns
import Narsil.Pattern.Typo
import Narsil.Segment.PagedTombstones
import Narsil.Cursor.Accepted
import Narsil.Durability.DamagedFrames
import Narsil.Durability.MarkerProtocol
import Narsil.Replication.SyncTier
import Narsil.Replication.Retention
import Narsil.Replication.InLogOrder
import Narsil.Replication.SnapshotAssembly
import Narsil.Allocator.ControllerMoves
import Narsil.Transport.Framing
import Narsil.Distribution.PinnedPages
import Narsil.Distribution.FailoverCoverage
import Narsil.Distribution.SelectionOrder
import Narsil.Distribution.GroupMerge
import Narsil.Export.RoundTrip
import Narsil.Durability.ConsistentCapture
import Narsil.Pattern.NumberRangeSpans
import Narsil.Synonyms.CombinedLists
import Narsil.Segment.TableLookups
import Narsil.Paged.PageChecksums
import Narsil.Serialization.SkippedFields
import Narsil.Paged.HeadReading
import Narsil.Durability.LogOpening
import Narsil.DeviceFeed.Pump
import Narsil.Fields.NumericAnswers
import Narsil.Fuzzy.BoundedLevenshtein
import Narsil.Ordering.SortOrder
import Narsil.Facets.Bounds
import Narsil.DeviceQueue.Store
import Narsil.Synonyms.LookupAnswers
import Narsil.Serialization.ValidUtf8
import Narsil.Allocator.FiniteWeights
