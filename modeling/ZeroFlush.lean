import ZeroFlush.FixedWidthCodec
import ZeroFlush.ConcatenatedFrames
import ZeroFlush.CursorParsing
import ZeroFlush.FiniteMaps
import ZeroFlush.GuardedRuns
import ZeroFlush.OrderedInsertion
import ZeroFlush.RecencyOrder
import ZeroFlush.WalReferenceStability
import ZeroFlush.TornTails
import ZeroFlush.IndexGenerations
import ZeroFlush.BatchAtomicity
import ZeroFlush.PrefixRecovery
import ZeroFlush.SyncedPartitions
import ZeroFlush.EpochTables
import ZeroFlush.ValueReads
import ZeroFlush.ReleasedIndexes
import ZeroFlush.RecoveredAnswers
import ZeroFlush.SnapshotReads
import ZeroFlush.FailedFlushes
import ZeroFlush.DisjointLevels
import ZeroFlush.PinnedReaders
import ZeroFlush.ChainLookups
import ZeroFlush.GenerationLedger
import ZeroFlush.RejectedBatches
import ZeroFlush.MultiGets
import ZeroFlush.ManifestRotation
import ZeroFlush.MaterializationPool
import ZeroFlush.SortFreeAside
import ZeroFlush.ScanRuns
import ZeroFlush.RoutingRecovery
import ZeroFlush.ScannerReach
import ZeroFlush.SortKeys
import ZeroFlush.RangeTombstones
import ZeroFlush.MergeChains
import ZeroFlush.OverlapScans
import ZeroFlush.AlignedTables
import ZeroFlush.MergePlacement
import ZeroFlush.BoundedSkips
import ZeroFlush.RecordSlices
import ZeroFlush.PropsReads
import ZeroFlush.PartitionIds
import ZeroFlush.SlicedPartitions
import ZeroFlush.SealedBytes
import ZeroFlush.DeviceFiles
import ZeroFlush.ActiveBytes
import ZeroFlush.InstallLevels
import ZeroFlush.SstDecoder
import ZeroFlush.TableBuilders
import ZeroFlush.EncodedTables
import ZeroFlush.EncoderRuns
import ZeroFlush.DeviceChains
import ZeroFlush.SealedTables
import ZeroFlush.BaseTables
import ZeroFlush.SealTriggers
import ZeroFlush.Quantiles
import ZeroFlush.SampledTables
import ZeroFlush.FailedWrites
import ZeroFlush.BloomRaces
import ZeroFlush.FrameDecoder
import ZeroFlush.DeviceProperties
import ZeroFlush.OnChipArrays
import ZeroFlush.RestartArrays
import ZeroFlush.FileRollovers
import ZeroFlush.PortReads
import ZeroFlush.WalFileNames
import ZeroFlush.PoolOutcomes
import ZeroFlush.HandleLru
import ZeroFlush.IndexMemory
import ZeroFlush.KernelRuns
import ZeroFlush.IndexNodes
import ZeroFlush.SkipListProgress
import ZeroFlush.DamagedRecords
import ZeroFlush.DeviceCompactions
import ZeroFlush.ChecksumTables
