import SovProbe.Checked
import SovProbe.BigEndian
import SovProbe.Framing
import SovProbe.Crc
import SovProbe.WalHeader
import SovProbe.WalLayout
import SovProbe.WalStream
import SovProbe.WalCorruption
import SovProbe.WalConsumer
import SovProbe.Latch
import SovProbe.Config
import SovProbe.Breaker
import SovProbe.Hysteresis
import SovProbe.Decimal
import SovProbe.Eviction
import SovProbe.EvictionOrder
import SovProbe.FailOpen
import SovProbe.NextSegment
import SovProbe.PortFilter
import SovProbe.Retention
import SovProbe.SegmentReuse
import SovProbe.RotationSafety
import SovProbe.Writer
import SovProbe.WriterLog
import SovProbe.WriterRefinement
import SovProbe.TimedRotation
import SovProbe.KeyedMap
import SovProbe.Reassembler
import SovProbe.PendingEviction
import SovProbe.PlacementEffects
import SovProbe.ReassemblySafety
import SovProbe.WaterMark
import SovProbe.PendingAccounting
import SovProbe.Chunking
import SovProbe.Reordering
import SovProbe.ReassemblyCompleteness
import SovProbe.Internet
import SovProbe.Slicer
import SovProbe.Synthesize
import SovProbe.Snaplen
import SovProbe.DropTail
import SovProbe.Metrics
import SovProbe.OnWire
import SovProbe.Padding
import SovProbe.SegmentWindow
import SovProbe.RamBound
import SovProbe.History
import SovProbe.Ledger
import SovProbe.ReadCursor
import SovProbe.CursorSoundness
import SovProbe.BlindCache
import SovProbe.Deduplication
import SovProbe.GapRequest
import SovProbe.MemoryBound
import SovProbe.Overtaking
import SovProbe.CacheInvariant
import SovProbe.HarmlessChunks
import SovProbe.RejectedFrames
import SovProbe.PathNames
import SovProbe.Sov2Pcap
import SovProbe.BatchConversion
import SovProbe.Subscriber
import SovProbe.SubscriberCalls
import SovProbe.SubscriberSafety
import SovProbe.RefillRounds
import SovProbe.GapRepair
import SovProbe.Incarnations
import SovProbe.LogToPcap
import SovProbe.Probe
import SovProbe.ProbeRefinement
import SovProbe.CaptureOrder
import SovProbe.ProbeLog
import SovProbe.CaptureToPcap
import SovProbe.WholeRecords
import SovProbe.AppendOnly
import SovProbe.WalReceiver
import SovProbe.BoundedLoss
import SovProbe.PortAgreement
import SovProbe.BatchAgreement
import SovProbe.ReceivedToPcap
import SovProbe.Exposition
import SovProbe.MetricsPage
