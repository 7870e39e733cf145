import WalDb.Lib.LittleEndian
import WalDb.Lib.XorLinear
import WalDb.Lib.Crc
import WalDb.Crc32c
import WalDb.Record
import WalDb.Lib.Burst
import WalDb.Burst
import WalDb.Lib.PrefixCode
import WalDb.Lib.Act
import WalDb.Lib.Ends
import WalDb.Lib.Walk
import WalDb.Lib.Image
import WalDb.Lib.Tiling
import WalDb.Lib.Run
import WalDb.Lib.Overwrite
import WalDb.Lib.DirtyFlag
import WalDb.Lib.Decimal
import WalDb.Lib.Relabel
import WalDb.Basic
import WalDb.Store
import WalDb.Commit
import WalDb.Watermark
import WalDb.Decode
import WalDb.Strict.ZeroShift
import WalDb.Strict.Classify
import WalDb.Wal
import WalDb.Safety
import WalDb.Recovery
import WalDb.Codec
import WalDb.Damage
import WalDb.Strict.Marks
import WalDb.Strict.Correct
import WalDb.Strict.Open
import WalDb.System
import WalDb.Invariant
import WalDb.Crash
import WalDb.TruncateAfter
import WalDb.File
import WalDb.PositionedIo
import WalDb.Segment.Store
import WalDb.Segment.FileName
import WalDb.Segment.Spec
import WalDb.Segment.Image
import WalDb.Segment.Changes
import WalDb.Segment.WordSize
import WalDb.Segment.Durable
import WalDb.Segment.Concurrent
import WalDb.Segment.Names
import WalDb.Segment.NamesDurable
import WalDb.Sequential
import WalDb.Segment.Extent
import WalDb.Segment.Steady
import WalDb.Segment.Sound
import WalDb.Boundaries
import WalDb.Overflow
import WalDb.Segment.Log
import WalDb.Segment.Reopen
import WalDb.Restart
import WalDb.CrashImage
import WalDb.Snapshot
import WalDb.Group.Machine
import WalDb.Group.Watermarks
import WalDb.Group.FlushFailure
import WalDb.Group.Wakeups
import WalDb.Group.Economy
import WalDb.Coordinator
import WalDb.Progress
import WalDb.Lifetime
import WalDb.Lib.Simulation
import WalDb.Lib.Trace
import WalDb.Lib.Lockstep
import WalDb.Segment.Refine
import WalDb.Segment.Striping
import WalDb.Segment.Gaps
import WalDb.Segment.PowerLoss
import WalDb.Segment.CutShort
import WalDb.Segment.FailedDrop
import WalDb.Segment.FailedWrite
import WalDb.Shipped
import WalDb.IsEmpty
import WalDb.Segment.LostMarker
import WalDb.Program
import WalDb.Portable
import WalDb.Strict.Cost
import WalDb.Backends
import WalDb.Alone
import WalDb.Returns
import WalDb.Journal
import WalDb.Lasting
import WalDb.OnDisk
import WalDb.Segment.Unflushed
import WalDb.Segment.OnDisk
import WalDb.Visible
import WalDb.Typed
import WalDb.Segment.Footprint
