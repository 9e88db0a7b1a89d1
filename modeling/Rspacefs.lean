import Rspacefs.Lib.PathMap
import Rspacefs.Lib.EState
import Rspacefs.Lib.Heap
import Rspacefs.Lib.Run
import Rspacefs.Lib.Interning
import Rspacefs.Lib.Cursor
import Rspacefs.Lib.Paging
import Rspacefs.Lib.Memo
import Rspacefs.Lib.Walk
import Rspacefs.Vfs.Path
import Rspacefs.Vfs.FileSystem
import Rspacefs.Vfs.Tree
import Rspacefs.Vfs.Physical
import Rspacefs.Vfs.Disk
import Rspacefs.Core.Layer
import Rspacefs.Core.Cache
import Rspacefs.Core.View
import Rspacefs.Core.PushDown
import Rspacefs.Core.Listing
import Rspacefs.Core.Update
import Rspacefs.Core.Effects
import Rspacefs.Core.Pointwise
import Rspacefs.Core.Changes
import Rspacefs.Core.TreeView
import Rspacefs.Core.TreeRun
import Rspacefs.Core.Recreate
import Rspacefs.Core.Refuse
import Rspacefs.Verity.Merkle
import Rspacefs.Verity.TreeFile
import Rspacefs.Verity.Manifest
import Rspacefs.Verity.Reader
import Rspacefs.Fuse.SideChannel
import Rspacefs.Fuse.Daemon
import Rspacefs.Vfs.Local
import Rspacefs.Core.Frame
import Rspacefs.Fuse.Passive
import Rspacefs.Fuse.Touch
import Rspacefs.Fuse.Tables
import Rspacefs.Fuse.Layers
import Rspacefs.Fuse.Gone
import Rspacefs.Fuse.Names
import Rspacefs.Verity.VerifiedFS
import Rspacefs.Lib.Thread
import Rspacefs.Pvc.Swap
import Rspacefs.Pvc.TwoPath
import Rspacefs.Pvc.WriteBack
import Rspacefs.Core.Overwrite
import Rspacefs.Fuse.Handle
import Rspacefs.Fuse.HiddenLink
import Rspacefs.Fuse.Writers
import Rspacefs.Lib.Follows
import Rspacefs.Fuse.Fresh
import Rspacefs.Fuse.StartsFrom
import Rspacefs.Fuse.Backing
import Rspacefs.Fuse.Scan
import Rspacefs.Fuse.Over
import Rspacefs.Fuse.Pool
import Rspacefs.Pvc.Pivot
import Rspacefs.Lib.Codec
import Rspacefs.Verity.TreeCodec
import Rspacefs.Pvc.Capture
import Rspacefs.Pvc.Blob
import Rspacefs.Pvc.CaptureOrder
import Rspacefs.Verity.Verify
import Rspacefs.Core.SameContent
import Rspacefs.Pvc.Mount
import Rspacefs.Pvc.ReadOnly
import Rspacefs.Core.Kinds
import Rspacefs.Core.ListingOrder
import Rspacefs.Core.Succeed
import Rspacefs.Core.CacheThreads
import Rspacefs.Core.Emptiness
import Rspacefs.Core.Gaps
import Rspacefs.Core.MoveFile
import Rspacefs.Core.Markers
import Rspacefs.Core.Pairs
import Rspacefs.Fuse.Rename
import Rspacefs.Fuse.RenameLink
import Rspacefs.Lib.Exposition
import Rspacefs.Fuse.Recent
import Rspacefs.Fuse.Latency
import Rspacefs.Fuse.Metrics
import Rspacefs.Fuse.ThreadPool
import Rspacefs.Fuse.MountProgram
import Rspacefs.Fuse.Gauge
import Rspacefs.Fuse.Mountinfo
import Rspacefs.Core.Halting
import Rspacefs.Core.IntoItself
import Rspacefs.Core.OnlyBelow
import Rspacefs.Core.CopyTree
import Rspacefs.Core.RemoveTree
import Rspacefs.Core.Stays
import Rspacefs.Core.MoveDir
import Rspacefs.Verity.UntrustedTree
import Rspacefs.Verity.FailedRead
import Rspacefs.Lib.Source
import Rspacefs.Verity.FullCheck
import Rspacefs.Verity.VerifyBlocks
import Rspacefs.Verity.ShortReads
import Rspacefs.Verity.TwoReaders
import Rspacefs.Verity.DirManifest
import Rspacefs.Verity.ManifestHash
import Rspacefs.Verity.TwoBuilders
import Rspacefs.Verity.AuthPath
import Rspacefs.Verity.Bitset
import Rspacefs.Verity.Tiling
import Rspacefs.Verity.HexHash
import Rspacefs.Verity.Seek
import Rspacefs.Lib.Steps
import Rspacefs.Core.Plain
import Rspacefs.Core.Regular
import Rspacefs.Core.Refines
import Rspacefs.Pvc.Snapshot
import Rspacefs.Fuse.PlainMount
import Rspacefs.Fuse.BufferedMount
import Rspacefs.Fuse.CloseToOpen
import Rspacefs.Fuse.Serves
import Rspacefs.Lib.Mirrors
import Rspacefs.Core.Alongside
import Rspacefs.Verity.Transparent
import Rspacefs.Fuse.Twins
import Rspacefs.Fuse.VerifiedMount
import Rspacefs.Lib.Json
import Rspacefs.Verity.ManifestJson
import Rspacefs.Fuse.PinnedMount
