import TableFS.Lib.ByteSeq
import TableFS.Lib.Slots
import TableFS.Lib.Runs
import TableFS.Lib.PinnedLru
import TableFS.Lib.ParentTree
import TableFS.Hash
import TableFS.Inode
import TableFS.Disk
import TableFS.DentryCache
import TableFS.InodeCache
import TableFS.FileData
import TableFS.PathLookup
import TableFS.DirScan
import TableFS.FileSystem
import TableFS.CacheEffects
import TableFS.Invariants
import TableFS.Records
import TableFS.Revisions
import TableFS.Extents
import TableFS.DiskSteps
import TableFS.Sizes
import TableFS.PlainMachine
import TableFS.Coherence
import TableFS.Refinement
import TableFS.CacheTransparency
import TableFS.Listing
import TableFS.RenameLoss
import TableFS.Attributes
import TableFS.MissingPaths
import TableFS.TidyCaches
import TableFS.Sessions
import TableFS.Fsync
import TableFS.Remount
import TableFS.InodeNumbers
import TableFS.LeftHandles
import TableFS.OpenRemoval
import TableFS.NameTree
import TableFS.Paths
import TableFS.PathWalk
import TableFS.NameCollisions
import TableFS.Subtree
import TableFS.Trails
import TableFS.Symlinks
import TableFS.DiskFrames
import TableFS.Storage
import TableFS.Numbers
import TableFS.Reads
import TableFS.FailedCalls
import TableFS.WrittenSizes
import TableFS.OpenTruncate
import TableFS.ByteFiles
import TableFS.ByteSimulation
import TableFS.Contents
import TableFS.TruncatedFiles
import TableFS.SharedFiles
import TableFS.DataFiles
import TableFS.Inventory
import TableFS.LeakedFiles
import TableFS.ThresholdChange
import TableFS.KvWrappers
import TableFS.DentryCalls
import TableFS.Allocator
import TableFS.SyncLimit
import TableFS.Iterators
import TableFS.Locks
import TableFS.DataDirs
import TableFS.Descriptors
import TableFS.WrapperRefs
import TableFS.Properties
import TableFS.MetaKVKeys
import TableFS.ValueBytes
import TableFS.Leveldb.ShardedCache
import TableFS.Lib.UnitCharges
import TableFS.Leveldb.WriteBatch
import TableFS.Leveldb.LogDamage
import TableFS.Leveldb.MemTable
