import StarCache.Foundation.Program
import StarCache.Impl.Public
import StarCache.Ownership
import StarCache.Content.Slices
import StarCache.Content.MemRead
import StarCache.Content.Addressing
import StarCache.Content.Disk
import StarCache.Content.Transfer
import StarCache.Space.MemQuota
import StarCache.Space.DiskAllocation
import StarCache.Space.DiskConcurrency
import StarCache.Utils.LruHistory
import StarCache.Refinement.MemEviction
import StarCache.Refinement.ReadItem
import StarCache.Refinement.Write
import StarCache.Refinement.Public
import StarCache.Refinement.Runs
import StarCache.Properties.DiskEvictionPass
import StarCache.Properties.Integrity
import StarCache.Properties.Conservation
import StarCache.Properties.Evictability
import StarCache.Properties.Pinning
import StarCache.Properties.Reading
import StarCache.Properties.Ranges
import StarCache.Properties.Admission
import StarCache.Space.MemPrivate
import StarCache.RawBlockKey
import StarCache.Space.BlockFiles
import StarCache.Content.Layout
import StarCache.Utils.HandleTable
import StarCache.Utils.LruClient
import StarCache.Content.Fullness
import StarCache.Properties.Checksums
import StarCache.Properties.Flushing
import StarCache.Properties.Locking
import StarCache.Content.LastWrite
import StarCache.Space.DirRouting
import StarCache.Content.ShortTransfers
import StarCache.Properties.Totality
import StarCache.Properties.FailedSets
import StarCache.Properties.StaleItems
import StarCache.Properties.Sequential
import StarCache.Properties.Completion
import StarCache.Properties.Histories
import StarCache.Properties.SharedOwnership
