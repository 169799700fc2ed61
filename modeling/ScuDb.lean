import ScuDb.Hash.ExtendibleHash
import ScuDb.Hash.Directory
import ScuDb.Hash.SplitCopy
import ScuDb.Hash.Depth
import ScuDb.Hash.Refinement
import ScuDb.Hash.Concurrent
import ScuDb.Buffer.LRUReplacer
import ScuDb.Buffer.BufferPoolManager
import ScuDb.Buffer.FrameInvariant
import ScuDb.Buffer.NoLostWrite
import ScuDb.Buffer.Failures
import ScuDb.Buffer.Eviction
import ScuDb.Buffer.Project1
import ScuDb.Buffer.Pins
import ScuDb.Buffer.Borrow
import ScuDb.Index.TreePage
import ScuDb.Index.BPlusTree
import ScuDb.Index.Invariant
import ScuDb.Index.Shape
import ScuDb.Index.Update
import ScuDb.Index.Insertion
import ScuDb.Index.Merge
import ScuDb.Index.Deletion
import ScuDb.Index.Iterator
import ScuDb.Index.Concurrent
import ScuDb.Index.FullPool
import ScuDb.Index.Refinement
import ScuDb.Index.Crabbing
import ScuDb.Index.Scan
import ScuDb.Index.Separator
import ScuDb.Index.Check
import ScuDb.Index.Height
import ScuDb.Index.PoolCheck
