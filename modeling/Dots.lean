import Dots.Algo.KdTree
import Dots.Algo.Nearest
import Dots.Codebase.Awaited
import Dots.Codebase.Completion
import Dots.Codebase.Creation
import Dots.Codebase.Destruction
import Dots.Codebase.Order
import Dots.Codebase.Storage
import Dots.Codebase.Tasks
import Dots.Codebase.Visiting
import Dots.Database.Absorbing
import Dots.Database.ArrayDiff
import Dots.Database.Batch
import Dots.Database.Births
import Dots.Database.Blocks
import Dots.Database.Buffer
import Dots.Database.Cached
import Dots.Database.Castable
import Dots.Database.Changes
import Dots.Database.Cloning
import Dots.Database.Codec
import Dots.Database.Collecting
import Dots.Database.Consistency
import Dots.Database.Conversion
import Dots.Database.Copy
import Dots.Database.Counting
import Dots.Database.Difference
import Dots.Database.Directory
import Dots.Database.Drift
import Dots.Database.Filter
import Dots.Database.Frame
import Dots.Database.FreeIds
import Dots.Database.Gathering
import Dots.Database.Groups
import Dots.Database.Growth
import Dots.Database.Handles
import Dots.Database.Instances
import Dots.Database.Integrity
import Dots.Database.Issued
import Dots.Database.LifeCycle
import Dots.Database.Loading
import Dots.Database.Location
import Dots.Database.Masks
import Dots.Database.Matching
import Dots.Database.Merging
import Dots.Database.Metas
import Dots.Database.Named
import Dots.Database.Patchers
import Dots.Database.Placing
import Dots.Database.Queries
import Dots.Database.Reading
import Dots.Database.References
import Dots.Database.Registry
import Dots.Database.Reloading
import Dots.Database.Renaming
import Dots.Database.Replication
import Dots.Database.RoundTrip
import Dots.Database.Run
import Dots.Database.Saving
import Dots.Database.Scratch
import Dots.Database.Serialize
import Dots.Database.Shared
import Dots.Database.Shrinking
import Dots.Database.Sizes
import Dots.Database.Snapshot
import Dots.Database.Timestamps
import Dots.Database.Undisturbed
import Dots.Database.Values
import Dots.Database.Wellformed
import Dots.Database.World
import Dots.Library.Bytes
import Dots.Library.Circular
import Dots.Library.Ledger
import Dots.Library.Links
import Dots.Library.Population
import Dots.Library.Simulation
import Dots.Library.SplitTree
import Dots.Library.Stamps
import Dots.Library.Streams
import Dots.Runtime.ChunkVector
import Dots.Runtime.Context
import Dots.Runtime.Cursor
import Dots.Runtime.Flatten
import Dots.Runtime.RingBuffer
import Dots.Runtime.Set
import Dots.Runtime.StackAllocator
import Dots.Runtime.Vectors
import Dots.Transform.Hierarchy
import Dots.Transform.ParentToWorld
