import OsCoursework.Lib.Fuel
import OsCoursework.Lib.ForLoop
import OsCoursework.Lib.ByteMem
import OsCoursework.Lib.Tiling
import OsCoursework.Lib.Runs
import OsCoursework.Lib.Transition
import OsCoursework.Lib.Threads
import OsCoursework.Lib.ExchangeSort
import OsCoursework.Lib.LockOrder
import OsCoursework.Lib.Cycle
import OsCoursework.Lib.LinkedList
import OsCoursework.Lib.Cstring
import OsCoursework.Lib.Strtok
import OsCoursework.Lib.Strtol
import OsCoursework.Lib.BoundedStack
import OsCoursework.Lib.BoundedMap
import OsCoursework.Lib.TwoRuns
import OsCoursework.Lib.Lines
import OsCoursework.Lib.Segments
import OsCoursework.Lib.Words
import OsCoursework.Lib.Descriptors
import OsCoursework.Malloc.Code
import OsCoursework.Malloc.FreeList
import OsCoursework.Malloc.Heap
import OsCoursework.Malloc.Calls
import OsCoursework.Malloc.Run
import OsCoursework.Malloc.Canonical
import OsCoursework.Malloc.Sizes
import OsCoursework.Malloc.Copy
import OsCoursework.Malloc.Aligned
import OsCoursework.Critical.Code
import OsCoursework.Critical.Conserved
import OsCoursework.Critical.Drain
import OsCoursework.Deadlock.Code
import OsCoursework.Deadlock.Ordered
import OsCoursework.Editor.Code
import OsCoursework.Editor.Length
import OsCoursework.Editor.Undo
import OsCoursework.Editor.Log
import OsCoursework.Matchmaker.Code
import OsCoursework.Matchmaker.Pairing
import OsCoursework.Matchmaker.Barrier
import OsCoursework.Matchmaker.Waiting
import OsCoursework.Matchmaker.Wakeups
import OsCoursework.Motd.Code
import OsCoursework.Motd.Listing
import OsCoursework.Parking.Code
import OsCoursework.Parking.Table
import OsCoursework.Parking.Tokens
import OsCoursework.Parking.Framing
import OsCoursework.Parking.Show
import OsCoursework.Parking.Grammar
import OsCoursework.Parking.Service
import OsCoursework.Parking.Linear
import OsCoursework.Floppy.Code
import OsCoursework.Floppy.Directory
import OsCoursework.Floppy.Listing
import OsCoursework.Floppy.Termination
import OsCoursework.Floppy.Packing
import OsCoursework.Floppy.Entries
import OsCoursework.Floppy.New
import OsCoursework.Triangles.Code
import OsCoursework.Triangles.Count
import OsCoursework.Triangles.Exact
import OsCoursework.Triangles.Semaphores
import OsCoursework.Triangles.SharedCount
import OsCoursework.Triangles.Work
import OsCoursework.Triangles.Workers
import OsCoursework.Triangles.Collect
import OsCoursework.Kitchen.Code
import OsCoursework.Kitchen.Ordered
import OsCoursework.Kitchen.TakeAll
import OsCoursework.Kitchen.Programs
import OsCoursework.Kitchen.Runs
import OsCoursework.Pingpong.Code
import OsCoursework.Pingpong.Alternation
import OsCoursework.Pipeline.Code
import OsCoursework.Pipeline.Runs
import OsCoursework.Exclude.Code
import OsCoursework.Exclude.Copy
import OsCoursework.Stash.Code
import OsCoursework.Stash.Words
import OsCoursework.Stash.Accesses
import OsCoursework.Stash.Footprint
import OsCoursework.Stash.Shells
import OsCoursework.Server.Code
import OsCoursework.Server.Bounds
import OsCoursework.Server.Shutdown
import OsCoursework.Server.Replies
import OsCoursework.Server.Text
import OsCoursework.Server.Queues
import OsCoursework.Editor.Report
import OsCoursework.Editor.Stress
import OsCoursework.Editor.Reset
import OsCoursework.Quicksort.InPlace
import OsCoursework.Poi.Sorted
import OsCoursework.Http.Split
import OsCoursework.Motd.Recent
import OsCoursework.Stash.Stores
import OsCoursework.Malloc.Report
import OsCoursework.Malloc.MemTest
import OsCoursework.Top.Largest
import OsCoursework.Redirect.Child
