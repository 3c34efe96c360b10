import Thuban.Lib.Fuel
import Thuban.Lib.Run
import Thuban.Lib.RingBuffer
import Thuban.Lib.X64
import Thuban.Lib.Bytes
import Thuban.Lib.Extents
import Thuban.Lib.Chain
import Thuban.Lib.Links
import Thuban.Lib.DoublyLinked
import Thuban.Lib.Scan
import Thuban.Lib.Bitmap
import Thuban.Lib.Numeral
import Thuban.Lib.Radix
import Thuban.Lib.Paging
import Thuban.Syscall.Entry
import Thuban.Heap.Model
import Thuban.Heap.Safety
import Thuban.Heap.Restore
import Thuban.Heap.Memory
import Thuban.Heap.Order
import Thuban.Heap.Refinement
import Thuban.Heap.Coalescing
import Thuban.Heap.Calls
import Thuban.Heap.Sessions
import Thuban.Heap.Requests
import Thuban.Heap.Accounting
import Thuban.Heap.Moves
import Thuban.Heap.DoubleFree
import Thuban.Mm.Pmm
import Thuban.Mm.FirstFit
import Thuban.Mm.Ownership
import Thuban.Mm.Vmm
import Thuban.Mm.PageTables
import Thuban.Mm.Mappings
import Thuban.Mm.Walkers
import Thuban.Mm.Paging
import Thuban.Mm.Filling
import Thuban.Mm.Allocation
import Thuban.Mm.Window
import Thuban.Mm.Rollback
import Thuban.Kernel.World
import Thuban.Kernel.CriticalSections
import Thuban.Kernel.Faults
import Thuban.Kernel.Interrupts
import Thuban.Kernel.StringLoops
import Thuban.Kernel.Strings
import Thuban.Kernel.Spinlock
import Thuban.Stdio.Format
import Thuban.Stdio.Agreement
import Thuban.Stdio.Sprintf
import Thuban.Stdio.Lengths
import Thuban.Stdio.Numbers
import Thuban.Stdio.Cursor
import Thuban.Fat32.Names
import Thuban.Fat32.Clusters
import Thuban.Fat32.Driver
import Thuban.Fat32.Timestamps
import Thuban.Fat32.Preservation
import Thuban.Fat32.Allocations
import Thuban.Fat32.Volume
import Thuban.Fat32.Writes
import Thuban.Fat32.Mount
import Thuban.Fat32.Chains
import Thuban.Fat32.Directory
import Thuban.Fat32.Removal
import Thuban.Fat32.Creation
import Thuban.Fat32.Files
import Thuban.Fat32.Tree
import Thuban.Fat32.Transitions
import Thuban.Fat32.Nodes
import Thuban.Fat32.Invariant
import Thuban.Fat32.Stability
import Thuban.Fat32.Contents
import Thuban.Fat32.Uniqueness
import Thuban.Fat32.Readdir
import Thuban.Fat32.Listing
import Thuban.Fat32.Scarcity
import Thuban.Fat32.Release
import Thuban.Fat32.Termination
import Thuban.Fat32.Selection
import Thuban.Fat32.Faults
import Thuban.Fat32.Failures
import Thuban.Fat32.Emptiness
import Thuban.Fat32.ReadBounds
import Thuban.Fat32.WriteOutcomes
import Thuban.Fat32.Reallocation
import Thuban.Fat32.Buffers
import Thuban.Fat32.Enumeration
import Thuban.Vfs.Model
import Thuban.Vfs.Paths
import Thuban.Vfs.Mounts
import Thuban.Vfs.Ancestors
import Thuban.Vfs.PathBuffers
import Thuban.Vfs.Descriptors
import Thuban.Vfs.Store
import Thuban.Vfs.Sharing
import Thuban.Vfs.Confinement
import Thuban.Vfs.Transfers
import Thuban.Vfs.Leaks
import Thuban.Vfs.DirectoryWrites
import Thuban.Drivers.Keyboard
import Thuban.Drivers.Vga
import Thuban.Drivers.Ata
import Thuban.Drivers.AtaSectors
import Thuban.Stdio.Terminal
import Thuban.Syscall.Files
import Thuban.Shell.Commands
