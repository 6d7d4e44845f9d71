import Eonos.Lib.Reachable
import Eonos.Lib.Spans
import Eonos.Lib.Placement
import Eonos.Lib.TableTree
import Eonos.Lib.Bits
import Eonos.Lib.Checked
import Eonos.Lib.Vectors
import Eonos.Physical.Bitmap
import Eonos.Physical.Model
import Eonos.Physical.ClearFrames
import Eonos.Physical.Operations
import Eonos.Physical.Safety
import Eonos.Physical.Supply
import Eonos.Heap.Model
import Eonos.Heap.Insert
import Eonos.Heap.Safety
import Eonos.Heap.Accounts
import Eonos.Sched.Model
import Eonos.Sched.Moves
import Eonos.Sched.Conservation
import Eonos.Sched.Safety
import Eonos.Vmm.Memory
import Eonos.Vmm.Model
import Eonos.Vmm.Entries
import Eonos.Vmm.Tree
import Eonos.Vmm.Operations
import Eonos.Vmm.Paging
import Eonos.Vmm.Runs
import Eonos.Vmm.UserCopy
import Eonos.Vmm.UserCopySafety
import Eonos.Vmm.Descent
import Eonos.Spaces.Machine
import Eonos.Spaces.Model
import Eonos.Spaces.Tree
import Eonos.Spaces.UserHalf
import Eonos.Spaces.Ownership
import Eonos.Spaces.Teardown
import Eonos.Spaces.Steps
import Eonos.Spaces.Events
import Eonos.Spaces.Runs
import Eonos.Spaces.Isolation
import Eonos.Spaces.Accounts
import Eonos.Spaces.Idle
import Eonos.Spaces.Mapping
import Eonos.Spaces.UserMemory
import Eonos.Terminal.LineEditor
import Eonos.Terminal.Editing
import Eonos.Terminal.Reading
import Eonos.Terminal.SysRead
import Eonos.Blocking.WaitQueue
import Eonos.Blocking.Mutex
import Eonos.Blocking.Semaphore
import Eonos.Block.Locks
import Eonos.Lib.Utf8
import Eonos.Initramfs.Model
import Eonos.Initramfs.Ustar
import Eonos.Initramfs.RoundTrip
import Eonos.Elf.Model
import Eonos.Elf.Headers
import Eonos.Elf.Pages
import Eonos.Elf.Contents
import Eonos.Elf.Loading
import Eonos.Process.Model
import Eonos.Process.Table
import Eonos.Process.Waiting
import Eonos.Files.Model
import Eonos.Files.Table
import Eonos.Sched.Slots
import Eonos.Sched.Machine
import Eonos.Sched.StackPages
import Eonos.Sched.Stacks
import Eonos.Sched.Handover
import Eonos.Sched.StackRuns
import Eonos.Sched.StackSafety
import Eonos.Sched.Reaping
import Eonos.Lib.CycleRing
import Eonos.Lib.Prog
import Eonos.Usb.Rings
import Eonos.Usb.Keyboard
import Eonos.Usb.InputQueue
import Eonos.Usb.Descriptors
import Eonos.Usb.Setup
import Eonos.Usb.Accounts
import Eonos.Screen.Model
import Eonos.Screen.Drawing
import Eonos.Screen.Output
import Eonos.Elf.Words
import Eonos.Elf.Acceptance
import Eonos.Elf.Budget
import Eonos.Process.Stack
import Eonos.Process.StackLayout
import Eonos.Process.StackPages
import Eonos.Process.FirstStack
import Eonos.Process.Budget
import Eonos.Lib.Script
import Eonos.Lib.Bytes
import Eonos.Lib.Utf16
import Eonos.Lib.Ascii
import Eonos.Fat.Names
import Eonos.Fat.Model
import Eonos.Fat.Volume
import Eonos.Fat.View
import Eonos.Fat.Updates
import Eonos.Fat.Allocation
import Eonos.Fat.Links
import Eonos.Fat.Scan
import Eonos.Fat.Directory
import Eonos.Fat.Aliases
import Eonos.Fat.Reading
import Eonos.Fat.Confined
import Eonos.Heap.Canonical
import Eonos.Heap.Exhaustion
import Eonos.Physical.Search
import Eonos.Physical.Requests
import Eonos.Sched.Sleeping
import Eonos.Lib.Segments
import Eonos.Vfs.Model
import Eonos.Vfs.Paths
import Eonos.Vfs.Listing
import Eonos.Lib.Crc
import Eonos.Partition.Checksum
import Eonos.Acpi.Madt
import Eonos.Block.Probe
