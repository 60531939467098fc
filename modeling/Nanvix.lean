import Nanvix.Base
import Nanvix.Dlfcn.Batch
import Nanvix.Dlfcn.Close
import Nanvix.HostFs.Completion
import Nanvix.HostFs.Identifiers
import Nanvix.HostFs.Confinement
import Nanvix.Library.CopyLoop
import Nanvix.Library.Evolution
import Nanvix.Library.Keyed
import Nanvix.Library.Patch
import Nanvix.Library.Positions
import Nanvix.Library.Slots
import Nanvix.Library.Tally
import Nanvix.Library.Worklist
import Nanvix.Mm.Accounting
import Nanvix.Mm.AllocSpec
import Nanvix.Mm.BulkPull
import Nanvix.Mm.BulkTarget
import Nanvix.Mm.Copy
import Nanvix.Mm.Eager
import Nanvix.Mm.EagerCopy
import Nanvix.Mm.EagerRefine
import Nanvix.Pm.Alarms
import Nanvix.Pm.EventSpec
import Nanvix.Pm.ExitSlot
import Nanvix.Pm.ExitStatus
import Nanvix.Pm.Interrupts
import Nanvix.Pm.MailCount
import Nanvix.Pm.Ownership
import Nanvix.Pm.Posting
import Nanvix.Pm.Senders
import Nanvix.Sys.Time
import Nanvix.Uservm.Credits
import Nanvix.Syscall.Parts
import Nanvix.Vfs.Descriptor
import Nanvix.Vfs.Mounts
import Nanvix.Vfs.OpenFiles
import Nanvix.Vfs.Posix
import Nanvix.Vfs.Unmount
import Nanvix.Vfs.Operations
import Nanvix.Vfsd.Assembler
import Nanvix.Mm.FrameOnce
import Nanvix.Mm.FrameRuns
import Nanvix.Mm.CopyExact
import Nanvix.Mm.UserCopyExact
import Nanvix.Mm.Trim
import Nanvix.Mm.Structure
import Nanvix.Mm.LinkExact
import Nanvix.Pm.Duplicate
import Nanvix.Dlfcn.Symbols
import Nanvix.Dlfcn.Dladdr
import Nanvix.Syscall.Transfer
import Nanvix.Syscall.TransferExact
import Nanvix.Syscall.TransferErrors
import Nanvix.Libc.BlockHeader
import Nanvix.Libc.HeapSpec
import Nanvix.Libc.Heap
import Nanvix.Mm.Mmap
import Nanvix.Cache
