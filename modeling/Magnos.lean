import Magnos.Framework.Transition
import Magnos.Framework.Search
import Magnos.Framework.Word32
import Magnos.Framework.Spans
import Magnos.Framework.Linked
import Magnos.Framework.Chunks
import Magnos.Framework.ByteMemory
import Magnos.Framework.Pool
import Magnos.Framework.Stack
import Magnos.Framework.RingBuffer
import Magnos.Framework.RoundRobin
import Magnos.Framework.Scroll
import Magnos.Framework.TextLayout
import Magnos.Memory.Pmm
import Magnos.Memory.ReservedPages
import Magnos.Memory.Heap
import Magnos.Memory.FreePages
import Magnos.Memory.HeapShape
import Magnos.Memory.HeapFreeList
import Magnos.Memory.HeapRuns
import Magnos.Memory.HeapCoalesce
import Magnos.Memory.HeapJoin
import Magnos.Memory.HeapGrowth
import Magnos.Memory.HeapRestore
import Magnos.Memory.Paging
import Magnos.Memory.PmmLog
import Magnos.Memory.PageTables
import Magnos.Memory.PageMap
import Magnos.Memory.UserAccess
import Magnos.Memory.Process
import Magnos.Memory.Isolation
import Magnos.Process.Table
import Magnos.Process.Preempt
import Magnos.Process.Switch
import Magnos.Process.RoundRobin
import Magnos.Process.Timer
import Magnos.Console.Keyboard
import Magnos.Console.Modifiers
import Magnos.Console.Shells
import Magnos.Console.Vga
import Magnos.Console.ScreenText
import Magnos.Console.LineEcho
import Magnos.Fat32.Volume
import Magnos.Fat32.Directory
import Magnos.Fat32.Read
import Magnos.Fat32.Session
import Magnos.Fat32.Handles
import Magnos.Fat32.Statics
import Magnos.Fat32.Names
import Magnos.Fat32.Lookup
import Magnos.Fat32.Termination
import Magnos.Fat32.Requests
import Magnos.Fat32.ClusterBounds
import Magnos.Fat32.Listings
import Magnos.Fat32.FailedReads
import Magnos.Fat32.Drive
import Magnos.Fat32.DriveReady
import Magnos.Syscall.UserSpace
import Magnos.Syscall.Files
import Magnos.Syscall.CommandLine
import Magnos.Syscall.OpenListed
import Magnos.Loader.Elf
import Magnos.Loader.Segments
import Magnos.Loader.Image
import Magnos.Loader.OwnBytes
import Magnos.Syscall.Pointers
import Magnos.Program.Machine
import Magnos.Syscall.NamePaths
import Magnos.Program.Frames
import Magnos.Program.KernelStack
import Magnos.Program.ExecStack
import Magnos.Program.Images
import Magnos.Program.FileUse
import Magnos.Program.OpenFile
import Magnos.Program.ExecFailure
import Magnos.Framework.Ports
import Magnos.Framework.BlockStore
import Magnos.Ide.Driver
import Magnos.Ide.AtaDrive
import Magnos.Ide.Transfers
import Magnos.Ide.SectorReads
import Magnos.Program.SetJmp
