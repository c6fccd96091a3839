import SysX.ForeignFrame
import SysX.TrapRemoval
import SysX.Exclusive
import SysX.Descriptors
import SysX.Pointers
import SysX.Processes
import SysX.RefCount
import SysX.Routing
import SysX.Syscall
import SysX.Pids
import SysX.KeyQueue
import SysX.KeyIsolation
import SysX.KeyDelivery
import SysX.IrqAdapter
import SysX.RoundTrip
import SysX.Relocated
import SysX.Loader
import SysX.PixelRoundTrip
import SysX.TaskFairness
import SysX.TarShape
import SysX.PciConfig
import SysX.VgaText
import SysX.TermFbuf
import SysX.Staging
import SysX.PmmSearch
import SysX.MemoryMap
import SysX.MpRouting
import SysX.Teardown
import SysX.Scrolling
import SysX.Commit
import SysX.FreeSpaceSkips
import SysX.Permissions
import SysX.TopOfMemory
import SysX.Unaligned
import SysX.OutOfMemory
import SysX.HeapGrowth
import SysX.ResolveLoop
import SysX.KmodSymbols
import SysX.LockBalance
import SysX.PathWalk
import SysX.TarProgress
import SysX.PathBuffers
import SysX.SymlinkCycles
import SysX.TaskStack
import SysX.PageRefinement
import SysX.WideMemset
import SysX.PixelRuns
import SysX.UstarPath
import SysX.DotPrefix
import SysX.CommandLine
import SysX.LineInput
import SysX.NodeData
import SysX.DeviceTree
import SysX.DevfsList
import SysX.TrapOwners
import SysX.Strtol
import SysX.IoapicMask
import SysX.Madt
import SysX.TablePasses
import SysX.MpBus
import SysX.ApicVectors
import SysX.PciScan
import SysX.PciEnumeration
import SysX.ElfLoad
import SysX.Random
import SysX.TaskTable
import SysX.Basecol
import SysX.StringMove
import SysX.StrtolFamily
import SysX.SerialTerm
import SysX.UnloadBalance
import SysX.TermGuard
import SysX.PrintedNumbers
import SysX.BootTables
import SysX.Processors
import SysX.TaskSections
import SysX.FbtermText
