import Hyperion.Lib.Trace
import Hyperion.Lib.Partial
import Hyperion.Lib.Word
import Hyperion.Config
import Hyperion.Heap
import Hyperion.Lib.FreeRun
import Hyperion.Lib.Rings
import Hyperion.Lib.DList
import Hyperion.Lib.RingQueue
import Hyperion.Lib.Unwinding
import Hyperion.Lib.Probe
import Hyperion.Lib.Tokens
import Hyperion.Lib.CString
import Hyperion.Lib.X86
import Hyperion.Lib.Links
import Hyperion.Lib.Numeral
import Hyperion.Lib.Segment
import Hyperion.Lib.Extremum
import Hyperion.HeapTable
import Hyperion.HeapSafety
import Hyperion.Kernel
import Hyperion.Str
import Hyperion.Disk
import Hyperion.PathParser
import Hyperion.Fat16
import Hyperion.File
import Hyperion.Paging
import Hyperion.Task
import Hyperion.KernelHeap
import Hyperion.AddressSpace
import Hyperion.TaskSpec
import Hyperion.TaskList
import Hyperion.TaskAsm
import Hyperion.ContextSwitch
import Hyperion.FileCursor
import Hyperion.DirectoryScan
import Hyperion.DirectoryLookup
import Hyperion.PathLookup
import Hyperion.Keyboard
import Hyperion.FileFrame
import Hyperion.PathGrammar
import Hyperion.DescriptorTable
import Hyperion.FileLeak
import Hyperion.FatStreams
import Hyperion.Elf
import Hyperion.ElfCheck
import Hyperion.Terminal
import Hyperion.Process
import Hyperion.PageMap
import Hyperion.Release
import Hyperion.FileBlocks
import Hyperion.TaskNew
import Hyperion.ProcessData
import Hyperion.ProcessMap
import Hyperion.ProcessLoad
import Hyperion.BlockFlags
import Hyperion.Translation
import Hyperion.Reclaim
import Hyperion.ProcessHeap
import Hyperion.CopyString
import Hyperion.ElfMap
import Hyperion.Strtok
import Hyperion.ParseCommand
import Hyperion.Readline
import Hyperion.LoadFailure
import Hyperion.KeptBytes
import Hyperion.ElfImage
import Hyperion.AllocationRuns
import Hyperion.ImageKept
import Hyperion.Termination
import Hyperion.ProcessLeak
import Hyperion.AllocationOwners
import Hyperion.ProcessTable
import Hyperion.Streamer
import Hyperion.ClusterChain
import Hyperion.ReadPieces
import Hyperion.ChunkedReads
import Hyperion.SeekRange
import Hyperion.ShortNames
import Hyperion.Mount
import Hyperion.DiskPositions
import Hyperion.ReadRequests
import Hyperion.RootScan
import Hyperion.Subdirectory
import Hyperion.LoadBytes
import Hyperion.ArgumentInjection
import Hyperion.ArgumentsArrive
import Hyperion.ArgumentWalk
import Hyperion.RunProgram
import Hyperion.SystemCall
import Hyperion.ProgramArguments
import Hyperion.PathBuffers
import Hyperion.TaskTurns
import Hyperion.ExitTurn
import Hyperion.Itoa
import Hyperion.Printf
import Hyperion.Gdt
import Hyperion.FirstFit
import Hyperion.ElfExtent
import Hyperion.Lib.X86Trap
import Hyperion.Idt
import Hyperion.InterruptStub
import Hyperion.DivideError
import Hyperion.SystemCallAsm
import Hyperion.Isr80h
import Hyperion.ClassicKeyboard
import Hyperion.KernelExit
import Hyperion.ProcessLives
import Hyperion.SystemRuns
import Hyperion.Placement
import Hyperion.PlacedFile
import Hyperion.PlacedLoad
import Hyperion.PlacedEnd
import Hyperion.TableStages
import Hyperion.KernelStart
import Hyperion.StalePrev
