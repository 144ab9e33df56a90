import Rockos.FallibleState
import Rockos.TwoRuns
import Rockos.Runs
import Rockos.ByteBitmap
import Rockos.StackMachine
import Rockos.MapEdits
import Rockos.LockTrace
import Rockos.InitialStack
import Rockos.RingBuffer
import Rockos.TurnQueue
import Rockos.PhysMemory
import Rockos.FreeSet
import Rockos.Paging
import Rockos.ElfLoader
import Rockos.SyscallFrame
import Rockos.Tty
import Rockos.Keyboard
import Rockos.KeyboardWindow
import Rockos.TypedLines
import Rockos.ExtendedKeys
import Rockos.Vga
import Rockos.KernelState
import Rockos.AddressSpace
import Rockos.ExecStack
import Rockos.ProcessCalls
import Rockos.Reaping
import Rockos.Syscall
import Rockos.FaultReports
import Rockos.FrameSafety
import Rockos.PageEdits
import Rockos.OldImage
import Rockos.PointerChecks
import Rockos.UserMemory
import Rockos.FrameAccounts
import Rockos.PageAccounts
import Rockos.LoadedImage
import Rockos.HeaderTable
import Rockos.LoadedPages
import Rockos.BootFallback
import Rockos.SyscallEffects
import Rockos.Nanosleep
import Rockos.SystemMemory
import Rockos.ProcessTable
import Rockos.RunQueue
import Rockos.Turns
import Rockos.CallFootprints
import Rockos.KernelStacks
import Rockos.FrameNames
import Rockos.RoundRobin
import Rockos.FairTurns
import Rockos.ProcessMachine
import Rockos.ProcessRefinement
import Rockos.Instances
import Rockos.Family
import Rockos.ForkStacks
import Rockos.OwnStack
import Rockos.FreshPages
import Rockos.SharedSpace
import Rockos.Descriptors
import Rockos.UserStrings
import Rockos.OpenFiles
import Rockos.ContextSwitch
import Rockos.FrameUse
import Rockos.SegmentOutcome
import Rockos.LoaderOutcome
import Rockos.LoaderWrites
import Rockos.MemoryFootprints
import Rockos.Reexec
import Rockos.ExecFailure
import Rockos.ImageChecks
import Rockos.IrqLocks
import Rockos.IrqWaits
import Rockos.BlockingRead
import Rockos.TerminalInput
import Rockos.FrameLedger
import Rockos.FailedCalls
import Rockos.MmapRoundTrip
import Rockos.WritableRanges
import Rockos.ForkCopy
import Rockos.ForkFailure
import Rockos.MemoryFence
import Rockos.KernelMemory
import Rockos.MemoryWrites
import Rockos.MmapWindow
import Rockos.CallResults
