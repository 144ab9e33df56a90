import Rockos.LockTrace
import Rockos.Syscall

/-!
# Locks and interrupts along the paths of the kernel

Every function of the kernel that takes a spin lock, reduced to its lock
operations and its changes of the interrupt flag. A guard is released where it
is dropped: at the end of its block, or of the statement it is a temporary of.
The heap is a lock as well, taken for each allocation and each release; code
that may or may not reach the heap is a loop of such operations.

System calls start with interrupts masked. The instruction pair `sti; hlt` of
a wait is the only one in a system call that changes the flag, and nothing
masks interrupts again before the return to user code.
-/
namespace Rockos.IrqLocks
open LockTrace Syscall

inductive Lock where
  | sched | table | currentSlot | files | tty | scancodeQueue | serial1 | pagingLock
  | allocator | globalAllocator
  deriving DecidableEq, Repr

abbrev Code := Prog Lock

/-- One heap operation. -/
def alloc : Code := .lock .globalAllocator .skip

def allocs : Code := .loop alloc

def enableAndHlt : Code := .act .sti

/-- `without_interrupts` in code that runs with interrupts enabled. -/
def withoutInterrupts (p : Code) : Code := .seqs [.act .cli, p, .act .sti]

def println : Code := .lock .serial1 .skip

/-! ## process.rs, user.rs -/

def currentSlot : Code := .lock .currentSlot .skip

def setCurrentSlot : Code := .seqs [.lock .currentSlot .skip, .lock .table .skip]

def withSlot (f : Code) : Code := .seqs [.lock .currentSlot .skip, .lock .table f]

def withTableMut (f : Code) : Code := .lock .table f

def currentPid : Code := withSlot .skip

def currentPpid : Code := withSlot .skip

def pendingRaxForSlot : Code := .lock .table .skip

def kstackTopForSlot : Code := .lock .table .skip

def syscallSavedForSlot : Code := .lock .table .skip

def setSyscallSaved : Code := withTableMut .skip

def slotIsAliveRunnable : Code := .lock .table .skip

def markExited : Code := .seqs [currentSlot, withTableMut .skip]

/-- `covers_brk_heap`, `covers_mmap_read` and `covers_mmap_write` alike. -/
def covers : Code := withSlot .skip

/-- Both region checks: image and stack are decided without a lock. -/
def userRegionCheck : Code := .opt (.seqs [covers, .opt covers])

/-! ## Memory calls -/

def withMapper (f : Code) : Code := .lock .pagingLock f

/-- A page table edit holds the frame allocator inside the paging lock. -/
def editPages : Code := withMapper (.lock .allocator .skip)

def sysBrk : Code := withTableMut (.seqs [currentSlot, .opt editPages])

def sysMmap : Code := .opt (.seqs [editPages, .opt (.seqs [currentSlot, withTableMut allocs])])

def sysMunmap : Code := .opt (.seqs [withTableMut currentSlot, .opt editPages])

/-! ## scheduler.rs -/

def withSched (f : Code) : Code := .lock .sched f

def enqueueNewTask : Code := withSched allocs

def rotateRunnable : Code := withSched .skip

/-- The table is looked at while the queue is locked. -/
def pollRunnable : Code := withSched (.loop slotIsAliveRunnable)

/-- From the poll that finds a process to the jump into the return stub. -/
def resumeFront : Code :=
  .seqs [pollRunnable, setCurrentSlot, pendingRaxForSlot, kstackTopForSlot, syscallSavedForSlot]

def pickNextAndRestore : Code := .seq (.loop (.seq pollRunnable enableAndHlt)) resumeFront

def scheduleAfterExit : Code := .seq (.seqs [currentSlot, withSched .skip]) pickNextAndRestore

def completeSyscallAndSchedule : Code :=
  .seq (.seqs [currentSlot, setSyscallSaved, .opt rotateRunnable]) pickNextAndRestore

def sleepUntilTicks : Code := .loop enableAndHlt

/-! ## Process calls -/

def copyUserPages : Code := .loop (.seqs [withMapper .skip, .opt (withMapper .skip)])

def sysFork : Code :=
  .seqs [currentSlot, currentPid, withTableMut .skip, .opt (.seqs [editPages, .opt copyUserPages,
    .opt (.seqs [.lock .table allocs, .lock .table allocs, setSyscallSaved, enqueueNewTask])])]

/-- A reaped process is freed while the table is locked. -/
def sysWait4 : Code := .seqs [currentPid, withTableMut allocs, .opt userRegionCheck]

def readUserCstring : Code := .seqs [.loop (.seqs [userRegionCheck, allocs]), allocs]

def parseUserPtrvec : Code :=
  .seqs [.loop (.seqs [userRegionCheck, .opt readUserCstring, allocs]), allocs]

def buildExecStack : Code := .seqs [allocs, .loop (withMapper .skip), allocs]

def loadElfExec : Code := .seqs [editPages, .opt editPages, .opt buildExecStack]

def sysExecve : Code :=
  .seqs [userRegionCheck, .opt parseUserPtrvec, .opt parseUserPtrvec,
    .opt (.seqs [loadElfExec, .opt (.seqs [currentSlot, setSyscallSaved])]), allocs]

/-! ## Files and sleeping -/

/-- The line is copied, split and freed while the terminal is locked. -/
def ttyRead : Code := .lock .tty allocs

def readStdin : Code := .alt (.seqs [.loop (.seq ttyRead enableAndHlt), ttyRead]) ttyRead

def sysRead : Code :=
  .opt (.seqs [userRegionCheck, .opt (.alt readStdin (.opt (.lock .files .skip)))])

def writeFdAny : Code := .alt (.lock .serial1 .skip) (.opt (.lock .files allocs))

def sysWrite : Code := .opt (.seqs [userRegionCheck, .opt writeFdAny])

def sysOpen : Code :=
  .seqs [userRegionCheck, .opt (.seqs [.opt (.lock .files .skip), .opt (.lock .files allocs)])]

def sysClose : Code := .opt (.lock .files allocs)

def sysNanosleep : Code := .opt (.seqs [userRegionCheck, .opt sleepUntilTicks])

/-! ## The entry points -/

/-- The calls that return to the entry stub. -/
def syscallDispatch : Option Sysno → Code
  | some .read => sysRead
  | some .write => sysWrite
  | some .openFile => sysOpen
  | some .close => sysClose
  | some .brk => sysBrk
  | some .mmap => sysMmap
  | some .munmap => sysMunmap
  | some .fork => sysFork
  | some .execve => sysExecve
  | some .nanosleep => sysNanosleep
  | some .wait4 => sysWait4
  | some .getpid => currentPid
  | some .getppid => currentPpid
  | some .schedYield | some .exit | none => .skip

def exitAndSchedule : Code := .seq (.seqs [markExited, println]) scheduleAfterExit

/-- From `syscall_entry` to `sysretq`. -/
def syscall (n : Option Sysno) : Code :=
  if n = some .exit then exitAndSchedule else .seq (syscallDispatch n) completeSyscallAndSchedule

def popScancode : Code := withoutInterrupts (.lock .scancodeQueue .skip)

def processInit : Code := .seqs [alloc, alloc, .lock .table .skip, .lock .currentSlot .skip]

/-- The queue is allocated before the lock is taken. -/
def schedulerInit : Code := .seqs [currentPid, alloc, .lock .sched .skip]

/-- `kernel_main` from `interrupts::init` on; plain `hlt` leaves the flag alone. -/
def kernelMain : Code :=
  .seq (.seqs [.act .sti, println, println,
      .loop (.seqs [.loop (.seqs [popScancode, println]), popScancode]), println,
      editPages, .opt editPages, println, .opt editPages, processInit])
    (.seqs [schedulerInit, println])

def timerInterruptHandler : Code := withSched .skip

def keyboardInterruptHandler : Code := .opt (.lock .scancodeQueue (.lock .tty allocs))

def handlers : List Code := [timerInterruptHandler, keyboardInterruptHandler]

/-! ## Which paths are safe -/

theorem timer_takes_sched : timerInterruptHandler.Acquires .sched :=
  ⟨_, path_first _, by decide⟩

theorem keyboard_takes_tty : keyboardInterruptHandler.Acquires .tty :=
  ⟨_, .right (path_first _), by decide⟩

/-- A system call in two parts: everything up to the last poll of the queue,
and the rest. -/
def beforeResume (n : Option Sysno) : Code :=
  if n = some .exit then
    .seq (.seq (.seqs [markExited, println]) (.seqs [currentSlot, withSched .skip]))
      (.loop (.seq pollRunnable enableAndHlt))
  else
    .seq (.seq (syscallDispatch n) (.seqs [currentSlot, setSyscallSaved, .opt rotateRunnable]))
      (.loop (.seq pollRunnable enableAndHlt))

theorem syscall_path {n : Option Sysno} {tr : List (Action Lock)} (h : PathOf (syscall n) tr) :
    PathOf (.seq (beforeResume n) resumeFront) tr := by
  unfold syscall at h
  unfold beforeResume
  split_ifs at h ⊢ with hn
  · exact h.assoc.assoc
  · exact h.assoc.assoc

theorem beforeResume_no_cli (n : Option Sysno) : (beforeResume n).has .cli = false := by
  cases n with
  | none => decide
  | some c => cases c <;> decide

theorem syscall_safe_iff {n : Option Sysno} {tr : List (Action Lock)} (h : PathOf (syscall n) tr) :
    Safe handlers ⟨[], false⟩ tr ↔ .sti ∉ tr :=
  safe_iff_masked (syscall_path h) rfl (beforeResume_no_cli n) (by decide) (by decide) (by decide)
    List.mem_cons_self timer_takes_sched

theorem kernelMain_not_safe {tr : List (Action Lock)} (h : PathOf kernelMain tr) :
    ¬ Safe handlers ⟨[], false⟩ tr :=
  not_safe_of_must false h (by simp) (by decide) (by decide) (by decide) List.mem_cons_self
    timer_takes_sched

/-- A path through boot, or through one system call. -/
inductive KernelPath where
  | boot
  | syscall (n : Option Sysno)
  deriving DecidableEq, Repr

def KernelPath.code : KernelPath → Code
  | .boot => kernelMain
  | .syscall n => IrqLocks.syscall n

/-- Locks are given back, and interrupts are enabled only where none is held. -/
theorem code_heldAfter (p : KernelPath) : p.code.heldAfter [] = some [] := by
  cases p with
  | boot => decide
  | syscall n =>
      cases n with
      | none => decide
      | some c => cases c <;> decide

/-- No handler spins on a path if and only if it is a system call that never
waits. Boot takes the lock of the queue with interrupts enabled, and so does
every system call after a wait, when it polls the queue.

A path that waits for ever or panics has only come to the end of a part `s`. No
handler has spun on it if and only if each lock that it took with interrupts
enabled is one that no handler takes. -/
theorem irq_never_spins_iff (p : KernelPath) (tr : List (Action Lock)) (h : PathOf p.code tr) :
    (Safe handlers ⟨[], false⟩ tr ↔ p ≠ .boot ∧ .sti ∉ tr) ∧
      ∀ s, s <+: tr → (Safe handlers ⟨[], false⟩ s ↔ MasksLocks handlers ⟨[], false⟩ s) := by
  constructor
  · cases p with
    | boot => simp [kernelMain_not_safe h]
    | syscall n =>
        rw [syscall_safe_iff h]
        simp
  · rintro s ⟨t, rfl⟩
    have hfree := (h.heldAfter (c := ⟨[], false⟩) (code_heldAfter p)).1
    exact safe_iff_masksLocks ((opensFree_append _ s t).mp hfree).1

/-- A blocking read that had to wait once takes the terminal again with
interrupts enabled; a key pressed at that moment stops the machine. -/
theorem blocking_read_spins : ∃ tr, PathOf (KernelPath.syscall (some .read)).code tr ∧
    [.acquire .tty, .release .tty, .sti, .acquire .tty] <+: tr ∧
    WouldSpin handlers (exec ⟨[], false⟩ [.acquire .tty, .release .tty, .sti, .acquire .tty]) := by
  have hloop : PathOf (.loop (.seq ttyRead enableAndHlt)) (ttyRead.first ++ [.sti] ++ []) :=
    .again (.seq (path_first _) (.act _)) .done
  have hread : PathOf sysRead _ := .right (.seq (path_first userRegionCheck)
    (.seq (.right (.left (.left (.seq hloop (.seq (path_first ttyRead) .skip))))) .skip))
  refine ⟨_, .seq hread (path_first completeSyscallAndSchedule), ?_, rfl, keyboardInterruptHandler,
    by simp [handlers], .tty, List.mem_cons_self, keyboard_takes_tty⟩
  exact ⟨_, rfl⟩

theorem getpid_never_spins : ∃ tr, PathOf (KernelPath.syscall (some .getpid)).code tr ∧
    Safe handlers ⟨[], false⟩ tr := by
  have hpath := path_first (KernelPath.syscall (some .getpid)).code
  exact ⟨_, hpath, (irq_never_spins_iff _ _ hpath).1.mpr ⟨by decide, by decide⟩⟩

end Rockos.IrqLocks
