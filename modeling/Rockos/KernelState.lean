import Rockos.Paging
import Rockos.SyscallFrame
import Rockos.Tty

/-!
# Kernel state: process table, run queue and interrupts

The statics of process.rs, scheduler.rs, interrupts.rs, fs.rs and tty.rs in one
record, as they are once `process::init` and `scheduler::init` have run (before
that `TABLE` and `SCHED` hold `None` and no process exists). A process owns a
kernel stack; only the address of its end matters, so that is what a process
records. Heap exhaustion ends in `alloc_error`, which never returns; a run that
reaches it has no further step.

Interrupts that arrive while user code runs are events of their own. While the
kernel runs, they are taken at `enable_and_hlt` only: each wait takes one batch
of interrupts, namely everything delivered from that wait up to the next point
at which the kernel looks at the state a handler writes.
-/
namespace Rockos.KernelState
open FallibleState PhysMemory Paging SyscallFrame Tty

def userBrkBase : ℕ := 0x404000

def userBrkLimit : ℕ := 0x410000

def userMmapBase : ℕ := 0x410000

def userMmapLimit : ℕ := 0x480000

structure VmArea where
  id : ℕ
  virtStart : ℕ
  pages : ℕ
  writable : Bool
  executable : Bool
  deriving DecidableEq, Repr

def VmArea.virtEnd (a : VmArea) : ℕ := a.virtStart + a.pages * pageSize

structure Process where
  pid : ℕ
  parent : Option ℕ
  brkEnd : ℕ
  vmAreas : List VmArea
  exitCode : Option Int32
  kstackTop : UInt64
  save : SyscallSaved
  pendingRax : UInt64
  deriving DecidableEq

structure SchedState where
  runnable : List ℕ
  timeSliceTicks : ℕ
  lastStartedTick : ℕ
  deriving DecidableEq, Repr

/-- The statics of fs.rs; `files` is the map from descriptors to contents. -/
structure FileTable where
  stdinNonblock : Bool
  nextFd : UInt64
  files : List (UInt64 × List UInt8)
  deriving DecidableEq, Repr

/-- IRQ0, and IRQ1 with the byte it finds in the controller. -/
inductive Irq where
  | timer
  | keyboard (scancode : UInt8)
  deriving DecidableEq, Repr

/-- `waits` holds the interrupts that are still to arrive, one batch for each
wait of the running system call. -/
structure Kernel where
  mem : Mem
  procs : List (Option Process)
  currentSlot : ℕ
  currentKstackTop : UInt64
  nextMmap : ℕ
  vmAreaNextId : ℕ
  sched : SchedState
  needResched : Bool
  ticks : ℕ
  fs : FileTable
  tty : TtyState
  waits : List (List Irq)

/-- The statics as the kernel image holds them, before any process exists. -/
def statics (mem : Mem) : Kernel where
  mem := mem
  procs := []
  currentSlot := 0
  currentKstackTop := 0
  nextMmap := userMmapBase
  vmAreaNextId := 1
  sched := ⟨[], 12, 0⟩
  needResched := false
  ticks := 0
  fs := ⟨false, 4, []⟩
  tty := .new
  waits := []

abbrev KernelM := EStateM Stop Kernel

def setMem (m : Mem) (k : Kernel) : Kernel := { k with mem := m }

def onMem {α : Type} (x : MemM α) : KernelM α := zoom Kernel.mem setMem x

theorem onMem_attempt_of_error {α : Type} {x : MemM α} {k : Kernel} {e : Stop} {m : Mem}
    (h : x k.mem = .error e m) : onMem (attempt Stop.isErr x) k =
      if e.isErr then .ok none (setMem m k) else .error e (setMem m k) := by
  unfold onMem zoom attempt
  rw [h]
  cases e <;> rfl

/-- A caught memory operation returns a value, reports a failure, or stops. -/
theorem onMem_attempt_cases {α : Type} (x : MemM α) (k : Kernel) :
    (∃ a m, x k.mem = .ok a m ∧ onMem (attempt Stop.isErr x) k = .ok (some a) (setMem m k)) ∨
    (∃ reason m, x k.mem = .error (.err reason) m ∧
      onMem (attempt Stop.isErr x) k = .ok none (setMem m k)) ∨
    (∃ e m, x k.mem = .error e m ∧ onMem (attempt Stop.isErr x) k = .error e (setMem m k)) := by
  unfold onMem zoom attempt
  cases hx : x k.mem with
  | ok a m => exact .inl ⟨a, m, rfl, rfl⟩
  | error e m =>
      cases e with
      | err reason => exact .inr (.inl ⟨reason, m, rfl, rfl⟩)
      | panic => exact .inr (.inr ⟨_, m, rfl, rfl⟩)
      | blocked => exact .inr (.inr ⟨_, m, rfl, rfl⟩)

/-- `(-n) as u64`. -/
def errno (n : ℕ) : UInt64 := UInt64.ofNat (2 ^ 64 - n)

/-! ## Interrupt handlers and waits -/

def onTimerTick (now : ℕ) (k : Kernel) : Kernel :=
  if now - k.sched.lastStartedTick ≥ k.sched.timeSliceTicks then { k with needResched := true }
  else k

def timerInterruptHandler (k : Kernel) : Kernel :=
  onTimerTick (k.ticks + 1) { k with ticks := k.ticks + 1 }

/-- The byte goes to the terminal; the scan code queue is read during boot only. -/
def handleKeyboardIrq (scancode : UInt8) (k : Kernel) : Kernel :=
  { k with tty := k.tty.feedScancode scancode }

def takeIrq : Irq → Kernel → Kernel
  | .timer, k => timerInterruptHandler k
  | .keyboard scancode, k => handleKeyboardIrq scancode k

def takeIrqs (irqs : List Irq) (k : Kernel) : Kernel := irqs.foldl (fun k i => takeIrq i k) k

/-- The handlers change nothing but the clock, the terminal and the request to
reschedule. -/
theorem takeIrqs_eq (irqs : List Irq) (k : Kernel) : ∃ ticks needResched tty,
    takeIrqs irqs k = { k with ticks := ticks, needResched := needResched, tty := tty } := by
  induction irqs generalizing k with
  | nil => exact ⟨k.ticks, k.needResched, k.tty, rfl⟩
  | cons i irqs ih =>
      have hone : ∃ ticks needResched tty,
          takeIrq i k = { k with ticks := ticks, needResched := needResched, tty := tty } := by
        cases i with
        | timer =>
            simp only [takeIrq, timerInterruptHandler, onTimerTick]
            split_ifs with hslice
            · exact ⟨_, _, _, rfl⟩
            · exact ⟨_, _, _, rfl⟩
        | keyboard scancode => exact ⟨_, _, _, rfl⟩
      obtain ⟨ticks, needResched, tty, hone⟩ := hone
      obtain ⟨ticks', needResched', tty', hrest⟩ := ih (takeIrq i k)
      exact ⟨ticks', needResched', tty', hrest.trans (by rw [hone])⟩

def enableAndHlt : KernelM Unit := do
  match (← get).waits with
  | [] => throw .blocked
  | irqs :: rest => modify fun k => takeIrqs irqs { k with waits := rest }

/-- `loop { if let Some(a) = poll() { break a } enable_and_hlt() }`. Every turn
takes one batch of `waits`, so `waits.len() + 1` turns are enough. -/
def waitTurns {α : Type} (poll : KernelM (Option α)) : ℕ → KernelM α
  | 0 => throw .blocked
  | n + 1 => do
      match ← poll with
      | some a => pure a
      | none =>
          enableAndHlt
          waitTurns poll n

def waitLoop {α : Type} (poll : KernelM (Option α)) : KernelM α := do
  let k ← get
  waitTurns poll (k.waits.length + 1)

/-! ## Process table -/

/-- `procs.get(slot).and_then(|p| p.as_deref())`. -/
def Kernel.proc (k : Kernel) (slot : ℕ) : Option Process := (k.procs[slot]?).join

/-- The entry of `CURRENT_SLOT`. -/
def Kernel.current (k : Kernel) : Option Process := k.proc k.currentSlot

def Kernel.updateProc (k : Kernel) (slot : ℕ) (f : Process → Process) : Kernel :=
  { k with procs := k.procs.modify slot (Option.map f) }

def Kernel.updateCurrent (k : Kernel) (f : Process → Process) : Kernel :=
  k.updateProc k.currentSlot f

@[simp] theorem proc_updateProc (k : Kernel) (slot : ℕ) (f : Process → Process) (s : ℕ) :
    (k.updateProc slot f).proc s = if s = slot then (k.proc s).map f else k.proc s := by
  unfold Kernel.proc Kernel.updateProc
  rw [List.getElem?_modify]
  by_cases h : s = slot
  · subst h
    cases k.procs[s]? <;> simp
  · cases k.procs[s]? <;> simp [h, Ne.symm h]

theorem current_updateCurrent (k : Kernel) (f : Process → Process) :
    (k.updateCurrent f).current = k.current.map f := by
  unfold Kernel.current Kernel.updateCurrent
  exact (proc_updateProc k _ f _).trans (if_pos rfl)

def maxProcs : ℕ := 32

/-- `alloc_slot`: the first free entry, or a new one at the end. -/
def allocSlot (procs : List (Option Process)) : Option (ℕ × List (Option Process)) :=
  match procs.findIdx? Option.isNone with
  | some i => some (i, procs)
  | none => if procs.length < maxProcs then some (procs.length, procs ++ [none]) else none

def Process.new (pid : ℕ) (parent : Option ℕ) (kstackTop : UInt64) (bootstrap : SyscallSaved) :
    Process :=
  ⟨pid, parent, userBrkBase, [], none, kstackTop, bootstrap, 0⟩

/-- `process::init`. The stack top is taken from the local value `staleTop`;
the value then moves into its box, where the stack ends at `boxedTop`. -/
def processInit (staleTop boxedTop : UInt64) (k : Kernel) : Kernel :=
  let bootstrap := bootstrapUser (UInt64.ofNat k.mem.image.entryRip) (UInt64.ofNat userStackTop)
    0x202
  { k with
    procs := some (Process.new 1 none boxedTop bootstrap) :: List.replicate 31 none
    currentSlot := 0
    currentKstackTop := staleTop }

def setCurrentSlot (slot : ℕ) (k : Kernel) : Kernel :=
  { k with
    currentSlot := slot
    currentKstackTop := (k.proc slot).elim k.currentKstackTop Process.kstackTop }

def currentPid (k : Kernel) : ℕ := (k.current.map Process.pid).getD 1

def currentPpid (k : Kernel) : Option ℕ := k.current.bind Process.parent

def kstackTopForSlot (k : Kernel) (slot : ℕ) : UInt64 :=
  (k.proc slot).elim k.currentKstackTop Process.kstackTop

def pendingRaxForSlot (k : Kernel) (slot : ℕ) : UInt64 := (k.proc slot).elim 0 Process.pendingRax

def setSyscallSaved (slot : ℕ) (save : SyscallSaved) (pendingRax : UInt64) (k : Kernel) : Kernel :=
  k.updateProc slot fun p => { p with save := save, pendingRax := pendingRax }

def slotIsAliveRunnable (k : Kernel) (slot : ℕ) : Bool :=
  (k.proc slot).elim false fun p => p.exitCode.isNone

def markExited (status : Int32) (k : Kernel) : Kernel :=
  k.updateCurrent fun p => { p with exitCode := some status }

/-! ## Run queue -/

/-- `scheduler::init`, with a slice of 12 ticks. -/
def schedulerInit (k : Kernel) : Kernel :=
  { k with sched := ⟨[0], 12, k.ticks⟩, needResched := false }

def noteYield (k : Kernel) : Kernel := { k with needResched := true }

def enqueueNewTask (slot : ℕ) (k : Kernel) : Kernel :=
  { k with
    sched := { k.sched with
      runnable := if slot ∈ k.sched.runnable then k.sched.runnable
        else k.sched.runnable ++ [slot] }
    needResched := true }

def rotateRunnable (k : Kernel) : Kernel :=
  { k with sched := { k.sched with
      runnable := match k.sched.runnable with
        | [] => []
        | front :: rest => rest ++ [front]
      lastStartedTick := k.ticks } }

/-- `retain(|&x| x != slot)`. -/
def dropRunnable (slot : ℕ) (k : Kernel) : Kernel :=
  { k with sched := { k.sched with runnable := k.sched.runnable.filter (· ≠ slot) } }

end Rockos.KernelState
