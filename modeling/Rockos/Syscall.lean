import Rockos.ProcessCalls
import Rockos.Runs

/-!
# System calls from trap to resumption (fs.rs, syscall.rs, scheduler.rs)

One step of the machine is either an interrupt that arrives while user code
runs, or a whole system call: the entry stub, `syscall_dispatch`, the tail that
saves the caller, the choice of the next process and the return stub. A trap
carries everything the kernel code does not determine: the user registers, what
user code stored since it was resumed, the contents of kernel memory around the
frame, the place of `sys_fork`'s stack pointer, the address of a new kernel
stack, and the interrupts that end the waits.
-/
namespace Rockos.Syscall
open FallibleState PhysMemory Paging ElfLoader StackMachine SyscallFrame Tty KernelState
open AddressSpace ProcessCalls

/-! ## Files -/

/-- `tty::read` with the bytes stored through the user pointer. -/
def ttyRead (buf len : ℕ) (nonblock : Bool) : KernelM (Except ℤ ℕ) := do
  let r := (← get).tty.read len nonblock
  modify fun k => { k with tty := r.2 }
  match r.1 with
  | .error e => pure (.error e)
  | .ok bytes =>
      onMem (storeBytes buf bytes)
      pure (.ok bytes.length)

/-- One turn of the blocking loop: an empty answer means that no line is ready. -/
def pollStdin (buf len : ℕ) : KernelM (Option UInt64) := do
  match ← ttyRead buf len false with
  | .ok 0 => pure none
  | .ok n => pure (some (UInt64.ofNat n))
  | .error _ => pure (some (errno 4))

def readStdin (buf len : ℕ) : KernelM UInt64 := do
  if !(← get).fs.stdinNonblock then waitLoop (pollStdin buf len) else
    match ← ttyRead buf len true with
    | .ok n => pure (UInt64.ofNat n)
    | .error e => pure (UInt64.ofInt e)

/-- Files have no position: every read starts at the beginning. -/
def readFile (fd : UInt64) (buf len : ℕ) : KernelM UInt64 := do
  match (← get).fs.files.lookup fd with
  | none => pure (errno 9)
  | some [] => pure (errno 11)
  | some data =>
      onMem (storeBytes buf (data.take len))
      pure (UInt64.ofNat (min data.length len))

def sysRead (fd : UInt64) (buf len : ℕ) : KernelM UInt64 := do
  if len > 8192 then pure (errno 22) else
  if !userRegionIsWritableRange (← get) buf len then pure (errno 14) else
  if fd = 0 then readStdin buf len else
  if fd = 1 ∨ fd = 2 then pure (errno 9) else readFile fd buf len

def ascii (s : String) : List UInt8 := s.toList.map fun c => UInt8.ofNat c.toNat

def openNew : KernelM UInt64 := do
  let fd := (← get).fs.nextFd
  modify fun k => { k with fs := { k.fs with
    nextFd := fd + 1
    files := (fd, []) :: k.fs.files.filter (·.1 ≠ fd) } }
  pure fd

def sysOpen (pathPtr : ℕ) (flags : UInt64) : KernelM UInt64 := do
  if !userRegionIsReadableRange (← get) pathPtr 128 then pure (errno 14) else
    let bytes ← inspect fun k => loadBytes k.mem pathPtr 128
    let path := bytes.takeWhile (· ≠ 0)
    if !isUtf8 path then pure (errno 22) else
    if path = ascii "/dev/stdin" ∨ path = ascii "/dev/tty" then
      modify fun k => { k with fs := { k.fs with
        stdinNonblock := k.fs.stdinNonblock || decide (flags &&& 0x800 ≠ 0) } }
      pure 0
    else if path = ascii "/dev/null" then openNew
    else if path = [] then pure (errno 2)
    else if (← get).fs.files.length > 64 then pure (errno 24)
    else openNew

def sysClose (fd : UInt64) : KernelM UInt64 := do
  if fd ≤ 2 then pure (errno 9) else
  if ((← get).fs.files.lookup fd).isNone then pure (errno 9) else
    modify fun k => { k with fs := { k.fs with files := k.fs.files.filter (·.1 ≠ fd) } }
    pure 0

/-- Descriptors 1 and 2 go to the serial port, which reads the bytes and drops
them as far as this model is concerned. -/
def writeFdAny (fd : UInt64) (buf len : ℕ) : KernelM UInt64 := do
  if fd = 1 ∨ fd = 2 then
    let _ ← inspect fun k => loadBytes k.mem buf len
    pure (UInt64.ofNat len)
  else if fd > 2 then
    match (← get).fs.files.lookup fd with
    | none => pure (errno 9)
    | some _ =>
        let bytes ← inspect fun k => loadBytes k.mem buf len
        modify fun k => { k with fs := { k.fs with
          files := k.fs.files.map fun f => if f.1 = fd then (fd, f.2 ++ bytes) else f } }
        pure (UInt64.ofNat len)
  else pure (errno 9)

def sysWrite (fd : UInt64) (buf len : ℕ) : KernelM UInt64 := do
  if len > 8192 then pure (errno 28) else
  if !userRegionIsReadableRange (← get) buf len then pure (errno 14) else
  writeFdAny fd buf len

/-! ## Sleeping -/

def toI64 (n : ℕ) : ℤ := if n < 2 ^ 63 then n else n - 2 ^ 64

/-- The nearest value of an `i64`. -/
def saturateI64 (x : ℤ) : ℤ := max (-2 ^ 63) (min x (2 ^ 63 - 1))

def timerHz : ℤ := 100

/-- The number of ticks to sleep; `nsec * hz` is the one unguarded product. -/
def sleepTicks (sec nsec : ℤ) : Except Stop ℕ :=
  let product := nsec * timerHz
  if product < -2 ^ 63 ∨ product ≥ 2 ^ 63 then .error .panic else
    let ticks := saturateI64 (saturateI64 (sec * timerHz) + product.tdiv 1000000000)
    .ok (max ticks 1).toNat

def sleepUntilTicks (deadline : ℕ) : KernelM Unit :=
  waitLoop do
    if (← get).ticks < deadline then pure none else pure (some ())

def sysNanosleep (req : ℕ) : KernelM UInt64 := do
  if req = 0 then pure (errno 14) else
  if !userRegionIsReadableRange (← get) req 16 then pure (errno 14) else
    let bytes ← inspect fun k => loadBytes k.mem req 16
    let ticks ← inspect fun _ => sleepTicks (toI64 (field bytes 0 8)) (toI64 (field bytes 8 8))
    sleepUntilTicks (saturatingAdd (← get).ticks ticks)
    pure 0

/-! ## Choosing the next process -/

/-- What is fixed when the kernel is linked and booted: the table walk of the
machine, the embedded program, and two code addresses. -/
structure Config where
  walker : Walker
  initElf : List UInt8
  afterDispatch : UInt64
  syscallUserReturn : UInt64

/-- The process that runs next and what it is resumed with. -/
structure Resumed where
  slot : ℕ
  saved : SyscallSaved
  context : UserContext
  deriving DecidableEq

/-- Drop dead slots from the front of the queue; the front stays in it. -/
def pollRunnable : KernelM (Option ℕ) := do
  let k ← get
  let queue := k.sched.runnable.dropWhile fun c => !slotIsAliveRunnable k c
  modify fun k => { k with sched := { k.sched with runnable := queue } }
  pure queue.head?

/-- `mem` is kernel memory before the frame is written. -/
def pickNextAndRestore (cfg : Config) (m : Machine Glob) : KernelM Resumed := do
  let next ← waitLoop pollRunnable
  modify (setCurrentSlot next)
  let k ← get
  match k.proc next with
  | none => throw .panic
  | some p =>
      pure ⟨next, p.save, resume m (kstackTopForSlot k next) (pendingRaxForSlot k next)
        cfg.syscallUserReturn p.save⟩

def scheduleAfterExit (cfg : Config) (m : Machine Glob) : KernelM Resumed := do
  modify fun k => dropRunnable k.currentSlot k
  modify noteYield
  pickNextAndRestore cfg m

def exitAndSchedule (cfg : Config) (m : Machine Glob) (code : Int32) : KernelM Resumed := do
  modify (markExited code)
  scheduleAfterExit cfg m

/-- `NEED_RESCHED.swap(false)` and the rotation it asks for. -/
def reschedule (k : Kernel) : Kernel :=
  if k.needResched then rotateRunnable { k with needResched := false } else k

def completeSyscallAndSchedule (cfg : Config) (m : Machine Glob) (retVal dispatchRsp : UInt64) :
    KernelM Resumed := do
  modify fun k => setSyscallSaved k.currentSlot (saveFromDispatchRsp m.mem dispatchRsp) retVal k
  modify reschedule
  pickNextAndRestore cfg m

/-! ## Traps -/

/-- `kmem` is kernel memory when the frame is first read by `sys_fork`,
`tailMem` when the tail reads it; both are given without the frame. -/
structure Trap where
  reg : Reg → UInt64
  stores : List (ℕ × UInt8)
  kmem : UInt64 → UInt64
  tailMem : UInt64 → UInt64
  forkRsp : UInt64
  childKstackTop : UInt64
  waits : List (List Irq)

/-- A store of user code; other pages fault and end the run. -/
def userStore (m : Mem) (s : ℕ × UInt8) : Mem :=
  match m.pt.entries (pageOf s.1) with
  | none => m
  | some e =>
      if e.flags.writable && e.flags.userAccessible then
        writePhys (e.frame * pageSize + s.1 % pageSize) s.2 m
      else m

/-- The state at the `syscall` instruction. -/
def trapState (t : Trap) (k : Kernel) : Kernel :=
  { k with mem := t.stores.foldl userStore k.mem, waits := t.waits }

def entryMachine (k : Kernel) (t : Trap) (mem : UInt64 → UInt64) : Machine Glob where
  reg := t.reg
  mem := mem
  glob
    | .syscallUserRspStash => 0
    | .currentKstackTop => k.currentKstackTop

@[simp] theorem entryMachine_reg (k : Kernel) (t : Trap) (mem : UInt64 → UInt64) :
    (entryMachine k t mem).reg = t.reg := rfl

@[simp] theorem entryMachine_mem (k : Kernel) (t : Trap) (mem : UInt64 → UInt64) :
    (entryMachine k t mem).mem = mem := rfl

@[simp] theorem entryMachine_top (k : Kernel) (t : Trap) (mem : UInt64 → UInt64) :
    (entryMachine k t mem).glob .currentKstackTop = k.currentKstackTop := rfl

inductive Sysno where
  | read | write | openFile | close | mmap | munmap | brk | schedYield | nanosleep | getpid
  | fork | execve | exit | wait4 | getppid
  deriving DecidableEq, Repr

def sysno (n : UInt64) : Option Sysno :=
  [((0 : UInt64), Sysno.read), (1, .write), (2, .openFile), (3, .close), (9, .mmap),
    (11, .munmap), (12, .brk), (24, .schedYield), (35, .nanosleep), (39, .getpid), (57, .fork),
    (59, .execve), (60, .exit), (61, .wait4), (110, .getppid)].lookup n

/-- `exit` does not come back to the entry stub. -/
inductive Dispatched where
  | returned (rax : UInt64)
  | switched (r : Resumed)

def sysSchedYield : KernelM UInt64 := do
  modify noteYield
  pure 0

def sysGetpid : KernelM UInt64 := do
  let k ← get
  pure (UInt64.ofNat (currentPid k))

def sysGetppid : KernelM UInt64 := do
  let k ← get
  pure (UInt64.ofNat ((currentPpid k).getD 0))

def returning (x : KernelM UInt64) : KernelM Dispatched := do
  let rax ← x
  pure (.returned rax)

def syscallDispatch (cfg : Config) (t : Trap) (m : Machine Glob) (n arg0 arg1 arg2 : UInt64) :
    KernelM Dispatched :=
  match sysno n with
  | some .read => returning (sysRead arg0 arg1.toNat arg2.toNat)
  | some .write => returning (sysWrite arg0 arg1.toNat arg2.toNat)
  | some .openFile => returning (sysOpen arg0.toNat arg1)
  | some .close => returning (sysClose arg0)
  | some .brk => returning (sysBrk cfg.walker arg0.toNat)
  | some .mmap => returning (sysMmap cfg.walker arg0.toNat arg1.toNat arg2.toNat)
  | some .munmap => returning (sysMunmap arg0.toNat arg1.toNat)
  | some .fork => returning (sysFork cfg.walker m.mem t.forkRsp t.childKstackTop)
  | some .execve =>
      returning (sysExecve cfg.walker cfg.initElf arg0.toNat arg1.toNat arg2.toNat)
  | some .schedYield => returning sysSchedYield
  | some .nanosleep => returning (sysNanosleep arg0.toNat)
  | some .wait4 => returning (sysWait4 (toI64 arg0.toNat) arg1.toNat)
  | some .getpid => returning sysGetpid
  | some .getppid => returning sysGetppid
  | some .exit => do
      let r ← exitAndSchedule cfg m arg0.toUInt32.toInt32
      pure (.switched r)
  | none => pure (.returned (errno 38))

/-- From the `syscall` instruction to `sysretq`. -/
def syscall (cfg : Config) (t : Trap) : KernelM Resumed := do
  modify (trapState t)
  let k ← get
  let m := run (entryMachine k t t.kmem) (syscallEntry ++ [.call cfg.afterDispatch])
  match ← syscallDispatch cfg t m (m.reg .rdi) (m.reg .rsi) (m.reg .rdx) (m.reg .rcx) with
  | .switched r => pure r
  | .returned rax =>
      let tail := run (entryMachine k t t.tailMem) syscallEntry
      completeSyscallAndSchedule cfg tail rax (tail.reg .rsp)

inductive Event where
  | syscall (t : Trap)
  | irq (i : Irq)

/-- `none` if the kernel panics, faults or waits forever. -/
def step (cfg : Config) : Event → Kernel → Option (Option Resumed × Kernel)
  | .irq i, k => some (none, takeIrq i k)
  | .syscall t, k =>
      match syscall cfg t k with
      | .ok r k' => some (some r, k')
      | .error _ _ => none

theorem step_irq_ok {cfg : Config} {i : Irq} {k k' : Kernel} {o : Option Resumed}
    (hstep : step cfg (.irq i) k = some (o, k')) : o = none ∧ k' = takeIrq i k := by
  simp only [step, Option.some.injEq, Prod.mk.injEq] at hstep
  exact ⟨hstep.1.symm, hstep.2.symm⟩

theorem step_syscall_ok {cfg : Config} {t : Trap} {k k' : Kernel} {o : Option Resumed}
    (hstep : step cfg (.syscall t) k = some (o, k')) :
    ∃ r, o = some r ∧ syscall cfg t k = .ok r k' := by
  simp only [step] at hstep
  cases hrun : syscall cfg t k with
  | error e s => simp [hrun] at hstep
  | ok r s =>
      simp only [hrun, Option.some.injEq, Prod.mk.injEq] at hstep
      obtain ⟨rfl, rfl⟩ := hstep
      exact ⟨r, rfl, rfl⟩

/-- The state in which user code first runs. -/
def boot (staleTop boxedTop : UInt64) (k : Kernel) : Kernel :=
  schedulerInit (processInit staleTop boxedTop k)

theorem boot_proc_succ (staleTop boxedTop : UInt64) (k : Kernel) (s : ℕ) :
    (boot staleTop boxedTop k).proc (s + 1) = none := by
  simp only [boot, schedulerInit, processInit, Kernel.proc, List.getElem?_cons_succ,
    List.getElem?_replicate]
  split_ifs <;> rfl

/-- The first process is alone in the table. -/
theorem boot_proc {staleTop boxedTop : UInt64} {k : Kernel} {s : ℕ} {p : Process}
    (h : (boot staleTop boxedTop k).proc s = some p) : s = 0 ∧ p = Process.new 1 none boxedTop
      (bootstrapUser (UInt64.ofNat k.mem.image.entryRip) (UInt64.ofNat userStackTop) 0x202) := by
  cases s with
  | zero => exact ⟨rfl, (Option.some.inj h).symm⟩
  | succ s =>
      rw [boot_proc_succ] at h
      cases h

def Reachable (cfg : Config) (k : Kernel) : Prop :=
  ∃ staleTop boxedTop k₀ tr, Runs.Run (step cfg) (boot staleTop boxedTop k₀) tr k

theorem Reachable.step {cfg : Config} {k k' : Kernel} {e : Event} {o : Option Resumed}
    (h : Reachable cfg k) (hstep : step cfg e k = some (o, k')) : Reachable cfg k' := by
  obtain ⟨staleTop, boxedTop, k₀, tr, hrun⟩ := h
  exact ⟨staleTop, boxedTop, k₀, _, hrun.snoc hstep⟩

/-! ## A small machine -/

/-- A program of one page: the two headers, and `jmp .` behind them. -/
def spinElf : List UInt8 :=
  elfMag ++ [2, 1, 1, 0] ++ zeros 8 ++ leBytes 2 2 ++ leBytes 2 0x3E ++ leBytes 4 1 ++
    leBytes 8 0x400078 ++ leBytes 8 64 ++ leBytes 8 0 ++ leBytes 4 0 ++ leBytes 2 64 ++
    leBytes 2 56 ++ leBytes 2 1 ++ leBytes 2 0 ++ leBytes 2 0 ++ leBytes 2 0 ++
    leBytes 4 1 ++ leBytes 4 5 ++ leBytes 8 0 ++ leBytes 8 0x400000 ++ leBytes 8 0x400000 ++
    leBytes 8 122 ++ leBytes 8 122 ++ leBytes 8 4096 ++ [0xEB, 0xFE]

def machine : Config := ⟨flatWalker, spinElf, 0xFFFF800000001000, 0xFFFF800000002000⟩

/-- The first process, on 127 usable frames. -/
def started : Kernel := boot 0x10000204000 0x444444448000
  (statics (final (kernelMain flatWalker spinElf (memInit [⟨1, 128, .usable⟩]))))

theorem started_reachable : Reachable machine started := ⟨_, _, _, [], .done _⟩

/-- A system call with no wait in it, in which the compiler placed the stack
pointer of `sys_fork` where `save_from_dispatch_rsp` expects it. -/
def trapWith (reg : Reg → UInt64) (stores : List (ℕ × UInt8)) : Trap where
  reg := reg
  stores := stores
  kmem := fun _ => 0
  tailMem := fun _ => 0
  forkRsp := slot started.currentKstackTop 11
  childKstackTop := 0x44444444C000
  waits := []

/-- `fork` by a process that uses `r14` and `r15`. -/
def forkTrap : Trap := trapWith
  (fun | .rax => 57 | .rsp => 0x401FF8 | .rcx => 0x400078 | .r11 => 0x202 | .r14 => 14
       | .r15 => 15 | _ => 0) []

/-- `execve("/init", NULL, NULL)`; the path was stored on the stack. -/
def execTrap : Trap := trapWith
  (fun | .rax => 59 | .rdi => 0x401FF0 | .rsp => 0x401FE8 | .rcx => 0x400078 | .r11 => 0x202
       | _ => 0)
  [(0x401FF0, 0x2F), (0x401FF1, 0x69), (0x401FF2, 0x6E), (0x401FF3, 0x69), (0x401FF4, 0x74),
    (0x401FF5, 0)]

end Rockos.Syscall
