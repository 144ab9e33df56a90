import Rockos.AddressSpace
import Rockos.ElfLoader

/-!
# fork, wait, exec (process.rs)

`sys_fork` reads its caller's frame through the stack pointer it happens to run
with. Where that pointer stands is up to the compiler, so the pointer and the
kernel memory it is used on are parameters, and so is the address at which the
child's boxed kernel stack ends.

Argument strings of `execve` are byte lists; a byte list that is not UTF-8 is
refused where the source builds a `String`.
-/
namespace Rockos.ProcessCalls
open FallibleState PhysMemory Paging ElfLoader SyscallFrame KernelState AddressSpace

/-! ## fork -/

def userStackChildTop : ℕ := 0x403000

def childStackLo : ℕ := userStackChildTop - pageSize

/-- The child stack page is mapped once and then shared by all later children. -/
def mapChildStack (w : Walker) : MemM Unit := do
  let va ← virtAddr childStackLo
  if (translateAddr (← get) (pageOf va * pageSize)).isNone then
    mapNewPage w (pageOf va) userDataFlags
  else pure ()

/-- The body of the loop below. -/
def copyUserByte (src dst i : ℕ) : MemM Unit := do
  let s ← virtAddr (src + i)
  let d ← virtAddr (dst + i)
  let m ← get
  match translateAddr m s, translateAddr m d with
  | some ps, some pd => modify (writePhys pd (m.ram ps))
  | _, _ => throw (.err "()")

def copyUserPages (src dst len : ℕ) : MemM Unit :=
  countLoop (fun i _ => copyUserByte src dst i) 0 len ()

/-- The copy changes memory only through `writePhys`. -/
theorem within_copyUserPages {R : Mem → Mem → Prop} [IsPreorder Mem R]
    (hwrite : ∀ pa b m, R m (writePhys pa b m)) (src dst len : ℕ) :
    Within R (copyUserPages src dst len) := by
  refine within_countLoop (fun i _ => ?_) _ _ _
  refine within_bind (within_virtAddr _) fun s => within_bind (within_virtAddr _) fun d => ?_
  refine within_bind within_get fun m => ?_
  split
  · exact within_modify _ (hwrite _ _)
  · exact within_throw _

def mapChildStackAndCopy (w : Walker) (saved : SyscallSaved) : MemM Unit := do
  mapChildStack w
  let srcLo := saved.userRsp.toNat
  if srcLo ≥ userStackTop then throw (.err "()") else
    copyUserPages srcLo (childStackLo + (srcLo - (userStackTop - pageSize))) (userStackTop - srcLo)

/-- The least pid from 2 on that no table entry has. -/
def allocPid (procs : List (Option Process)) : Option ℕ :=
  (List.range' 2 1022).find? fun cand => (procs.filterMap id).all fun p => p.pid ≠ cand

/-- The saved context of a child: the parent's, with the stack pointer moved. -/
def childSave (saved : SyscallSaved) : SyscallSaved :=
  { saved with
    userRsp := UInt64.ofNat (userStackChildTop - (userStackTop - saved.userRsp.toNat)) }

/-- The last part of `sys_fork`: enter the child in the table and the queue. -/
def spawn (childPid parentPid : ℕ) (parent : Process) (save : SyscallSaved)
    (childKstackTop : UInt64) : KernelM UInt64 := do
  let child : Process := ⟨childPid, some parentPid, parent.brkEnd, parent.vmAreas, none,
    childKstackTop, save, 0⟩
  match allocSlot (← get).procs with
  | none => throw .panic
  | some (slot, procs) =>
      modify fun k => { k with procs := procs.set slot (some child) }
      modify (setSyscallSaved slot save 0)
      modify (enqueueNewTask slot)
      modify noteYield
      pure (UInt64.ofNat childPid)

def sysFork (w : Walker) (mem : UInt64 → UInt64) (rsp childKstackTop : UInt64) :
    KernelM UInt64 := do
  let k ← get
  match allocPid k.procs with
  | none => pure (errno 12)
  | some childPid =>
      let saved := saveFromDispatchRsp mem rsp
      match ← onMem (attempt Stop.isErr (mapChildStackAndCopy w saved)) with
      | none => pure (errno 12)
      | some _ =>
          match k.current with
          | none => throw .panic
          | some parent => spawn childPid (currentPid k) parent (childSave saved) childKstackTop

/-! ## wait -/

/-- The loop of `wait_reap` from `slot` on. The first child that is still alive
ends the search, whatever comes after it. -/
def reapScan (me : ℕ) (target : ℤ) : (slot : ℕ) → List (Option Process) → Option (ℕ × ℕ × Int32)
  | _, [] => none
  | slot, none :: ps => reapScan me target (slot + 1) ps
  | slot, some p :: ps =>
      if p.parent ≠ some me then reapScan me target (slot + 1) ps else
        match p.exitCode with
        | none => none
        | some code =>
            if target ≥ 0 ∧ (p.pid : ℤ) ≠ target then reapScan me target (slot + 1) ps
            else some (slot, p.pid, code)

def waitReap (target : ℤ) : KernelM (Option (ℕ × Int32)) := do
  let k ← get
  match reapScan (currentPid k) target 0 k.procs with
  | none => pure none
  | some (slot, pid, code) =>
      modify fun k => { k with procs := k.procs.set slot none }
      pure (some (pid, code))

/-- Hand a reaped child to the caller; a status pointer that is not aligned panics. -/
def deliverStatus (child : ℕ) (status : Int32) (wstatus : ℕ) : KernelM UInt64 :=
  if wstatus = 0 then pure (UInt64.ofNat child) else do
    if !userRegionIsWritableRange (← get) wstatus 4 then pure (errno 14) else
    if wstatus % 4 ≠ 0 then throw .panic else
      onMem (storeBytes wstatus (leBytes 4 status.toUInt32.toNat))
      pure (UInt64.ofNat child)

def sysWait4 (pid : ℤ) (wstatus : ℕ) : KernelM UInt64 := do
  match ← waitReap pid with
  | none => pure (errno 11)
  | some (child, status) => deliverStatus child status wstatus

/-! ## exec -/

/-- `String::from_utf8` succeeds. -/
def isUtf8 (bytes : List UInt8) : Bool := (ByteArray.mk bytes.toArray).validateUTF8

/-- The loop of `read_user_cstring`; `v` is what has been read so far. -/
def cstringBytes (k : Kernel) (ptr : ℕ) : (cap : ℕ) → (v : List UInt8) →
    Except Stop (Except UInt64 (List UInt8))
  | 0, v => .ok (.ok v)
  | cap + 1, v =>
      if ptr + v.length ≥ 2 ^ 64 then .error .panic else
      if !userRegionIsReadableRange k (ptr + v.length) 1 then .ok (.error (errno 14)) else do
        let c ← loadByte k.mem (ptr + v.length)
        if c = 0 then .ok (.ok v) else cstringBytes k ptr cap (v ++ [c])

def readUserCstring (k : Kernel) (ptr cap : ℕ) : Except Stop (Except UInt64 (List UInt8)) := do
  match ← cstringBytes k ptr cap [] with
  | .error e => .ok (.error e)
  | .ok v => if isUtf8 v then .ok (.ok v) else .ok (.error (errno 22))

/-- The loop of `parse_user_ptrvec` from index `i` on; reading a pointer from a
misaligned address panics. -/
def ptrvecFrom (k : Kernel) (base maxStr : ℕ) : (i count : ℕ) → (out : List (List UInt8)) →
    Except Stop (Except UInt64 (List (List UInt8)))
  | _, 0, out => .ok (.ok out)
  | i, count + 1, out =>
      let p := base + i * 8
      if p ≥ 2 ^ 64 then .error .panic else
      if !userRegionIsReadableRange k p 8 then .ok (.error (errno 14)) else
      if p % 8 ≠ 0 then .error .panic else do
        let ptr := leNat (← loadBytes k.mem p 8)
        if ptr = 0 then .ok (.ok out) else
          match ← readUserCstring k ptr maxStr with
          | .error e => .ok (.error e)
          | .ok s => ptrvecFrom k base maxStr (i + 1) count (out ++ [s])

def parseUserPtrvec (k : Kernel) (base maxPtrs maxStr : ℕ) :
    Except Stop (Except UInt64 (List (List UInt8))) :=
  if base = 0 then .ok (.ok []) else ptrvecFrom k base maxStr 0 maxPtrs []

/-- `b"/init\0"`. -/
def initPath : List UInt8 := [0x2F, 0x69, 0x6E, 0x69, 0x74, 0]

structure ExecArgs where
  argv : List (List UInt8)
  envp : List (List UInt8)
  deriving DecidableEq, Repr

/-- Everything `sys_execve` does before it calls the loader. -/
def execArgs (pathU argvU envpU : ℕ) (k : Kernel) : Except Stop (Except UInt64 ExecArgs) :=
  if !userRegionIsReadableRange k pathU initPath.length then .ok (.error (errno 14)) else do
    let path ← loadBytes k.mem pathU initPath.length
    if path ≠ initPath then .ok (.error (errno 2)) else
      match ← parseUserPtrvec k argvU 32 256 with
      | .error e => .ok (.error e)
      | .ok argv =>
          match ← parseUserPtrvec k envpU 16 256 with
          | .error e => .ok (.error e)
          | .ok envp => .ok (.ok ⟨argv, envp⟩)

/-- `bin` is the program embedded in the kernel image. -/
def sysExecve (w : Walker) (bin : List UInt8) (pathU argvU envpU : ℕ) : KernelM UInt64 := do
  match ← inspect (execArgs pathU argvU envpU) with
  | .error e => pure e
  | .ok args =>
      match ← onMem (attempt Stop.isErr (loadElfExec w bin 0 args.argv args.envp)) with
      | none => pure (errno 8)
      | some (entry, rsp) =>
          modify fun k => setSyscallSaved k.currentSlot
            (bootstrapUser (UInt64.ofNat entry) (UInt64.ofNat rsp) 0x202) 0 k
          modify fun k => setMem (setUserEntry entry k.mem) k
          pure 0

end Rockos.ProcessCalls
