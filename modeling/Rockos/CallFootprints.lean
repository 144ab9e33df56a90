import Rockos.ExecStack
import Rockos.Turns

/-!
# The footprint of a system call

Every system call is made of a few kinds of edits. `footprint` lists the kinds
for each call; a relation that permits them bounds the call, whichever exit it
takes. What is not in the footprint of a call is left as it was, so a result
about one part of the state only has to look at the calls that edit it.
-/
namespace Rockos.CallFootprints
open FallibleState PhysMemory Paging StackMachine SyscallFrame KernelState AddressSpace
open ProcessCalls Syscall SyscallEffects RunQueue Turns

inductive Edit where
  | bytes | memory | own | heap | placement | files | descriptor | terminal | resched | irqs
  | table | queue
  deriving DecidableEq, Repr

/-- Nothing but bytes differs. -/
structure SameMaps (m m' : Mem) : Prop where
  fa : m'.fa = m.fa
  pt : m'.pt = m.pt
  image : m'.image = m.image

instance : IsPreorder Mem SameMaps where
  refl _ := ⟨rfl, rfl, rfl⟩
  trans _ _ _ h h' := ⟨h'.fa.trans h.fa, h'.pt.trans h.pt, h'.image.trans h.image⟩

theorem storeBytes_sameMaps (va : ℕ) (bytes : List UInt8) :
    Within SameMaps (storeBytes va bytes) := by
  induction bytes generalizing va with
  | nil => exact within_pure _
  | cons b bytes ih =>
      refine within_bind (within_bind within_get fun m => ?_) fun _ => ih (va + 1)
      split
      · exact within_throw _
      · exact within_ite (within_modify _ fun _ => ⟨rfl, rfl, rfl⟩) (within_throw _)

/-- `R` holds across every edit of the kind. -/
def Permits (R : Kernel → Kernel → Prop) : Edit → Prop
  | .bytes => ∀ k m, SameMaps k.mem m → R k (setMem m k)
  | .memory => ∀ k m, R k (setMem m k)
  | .own => ∀ k f, (∀ p, identity (f p) = identity p ∧ (f p).brkEnd = p.brkEnd) →
      R k (k.updateCurrent f)
  | .heap => ∀ k addr, userBrkBase ≤ addr → addr ≤ userBrkLimit → R k (setBrkEnd addr k)
  | .placement => ∀ k next id, R k { k with nextMmap := next, vmAreaNextId := id }
  | .files => ∀ k fs, fs.nextFd = k.fs.nextFd → R k { k with fs := fs }
  | .descriptor => ∀ k files, R k { k with fs := { k.fs with
      nextFd := k.fs.nextFd + 1
      files := files } }
  | .terminal => ∀ k tty, R k { k with tty := tty }
  | .resched => ∀ k, R k (noteYield k)
  | .irqs => AllowsIrqs R
  | .table => ∀ k procs, R k { k with procs := procs }
  | .queue => ∀ k slot, R k (enqueueNewTask slot k)

/-- The edits of each call that returns; `exit` does not. -/
def footprint : Sysno → List Edit
  | .read => [.bytes, .terminal, .irqs]
  | .write | .close => [.files]
  | .openFile => [.files, .descriptor]
  | .mmap => [.memory, .own, .placement]
  | .munmap | .execve => [.memory, .own]
  | .brk => [.memory, .heap]
  | .schedYield => [.resched]
  | .nanosleep => [.irqs]
  | .getpid | .getppid | .exit => []
  | .fork => [.memory, .table, .queue, .resched]
  | .wait4 => [.bytes, .table]

section Calls
variable {R : Kernel → Kernel → Prop}

theorem onMem_permitted {α : Type} (hmem : Permits R .memory) (x : MemM α) : Within R (onMem x) :=
  within_zoom_of_put x hmem

/-- Up to `len` bytes may be stored where the caller asked for them. -/
def MayDeliver (R : Kernel → Kernel → Prop) (buf len : ℕ) : Prop :=
  ∀ bytes : List UInt8, bytes.length ≤ len → Within R (onMem (storeBytes buf bytes))

theorem mayDeliver_of_bytes (hbytes : Permits R .bytes) (buf len : ℕ) : MayDeliver R buf len :=
  fun bytes _ => within_zoom (storeBytes_sameMaps buf bytes) hbytes

theorem read_length {s s' : Tty.TtyState} {n : ℕ} {nonblock : Bool} {bytes : List UInt8}
    (h : s.read n nonblock = (.ok bytes, s')) : bytes.length ≤ n := by
  unfold Tty.TtyState.read at h
  cases hlines : s.readyLines with
  | nil =>
      simp only [hlines] at h
      split_ifs at h
      · cases h
      · cases h
        exact Nat.zero_le n
  | cons line rest =>
      simp only [hlines, Prod.mk.injEq, Except.ok.injEq] at h
      rw [← h.1, List.length_take]
      omega

variable [IsPreorder Kernel R]

section
variable {buf len : ℕ} (hdeliver : MayDeliver R buf len)
include hdeliver

theorem readFile_footprint (fd : UInt64) : Within R (readFile fd buf len) := by
  refine within_bind within_get fun k => ?_
  split
  · exact within_pure _
  · exact within_pure _
  · exact within_bind (hdeliver _ (List.length_take_le _ _)) fun _ => within_pure _

theorem ttyRead_footprint (htty : Permits R .terminal) (nonblock : Bool) :
    Within R (ttyRead buf len nonblock) := by
  refine within_bind within_get fun k => ?_
  refine within_bind (within_modify _ fun k' => htty k' _) fun _ => ?_
  cases hread : k.tty.read len nonblock with
  | mk r tty =>
      cases r with
      | error e => exact within_pure _
      | ok bytes =>
          exact within_bind (hdeliver bytes (read_length hread)) fun _ => within_pure _

theorem readStdin_footprint (htty : Permits R .terminal) (hirqs : Permits R .irqs) :
    Within R (readStdin buf len) := by
  have hpoll : Within R (pollStdin buf len) := by
    refine within_bind (ttyRead_footprint hdeliver htty _) fun r => ?_
    split <;> exact within_pure _
  refine within_bind within_get fun k => within_ite (waitLoop_within hirqs hpoll) ?_
  refine within_bind (ttyRead_footprint hdeliver htty _) fun r => ?_
  split <;> exact within_pure _

theorem sysRead_footprint (htty : Permits R .terminal) (hirqs : Permits R .irqs) (fd : UInt64) :
    Within R (sysRead fd buf len) := by
  refine within_ite (within_pure _) (within_bind within_get fun _ => within_ite (within_pure _) ?_)
  refine within_ite (readStdin_footprint hdeliver htty hirqs) (within_ite (within_pure _) ?_)
  exact readFile_footprint hdeliver fd

end

theorem sysOpen_footprint (hfiles : Permits R .files) (hnext : Permits R .descriptor)
    (pathPtr : ℕ) (flags : UInt64) : Within R (sysOpen pathPtr flags) := by
  have hnew : Within R openNew := fun k => hnext k _
  refine within_bind within_get fun k => within_ite (within_pure _) ?_
  refine within_bind (within_inspect _) fun bytes => within_ite (within_pure _) (within_ite ?_ ?_)
  · exact within_bind (within_modify _ fun k => hfiles k _ rfl) fun _ => within_pure _
  · refine within_ite hnew (within_ite (within_pure _) ?_)
    exact within_bind within_get fun _ => within_ite (within_pure _) hnew

theorem sysClose_footprint (hfiles : Permits R .files) (fd : UInt64) : Within R (sysClose fd) := by
  refine within_ite (within_pure _) (within_bind within_get fun _ => within_ite (within_pure _) ?_)
  exact within_bind (within_modify _ fun k => hfiles k _ rfl) fun _ => within_pure _

theorem sysWrite_footprint (hfiles : Permits R .files) (fd : UInt64) (buf len : ℕ) :
    Within R (sysWrite fd buf len) := by
  have hany : Within R (writeFdAny fd buf len) := by
    refine within_ite (within_bind (within_inspect _) fun _ => within_pure _)
      (within_ite (within_bind within_get fun k => ?_) (within_pure _))
    split
    · exact within_pure _
    · exact within_bind (within_inspect _) fun _ =>
        within_bind (within_modify _ fun k => hfiles k _ rfl) fun _ => within_pure _
  exact within_ite (within_pure _) (within_bind within_get fun _ => within_ite (within_pure _) hany)

theorem sysNanosleep_footprint (hirqs : Permits R .irqs) (req : ℕ) :
    Within R (sysNanosleep req) := by
  refine within_ite (within_pure _) (within_bind within_get fun _ => within_ite (within_pure _) ?_)
  refine within_bind (within_inspect _) fun _ => within_bind (within_inspect _) fun _ => ?_
  refine within_bind within_get fun _ =>
    within_bind (waitLoop_within hirqs ?_) fun _ => within_pure _
  exact within_bind within_get fun _ => within_ite (within_pure _) (within_pure _)

theorem editThen_footprint (hmem : Permits R .memory) (edit : MemM Unit) (v : UInt64)
    {books : Kernel → Kernel} (hbooks : ∀ k, R k (books k)) :
    Within R (editThen edit books v) := by
  refine within_bind (onMem_permitted hmem _) fun r => ?_
  cases r with
  | none => exact within_pure _
  | some _ => exact within_bind (within_modify _ hbooks) fun _ => within_pure _

theorem sysBrk_footprint (hmem : Permits R .memory) (hheap : Permits R .heap) (w : Walker)
    (addr : ℕ) : Within R (sysBrk w addr) := by
  refine within_bind within_get fun k => ?_
  cases k.current with
  | none => exact within_pure _
  | some p =>
      refine within_ite (within_pure _) ?_
      by_cases hrange : addr < userBrkBase ∨ addr > userBrkLimit
      · rw [if_pos hrange]
        exact within_pure _
      · have hbooks : ∀ k, R k (setBrkEnd addr k) := fun k => hheap k addr (by omega) (by omega)
        rw [if_neg hrange]
        exact within_ite (editThen_footprint hmem _ _ hbooks)
          (within_ite (within_pure _) (editThen_footprint hmem _ _ hbooks))

theorem sysMmap_footprint (hmem : Permits R .memory) (hown : Permits R .own)
    (hplace : Permits R .placement) (w : Walker) (addr len prot : ℕ) :
    Within R (sysMmap w addr len prot) := by
  have hat : ∀ a, Within R (mmapAt w a (pageCount len) prot) := fun a =>
    editThen_footprint hmem _ _ fun k => IsTrans.trans _ _ _ (hplace k k.nextMmap _)
      (hown _ _ fun _ => ⟨rfl, rfl⟩)
  refine within_ite (within_pure _) (within_ite (within_bind within_get fun k => ?_) ?_)
  · refine within_bind (within_modify _ fun k' => hplace k' _ k'.vmAreaNextId) fun _ => ?_
    exact within_ite (within_pure _) (hat _)
  · exact within_ite (within_pure _) (within_ite (within_pure _) (hat _))

theorem sysMunmap_footprint (hmem : Permits R .memory) (hown : Permits R .own) (addr len : ℕ) :
    Within R (sysMunmap addr len) := by
  refine within_ite (within_pure _) (within_bind within_get fun k => ?_)
  refine within_bind (within_modify _ fun k' => hown k' _ fun _ => ⟨rfl, rfl⟩) fun _ => ?_
  refine within_ite (within_pure _) (within_bind (onMem_permitted hmem _) fun r => ?_)
  cases r with
  | none => exact within_pure _
  | some _ => exact within_pure _

theorem sysExecve_footprint (hmem : Permits R .memory) (hown : Permits R .own) (w : Walker)
    (bin : List UInt8) (pathU argvU envpU : ℕ) :
    Within R (sysExecve w bin pathU argvU envpU) := by
  refine within_bind (within_inspect _) fun r => ?_
  split
  · exact within_pure _
  · refine within_bind (onMem_permitted hmem _) fun r => ?_
    split
    · exact within_pure _
    · refine within_bind (within_modify _ fun k => hown k _ fun _ => ⟨rfl, rfl⟩) fun _ => ?_
      exact within_bind (within_modify _ fun k => hmem k _) fun _ => within_pure _

theorem sysFork_footprint (hmem : Permits R .memory) (htable : Permits R .table)
    (hqueue : Permits R .queue) (hresched : Permits R .resched) (w : Walker)
    (mem : UInt64 → UInt64) (rsp top : UInt64) : Within R (sysFork w mem rsp top) := by
  refine within_bind within_get fun k => ?_
  cases allocPid k.procs with
  | none => exact within_pure _
  | some pid =>
      refine within_bind (onMem_permitted hmem _) fun r => ?_
      cases r with
      | none => exact within_pure _
      | some _ =>
          cases k.current with
          | none => exact within_throw _
          | some parent =>
              refine within_bind within_get fun k => ?_
              cases allocSlot k.procs with
              | none => exact within_throw _
              | some x =>
                  refine within_bind (within_modify _ fun k => htable k _) fun _ => ?_
                  refine within_bind (within_modify _ fun k => htable k _) fun _ => ?_
                  refine within_bind (within_modify _ fun k => hqueue k _) fun _ => ?_
                  exact within_bind (within_modify _ hresched) fun _ => within_pure _

theorem sysWait4_footprint {wstatus : ℕ} (hdeliver : MayDeliver R wstatus 4)
    (htable : Permits R .table) (pid : ℤ) : Within R (sysWait4 pid wstatus) := by
  refine within_bind (within_bind within_get fun k => ?_) fun r => ?_
  · split
    · exact within_pure _
    · exact within_bind (within_modify _ fun k => htable k _) fun _ => within_pure _
  · split
    · exact within_pure _
    · refine within_ite (within_pure _) (within_bind within_get fun _ => ?_)
      refine within_ite (within_pure _) (within_ite (within_throw _) ?_)
      exact within_bind (hdeliver _ (ExecStack.length_leBytes _ _).le) fun _ => within_pure _

/-- A call does nothing but the edits of its footprint. -/
theorem syscallDispatch_footprint (cfg : Config) (t : Trap) (m : Machine Glob)
    (n arg0 arg1 arg2 : UInt64) (hexit : sysno n ≠ some .exit)
    (hR : ∀ c, sysno n = some c → ∀ e ∈ footprint c, Permits R e) :
    Within R (syscallDispatch cfg t m n arg0 arg1 arg2) := by
  have hret : ∀ {x : KernelM UInt64}, Within R x → Within R (returning x) :=
    fun hx => within_bind hx fun _ => within_pure _
  unfold syscallDispatch
  cases hn : sysno n with
  | none => exact within_pure _
  | some c =>
      have hc := hR c hn
      cases c with
      | read =>
          exact hret (sysRead_footprint (mayDeliver_of_bytes (hc .bytes (by decide)) _ _)
            (hc .terminal (by decide)) (hc .irqs (by decide)) _)
      | write => exact hret (sysWrite_footprint (hc .files (by decide)) _ _ _)
      | openFile =>
          exact hret (sysOpen_footprint (hc .files (by decide)) (hc .descriptor (by decide)) _ _)
      | close => exact hret (sysClose_footprint (hc .files (by decide)) _)
      | mmap =>
          exact hret (sysMmap_footprint (hc .memory (by decide)) (hc .own (by decide))
            (hc .placement (by decide)) _ _ _ _)
      | munmap =>
          exact hret (sysMunmap_footprint (hc .memory (by decide)) (hc .own (by decide)) _ _)
      | brk => exact hret (sysBrk_footprint (hc .memory (by decide)) (hc .heap (by decide)) _ _)
      | execve =>
          exact hret (sysExecve_footprint (hc .memory (by decide)) (hc .own (by decide)) _ _ _ _ _)
      | schedYield =>
          exact hret (within_bind (within_modify _ (hc .resched (by decide))) fun _ =>
            within_pure _)
      | nanosleep => exact hret (sysNanosleep_footprint (hc .irqs (by decide)) _)
      | getpid => exact hret (within_bind within_get fun _ => within_pure _)
      | getppid => exact hret (within_bind within_get fun _ => within_pure _)
      | fork =>
          exact hret (sysFork_footprint (hc .memory (by decide)) (hc .table (by decide))
            (hc .queue (by decide)) (hc .resched (by decide)) _ _ _ _)
      | wait4 =>
          exact hret (sysWait4_footprint (mayDeliver_of_bytes (hc .bytes (by decide)) _ _)
            (hc .table (by decide)) _)
      | exit => exact absurd hn hexit

theorem returning_run {x : KernelM UInt64} {k k₁ : Kernel} {v : UInt64}
    (h : returning x k = .ok (.returned v) k₁) : x k = .ok v k₁ := by
  obtain ⟨_, hv, hrun⟩ := returning_ok h
  cases hv
  exact hrun

/-- The same for the call of the dispatcher in a trap. -/
theorem dispatch_footprint {cfg : Config} {t : Trap} {k k₁ : Kernel} {v : UInt64}
    (h : dispatch cfg t k = .ok (.returned v) k₁)
    (hR : ∀ c, sysno (t.reg .rax) = some c → ∀ e ∈ footprint c, Permits R e) :
    R (trapState t k) k₁ := by
  have hexit := (dispatch_outcome h).1
  rw [dispatch_eq] at h
  exact (syscallDispatch_footprint cfg t _ _ _ _ _ hexit hR).ok h

end Calls

/-! ## Whole calls -/

/-- The tail of a call that returned `v`. -/
def tailState (slot : ℕ) (t : Trap) (k : Kernel) (v : UInt64) (k₁ : Kernel) : Kernel :=
  setCurrentSlot slot (reschedule (setSyscallSaved k.currentSlot (tailSave t k) v k₁))

/-- The tail saves the frame and the result, and picks the next process. -/
theorem tailState_eq (slot : ℕ) (t : Trap) (k : Kernel) (v : UInt64) (k₁ : Kernel) :
    ∃ top sched due, tailState slot t k v k₁ =
      { setSyscallSaved k.currentSlot (tailSave t k) v k₁ with
        currentSlot := slot, currentKstackTop := top, sched := sched, needResched := due } := by
  unfold tailState reschedule
  split_ifs
  · unfold rotateRunnable
    split <;> exact ⟨_, _, _, rfl⟩
  · exact ⟨_, _, _, rfl⟩

/-- The state from which an `exit` picks the next process. -/
def exitLeft (t : Trap) (k : Kernel) : Kernel :=
  noteYield (dropRunnable k.currentSlot (markExited (exitStatus t) (trapState t k)))

/-- The state in which the next process runs, whole. -/
inductive After (cfg : Config) (t : Trap) (k : Kernel) (r : Resumed) (k' : Kernel) : Prop
  | returned (v : UInt64) (k₁ : Kernel) (call : dispatch cfg t k = .ok (.returned v) k₁)
      (final : k' = tailState r.slot t k v k₁)
  | exited (call : sysno (t.reg .rax) = some .exit)
      (final : k' = setCurrentSlot r.slot (exitLeft t k))

theorem syscall_after {cfg : Config} {t : Trap} {k k' : Kernel} {r : Resumed} (h : Ready k)
    (hrun : syscall cfg t k = .ok r k') : After cfg t k r k' := by
  obtain ⟨k₁, d, hdisp, hrest⟩ := syscall_ok hrun
  have hready := h.of_quiet (quiet_trapState t k)
  cases d with
  | returned v =>
      have hcall : dispatch cfg t k = .ok (.returned v) k₁ := by
        rw [dispatch_eq]
        exact hdisp
      have hout := (dispatch_outcome hcall).2
      obtain ⟨v', hv, htail⟩ := hrest.resolve_left fun hd => by cases hd.1
      cases hv
      simp only [completeSyscallAndSchedule, bind_run, modify_run] at htail
      have hsound := ((hready.of_effect hout.effect).queue.of_quiet
        (quiet_setSyscallSaved k₁ (tailSave t k) v)).reschedule
      obtain ⟨p, -, -, -, -, -, hk'⟩ := pickNextAndRestore_ok hsound htail
      refine .returned v k₁ hcall ?_
      rw [hk', tailState, ← hout.slot]
  | switched r' =>
      obtain ⟨hd, rfl⟩ := hrest.resolve_right (by rintro ⟨v, hv, -⟩; cases hv)
      cases hd
      rcases syscallDispatch_cases hdisp with ⟨v, hv, -⟩ | ⟨r'', hr, hexit, hsched⟩
      · cases hv
      · cases hr
        simp only [exitAndSchedule, scheduleAfterExit, bind_run, modify_run] at hsched
        obtain ⟨p, -, -, -, -, -, hk'⟩ := pickNextAndRestore_ok (hready.exit _) hsched
        exact .exited hexit hk'

/-- The caller gets the result when it runs again. -/
theorem pendingRax_tailState {cfg : Config} {t : Trap} {k k₁ : Kernel} {v : UInt64} {slot : ℕ}
    (h : Ready k) (hcall : dispatch cfg t k = .ok (.returned v) k₁) :
    pendingRaxForSlot (tailState slot t k v k₁) k.currentSlot = v := by
  have hout := (dispatch_outcome hcall).2
  obtain ⟨p, hp, -⟩ := ((h.of_quiet (quiet_trapState t k)).of_effect hout.effect).alive
  rw [hout.slot] at hp
  obtain ⟨top, sched, due, htail⟩ := tailState_eq slot t k v k₁
  have hproc : (tailState slot t k v k₁).proc k.currentSlot =
      (setSyscallSaved k.currentSlot (tailSave t k) v k₁).proc k.currentSlot := by
    rw [htail]
    rfl
  rw [pendingRaxForSlot, hproc, setSyscallSaved, proc_updateProc, if_pos rfl, hp]
  rfl

/-- The entry stub reads nothing that a trap changes. -/
theorem entryMachine_trapState (t : Trap) (k : Kernel) (mem : UInt64 → UInt64) :
    entryMachine (trapState t k) t mem = entryMachine k t mem := rfl

section
variable {cfg : Config} {t : Trap} {k k₁ : Kernel}

theorem syscall_of_returned {v : UInt64} (hcall : dispatch cfg t k = .ok (.returned v) k₁) :
    syscall cfg t k = completeSyscallAndSchedule cfg
      (run (entryMachine k t t.tailMem) syscallEntry) v
      ((run (entryMachine k t t.tailMem) syscallEntry).reg .rsp) k₁ := by
  simp only [dispatch, dispatchMachine] at hcall
  simp only [Syscall.syscall, bind_run, modify_run, get_run, entryMachine_trapState, hcall]

theorem syscall_of_switched {r : Resumed} (hcall : dispatch cfg t k = .ok (.switched r) k₁) :
    syscall cfg t k = .ok r k₁ := by
  simp only [dispatch, dispatchMachine] at hcall
  simp only [Syscall.syscall, bind_run, modify_run, get_run, entryMachine_trapState, hcall,
    pure_run]

theorem syscall_of_error {e : Stop} (hcall : dispatch cfg t k = .error e k₁) :
    syscall cfg t k = .error e k₁ := by
  simp only [dispatch, dispatchMachine] at hcall
  simp only [Syscall.syscall, bind_run, modify_run, get_run, entryMachine_trapState, hcall]

end

end Rockos.CallFootprints
