import Rockos.FrameSafety
import Rockos.Reaping
import Rockos.Syscall

/-!
# What a system call can do to the process table

All system calls but `fork`, `wait4` and `exit` leave the table and the run
queue alone, except that they may edit the books and the saved context of the
calling process. `Quiet` says so, and `Local` says in addition that no wait has
taken place. Each of these calls is taken apart once, for any preorder that
permits the edits it makes (`Allows`). `fork` fills a free slot, and `wait4`
empties the slot of a zombie.
-/
namespace Rockos.SyscallEffects
open FallibleState PhysMemory Paging StackMachine SyscallFrame KernelState AddressSpace
open ProcessCalls Reaping Syscall FrameSafety

/-- What a process never changes about itself before it exits. -/
structure Identity where
  pid : ℕ
  parent : Option ℕ
  exitCode : Option Int32
  kstackTop : UInt64
  deriving DecidableEq

def identity (p : Process) : Identity := ⟨p.pid, p.parent, p.exitCode, p.kstackTop⟩

structure Quiet (k k' : Kernel) : Prop where
  slot : k'.currentSlot = k.currentSlot
  top : k'.currentKstackTop = k.currentKstackTop
  runnable : k'.sched.runnable = k.sched.runnable
  other : ∀ s, s ≠ k.currentSlot → k'.proc s = k.proc s
  own : k'.current.map identity = k.current.map identity

theorem Quiet.trans {a b c : Kernel} (h : Quiet a b) (h' : Quiet b c) : Quiet a c :=
  ⟨h'.slot.trans h.slot, h'.top.trans h.top, h'.runnable.trans h.runnable,
    fun s hs => (h'.other s (by rwa [h.slot])).trans (h.other s hs), h'.own.trans h.own⟩

instance : IsPreorder Kernel Quiet where
  refl _ := ⟨rfl, rfl, rfl, fun _ _ => rfl, rfl⟩
  trans _ _ _ := Quiet.trans

/-- Fields other than the table, the queue and the current slot are free. -/
theorem quiet_of_eq {k k' : Kernel} (hprocs : k'.procs = k.procs)
    (hslot : k'.currentSlot = k.currentSlot) (htop : k'.currentKstackTop = k.currentKstackTop)
    (hrun : k'.sched.runnable = k.sched.runnable) : Quiet k k' := by
  refine ⟨hslot, htop, hrun, fun s _ => ?_, ?_⟩
  · simp only [Kernel.proc, hprocs]
  · simp only [Kernel.current, Kernel.proc, hprocs, hslot]

theorem quiet_updateCurrent (k : Kernel) {f : Process → Process}
    (hf : ∀ p, identity (f p) = identity p) : Quiet k (k.updateCurrent f) := by
  refine ⟨rfl, rfl, rfl, fun s hs => ?_, ?_⟩
  · exact (proc_updateProc k _ f s).trans (if_neg hs)
  · rw [current_updateCurrent, Option.map_map]
    exact congrArg (fun g => k.current.map g) (funext hf)

theorem takeIrqs_procs (irqs : List Irq) (k : Kernel) : (takeIrqs irqs k).procs = k.procs := by
  obtain ⟨_, _, _, hsame⟩ := takeIrqs_eq irqs k
  rw [hsame]

theorem step_irq_proc {cfg : Config} {i : Irq} {k k' : Kernel} {o : Option Resumed}
    (hstep : step cfg (.irq i) k = some (o, k')) : k'.proc = k.proc := by
  obtain ⟨-, rfl⟩ := step_irq_ok hstep
  funext s
  simp only [Kernel.proc, show (takeIrq i k).procs = k.procs from takeIrqs_procs [i] k]

theorem quiet_takeIrqs (irqs : List Irq) (k : Kernel) : Quiet k (takeIrqs irqs k) := by
  obtain ⟨_, _, _, hsame⟩ := takeIrqs_eq irqs k
  rw [hsame]
  exact quiet_of_eq rfl rfl rfl rfl

theorem quiet_takeIrq (i : Irq) (k : Kernel) : Quiet k (takeIrq i k) := quiet_takeIrqs [i] k

theorem quiet_trapState (t : Trap) (k : Kernel) : Quiet k (trapState t k) :=
  quiet_of_eq rfl rfl rfl rfl

structure Local (k k' : Kernel) : Prop where
  quiet : Quiet k k'
  waits : k'.waits = k.waits

instance : IsPreorder Kernel Local where
  refl k := ⟨refl k, rfl⟩
  trans _ _ _ h h' := ⟨h.quiet.trans h'.quiet, h'.waits.trans h.waits⟩

/-! ## Calls that only concern their caller

Such a call edits memory, state that no other process relies on, and the entry
of its caller. Whatever relation permits these three edits bounds the call. -/

structure Allows (R : Kernel → Kernel → Prop) : Prop where
  mem : ∀ k m, Keeps FrameSafe k.mem m → R k (setMem m k)
  free : ∀ k k', (k'.mem, k'.procs, k'.currentSlot, k'.currentKstackTop, k'.sched.runnable,
      k'.waits) = (k.mem, k.procs, k.currentSlot, k.currentKstackTop, k.sched.runnable, k.waits) →
    R k k'
  own : ∀ k f, (∀ p, identity (f p) = identity p) → R k (k.updateCurrent f)

theorem Allows.books {R : Kernel → Kernel → Prop} (hR : Allows R) : AllowsBooks R where
  mem := hR.mem
  counters k _ _ := hR.free k _ rfl
  books k _ _ := hR.own k _ fun _ => rfl

/-- The handlers of a batch of interrupts are permitted. -/
def AllowsIrqs (R : Kernel → Kernel → Prop) : Prop :=
  ∀ k irqs rest, R k (takeIrqs irqs { k with waits := rest })

structure AllowsWaits (R : Kernel → Kernel → Prop) : Prop extends Allows R where
  wait : AllowsIrqs R

theorem allows_local : Allows Local where
  mem _ _ _ := ⟨quiet_of_eq rfl rfl rfl rfl, rfl⟩
  free k k' h := by
    simp only [Prod.mk.injEq] at h
    obtain ⟨-, hprocs, hslot, htop, hrun, hwaits⟩ := h
    exact ⟨quiet_of_eq hprocs hslot htop hrun, hwaits⟩
  own k _ hf := ⟨quiet_updateCurrent k hf, rfl⟩

theorem allows_quiet : AllowsWaits Quiet where
  mem k m h := (allows_local.mem k m h).quiet
  free k k' h := (allows_local.free k k' h).quiet
  own k f hf := (allows_local.own k f hf).quiet
  wait k irqs rest := by
    have hwaits : Quiet k { k with waits := rest } := quiet_of_eq rfl rfl rfl rfl
    exact hwaits.trans (quiet_takeIrqs irqs _)

section Calls
variable {R : Kernel → Kernel → Prop}

theorem onMem_within {α : Type} (hR : Allows R) {x : MemM α} (hx : Within (Keeps FrameSafe) x) :
    Within R (onMem x) :=
  within_zoom hx fun k m hm => hR.mem k m hm

theorem modify_within (hR : Allows R) {f : Kernel → Kernel}
    (h : ∀ k, ((f k).mem, (f k).procs, (f k).currentSlot, (f k).currentKstackTop,
        (f k).sched.runnable, (f k).waits) =
      (k.mem, k.procs, k.currentSlot, k.currentKstackTop, k.sched.runnable, k.waits)) :
    Within R (modify f : KernelM Unit) :=
  within_modify f fun k => hR.free k (f k) (h k)

variable [IsPreorder Kernel R]

theorem enableAndHlt_within (hwait : AllowsIrqs R) : Within R enableAndHlt := by
  refine within_bind within_get fun k => ?_
  cases k.waits with
  | nil => exact within_throw _
  | cons irqs rest => exact within_modify _ fun k' => hwait k' irqs rest

theorem waitTurns_within {α : Type} (hwait : AllowsIrqs R) {poll : KernelM (Option α)}
    (h : Within R poll) (n : ℕ) : Within R (waitTurns poll n) := by
  induction n with
  | zero => exact within_throw _
  | succ n ih =>
      refine within_bind h fun r => ?_
      cases r with
      | none => exact within_bind (enableAndHlt_within hwait) fun _ => ih
      | some a => exact within_pure _

/-- A loop that ends has ended on a poll that gave the answer. -/
theorem waitTurns_ok {α : Type} {poll : KernelM (Option α)} {n : ℕ} {k k' : Kernel} {a : α}
    (h : waitTurns poll n k = .ok a k') : ∃ k₁, poll k₁ = .ok (some a) k' := by
  induction n generalizing k with
  | zero => cases h
  | succ n ih =>
      rw [waitTurns] at h
      obtain ⟨r, k₁, hpoll, h⟩ := bind_ok h
      cases r with
      | none =>
          obtain ⟨_, k₂, -, h⟩ := bind_ok h
          exact ih h
      | some b =>
          cases h
          exact ⟨k, hpoll⟩

theorem waitLoop_within {α : Type} (hwait : AllowsIrqs R) {poll : KernelM (Option α)}
    (h : Within R poll) : Within R (waitLoop poll) :=
  within_bind within_get fun _ => waitTurns_within hwait h _

theorem ttyRead_within (hR : Allows R) (buf len : ℕ) (nonblock : Bool) :
    Within R (ttyRead buf len nonblock) := by
  refine within_bind within_get fun k => within_bind (modify_within hR fun _ => rfl) fun _ => ?_
  split
  · exact within_pure _
  · exact within_bind (onMem_within hR (storeBytes_safe _ _)) fun _ => within_pure _

theorem pollStdin_within (hR : Allows R) (buf len : ℕ) : Within R (pollStdin buf len) := by
  refine within_bind (ttyRead_within hR _ _ _) fun r => ?_
  split <;> exact within_pure _

theorem readStdin_within (hR : AllowsWaits R) (buf len : ℕ) : Within R (readStdin buf len) := by
  refine within_bind within_get fun k =>
    within_ite (waitLoop_within hR.wait (pollStdin_within hR.toAllows _ _)) ?_
  refine within_bind (ttyRead_within hR.toAllows _ _ _) fun r => ?_
  split <;> exact within_pure _

theorem readFile_within (hR : Allows R) (fd : UInt64) (buf len : ℕ) :
    Within R (readFile fd buf len) := by
  refine within_bind within_get fun k => ?_
  split
  · exact within_pure _
  · exact within_pure _
  · exact within_bind (onMem_within hR (storeBytes_safe _ _)) fun _ => within_pure _

theorem sysRead_within (hR : AllowsWaits R) (fd : UInt64) (buf len : ℕ) :
    Within R (sysRead fd buf len) := by
  refine within_ite (within_pure _) (within_bind within_get fun _ => within_ite (within_pure _) ?_)
  exact within_ite (readStdin_within hR _ _)
    (within_ite (within_pure _) (readFile_within hR.toAllows _ _ _))

theorem openNew_within (hR : Allows R) : Within R openNew :=
  within_bind within_get fun _ => within_bind (modify_within hR fun _ => rfl) fun _ =>
    within_pure _

theorem sysOpen_within (hR : Allows R) (pathPtr : ℕ) (flags : UInt64) :
    Within R (sysOpen pathPtr flags) := by
  refine within_bind within_get fun k => within_ite (within_pure _) ?_
  refine within_bind (within_inspect _) fun bytes => within_ite (within_pure _) (within_ite ?_ ?_)
  · exact within_bind (modify_within hR fun _ => rfl) fun _ => within_pure _
  · refine within_ite (openNew_within hR) (within_ite (within_pure _) ?_)
    refine within_bind within_get fun _ => ?_
    exact within_ite (within_pure _) (openNew_within hR)

theorem sysClose_within (hR : Allows R) (fd : UInt64) : Within R (sysClose fd) := by
  refine within_ite (within_pure _) (within_bind within_get fun _ => within_ite (within_pure _) ?_)
  exact within_bind (modify_within hR fun _ => rfl) fun _ => within_pure _

theorem writeFdAny_within (hR : Allows R) (fd : UInt64) (buf len : ℕ) :
    Within R (writeFdAny fd buf len) := by
  refine within_ite (within_bind (within_inspect _) fun _ => within_pure _)
    (within_ite (within_bind within_get fun k => ?_) (within_pure _))
  split
  · exact within_pure _
  · exact within_bind (within_inspect _) fun _ =>
      within_bind (modify_within hR fun _ => rfl) fun _ => within_pure _

theorem sysWrite_within (hR : Allows R) (fd : UInt64) (buf len : ℕ) :
    Within R (sysWrite fd buf len) :=
  within_ite (within_pure _) (within_bind within_get fun _ =>
    within_ite (within_pure _) (writeFdAny_within hR _ _ _))

theorem sysNanosleep_within (hR : AllowsWaits R) (req : ℕ) : Within R (sysNanosleep req) := by
  refine within_ite (within_pure _) (within_bind within_get fun _ => within_ite (within_pure _) ?_)
  refine within_bind (within_inspect _) fun _ => within_bind (within_inspect _) fun _ => ?_
  refine within_bind within_get fun _ =>
    within_bind (waitLoop_within hR.wait ?_) fun _ => within_pure _
  exact within_bind within_get fun _ => within_ite (within_pure _) (within_pure _)

theorem sysSchedYield_within (hR : Allows R) : Within R sysSchedYield :=
  within_bind (modify_within hR fun _ => rfl) fun _ => within_pure _

theorem sysExecve_within (hR : Allows R) (w : Walker) (bin : List UInt8)
    (pathU argvU envpU : ℕ) : Within R (sysExecve w bin pathU argvU envpU) := by
  refine within_bind (within_inspect _) fun r => ?_
  split
  · exact within_pure _
  · refine within_bind (onMem_within hR (within_attempt (loadElfExec_safe w _ _ _ _))) fun r => ?_
    split
    · exact within_pure _
    · refine within_bind (within_modify _ fun k => hR.own k _ fun _ => rfl) fun _ => ?_
      exact within_bind (within_modify _ fun k => hR.mem k _ fun h => h) fun _ => within_pure _

/-- All calls but `fork`, `wait4` and `exit`. -/
theorem ownCall_within (hR : AllowsWaits R) (cfg : Config) (t : Trap) (m : Machine Glob)
    (n arg0 arg1 arg2 : UInt64) (hfork : sysno n ≠ some .fork) (hwait : sysno n ≠ some .wait4)
    (hexit : sysno n ≠ some .exit) : Within R (syscallDispatch cfg t m n arg0 arg1 arg2) := by
  have hret : ∀ {x : KernelM UInt64}, Within R x → Within R (returning x) :=
    fun hx => within_bind hx fun _ => within_pure _
  unfold syscallDispatch
  cases hn : sysno n with
  | none => exact within_pure _
  | some c =>
      cases c with
      | read => exact hret (sysRead_within hR _ _ _)
      | nanosleep => exact hret (sysNanosleep_within hR _)
      | write => exact hret (sysWrite_within hR.toAllows _ _ _)
      | openFile => exact hret (sysOpen_within hR.toAllows _ _)
      | close => exact hret (sysClose_within hR.toAllows _)
      | mmap => exact hret (sysMmap_within hR.toAllows.books _ _ _ _)
      | munmap => exact hret (sysMunmap_within hR.toAllows.books _ _)
      | brk => exact hret (sysBrk_within hR.toAllows.books _ _)
      | schedYield => exact hret (sysSchedYield_within hR.toAllows)
      | getpid => exact hret (within_bind within_get fun _ => within_pure _)
      | getppid => exact hret (within_bind within_get fun _ => within_pure _)
      | execve => exact hret (sysExecve_within hR.toAllows _ _ _ _ _)
      | fork => exact absurd hn hfork
      | wait4 => exact absurd hn hwait
      | exit => exact absurd hn hexit

end Calls

/-! ## fork -/

/-- The slot was free, and filling it changes no other. -/
theorem allocSlot_spec {procs procs' : List (Option Process)} {slot : ℕ}
    (h : allocSlot procs = some (slot, procs')) : (procs[slot]?).join = none ∧
      ∀ x s, ((procs'.set slot x)[s]?).join = if s = slot then x else (procs[s]?).join := by
  unfold allocSlot at h
  cases hf : procs.findIdx? Option.isNone with
  | some i =>
      simp only [hf, Option.some.injEq, Prod.mk.injEq] at h
      obtain ⟨rfl, rfl⟩ := h
      obtain ⟨hlt, hnone, -⟩ := List.findIdx?_eq_some_iff_getElem.mp hf
      have hfree : procs[i] = none := by simpa using hnone
      refine ⟨by simp [hlt, hfree], fun x s => ?_⟩
      rw [List.getElem?_set]
      by_cases hs : s = i
      · subst hs
        simp [hlt]
      · simp [hs, Ne.symm hs]
  | none =>
      simp only [hf] at h
      split_ifs at h with hlen
      simp only [Option.some.injEq, Prod.mk.injEq] at h
      obtain ⟨rfl, rfl⟩ := h
      refine ⟨by simp, fun x s => ?_⟩
      rw [List.getElem?_set]
      by_cases hs : s = procs.length
      · subst hs
        simp
      · rw [if_neg (Ne.symm hs), if_neg hs, List.getElem?_append]
        split_ifs with hlt
        · rfl
        · have : procs.length < s := by omega
          simp [List.getElem?_eq_none (show procs.length ≤ s by omega),
            List.getElem?_eq_none (show ([none] : List (Option Process)).length ≤
              s - procs.length by simp; omega)]

/-- A new live process in a free slot, at the end of the queue. -/
structure Forked (slot : ℕ) (child : Process) (k k' : Kernel) : Prop where
  free : k.proc slot = none
  proc : ∀ s, k'.proc s = if s = slot then some child else k.proc s
  alive : child.exitCode = none
  current : k'.currentSlot = k.currentSlot
  top : k'.currentKstackTop = k.currentKstackTop
  runnable : k'.sched.runnable = if slot ∈ k.sched.runnable then k.sched.runnable
    else k.sched.runnable ++ [slot]
  waits : k'.waits = k.waits

theorem spawn_forked {pid parentPid : ℕ} {parent : Process} {save : SyscallSaved}
    {childTop : UInt64} {k k' : Kernel} {v : UInt64}
    (h : spawn pid parentPid parent save childTop k = .ok v k') :
    v = UInt64.ofNat pid ∧ ∃ slot, Forked slot ⟨pid, some parentPid, parent.brkEnd,
      parent.vmAreas, none, childTop, save, 0⟩ k k' := by
  simp only [spawn, bind_run, get_run] at h
  cases ha : allocSlot k.procs with
  | none => simp [ha] at h
  | some r =>
      simp only [ha, bind_run, modify_run, pure_run, EStateM.Result.ok.injEq] at h
      obtain ⟨rfl, rfl⟩ := h
      obtain ⟨hfree, hset⟩ := allocSlot_spec ha
      refine ⟨rfl, r.1, hfree, fun s => ?_, rfl, rfl, rfl, rfl, rfl⟩
      -- the saved context is written twice with the same value
      have hupd := proc_updateProc { k with procs := r.2.set r.1 (some (⟨pid, some parentPid,
        parent.brkEnd, parent.vmAreas, none, childTop, save, 0⟩ : Process)) } r.1
        (fun p => { p with save := save, pendingRax := 0 }) s
      refine hupd.trans ?_
      have hproc : ∀ x : Option Process,
          ({ k with procs := r.2.set r.1 x } : Kernel).proc s = if s = r.1 then x else k.proc s :=
        fun x => hset x s
      rw [hproc]
      split_ifs with hs
      · rfl
      · rfl

/-- `fork` fails without touching the table, or adds one process. -/
theorem sysFork_cases {w : Walker} {mem : UInt64 → UInt64} {rsp childTop : UInt64}
    {k k' : Kernel} {v : UInt64} (h : sysFork w mem rsp childTop k = .ok v k') :
    (v = errno 12 ∧ ∃ m, k' = setMem m k) ∨
    ∃ pid parent slot,
      (∃ m, mapChildStackAndCopy w (saveFromDispatchRsp mem rsp) k.mem = .ok () m) ∧
      allocPid k.procs = some pid ∧ k.current = some parent ∧ v = UInt64.ofNat pid ∧
      Forked slot ⟨pid, some (currentPid k), parent.brkEnd, parent.vmAreas, none, childTop,
        childSave (saveFromDispatchRsp mem rsp), 0⟩ k k' := by
  simp only [sysFork, bind_run, get_run] at h
  cases hp : allocPid k.procs with
  | none =>
      simp only [hp, pure_run, EStateM.Result.ok.injEq] at h
      exact .inl ⟨h.1.symm, k.mem, h.2.symm⟩
  | some pid =>
      simp only [hp, bind_run] at h
      rcases onMem_attempt_cases (mapChildStackAndCopy w (saveFromDispatchRsp mem rsp)) k with
        ⟨_, m, hx, ho⟩ | ⟨reason, m, -, ho⟩ | ⟨e, m, -, ho⟩
      · simp only [ho] at h
        cases hc : k.current with
        | none => simp [hc] at h
        | some parent =>
            simp only [hc] at h
            obtain ⟨hv, slot, hf⟩ := spawn_forked h
            exact .inr ⟨pid, parent, slot, ⟨m, hx⟩, rfl, rfl, hv,
              ⟨hf.free, hf.proc, hf.alive, hf.current, hf.top, hf.runnable, hf.waits⟩⟩
      · simp only [ho, pure_run, EStateM.Result.ok.injEq] at h
        exact .inl ⟨h.1.symm, m, h.2.symm⟩
      · simp [ho] at h

/-! ## wait -/

/-- The slot of a zombie is emptied. -/
structure Reaped (slot : ℕ) (p : Process) (k k' : Kernel) : Prop where
  zombie : k.proc slot = some p ∧ p.exitCode ≠ none
  child : p.parent = some (currentPid k)
  proc : ∀ s, k'.proc s = if s = slot then none else k.proc s
  current : k'.currentSlot = k.currentSlot
  top : k'.currentKstackTop = k.currentKstackTop
  runnable : k'.sched.runnable = k.sched.runnable
  waits : k'.waits = k.waits

theorem waitReap_cases {target : ℤ} {k k' : Kernel} {r : Option (ℕ × Int32)}
    (h : waitReap target k = .ok r k') :
    (r = none ∧ k' = k) ∨ ∃ slot p code, r = some (p.pid, code) ∧ p.exitCode = some code ∧
      Reaped slot p k k' := by
  rw [waitReap_run] at h
  cases hs : reapScan (currentPid k) target 0 k.procs with
  | none =>
      simp only [hs, EStateM.Result.ok.injEq] at h
      exact .inl ⟨h.1.symm, h.2.symm⟩
  | some x =>
      obtain ⟨i, p, hi, hp, ⟨hparent, hcode, -⟩, hpid, -⟩ := reapScan_some hs
      simp only [hs, EStateM.Result.ok.injEq] at h
      obtain ⟨rfl, rfl⟩ := h
      have hslot : k.proc x.1 = some p := by
        rw [hi, Nat.zero_add, proc_eq_some, hp]
      refine .inr ⟨x.1, p, x.2.2, by rw [hpid], hcode, ⟨hslot, by simp [hcode]⟩, hparent, ?_, rfl,
        rfl, rfl, rfl⟩
      intro s
      simp only [Kernel.proc, List.getElem?_set]
      by_cases hs : s = x.1
      · subst hs
        simp only [if_true]
        split_ifs <;> rfl
      · rw [if_neg (Ne.symm hs), if_neg hs]

/-- Nothing but user memory changed. -/
def MemOnly (k k' : Kernel) : Prop := k' = setMem k'.mem k

instance : IsPreorder Kernel MemOnly where
  refl _ := rfl
  trans a b c h h' := by
    rw [MemOnly, h', h]
    rfl

theorem deliverStatus_memOnly (child : ℕ) (status : Int32) (wstatus : ℕ) :
    Within MemOnly (deliverStatus child status wstatus) := by
  refine within_ite (within_pure _) (within_bind within_get fun _ => within_ite (within_pure _) ?_)
  exact within_ite (within_throw _)
    (within_bind (within_zoom_of_put _ fun _ _ => rfl) fun _ => within_pure _)

theorem Reaped.of_memOnly {slot : ℕ} {p : Process} {k t k' : Kernel} (h : Reaped slot p k t)
    (hmem : MemOnly t k') : Reaped slot p k k' := by
  rw [hmem]
  exact ⟨h.zombie, h.child, h.proc, h.current, h.top, h.runnable, h.waits⟩

theorem sysWait4_cases {pid : ℤ} {wstatus : ℕ} {k k' : Kernel} {v : UInt64}
    (h : sysWait4 pid wstatus k = .ok v k') :
    k' = k ∨ ∃ slot p, Reaped slot p k k' := by
  rw [sysWait4] at h
  obtain ⟨r, t, hw, hrest⟩ := bind_ok h
  rcases waitReap_cases hw with ⟨rfl, rfl⟩ | ⟨slot, p, code, rfl, -, hreap⟩
  · simp only [pure_run, EStateM.Result.ok.injEq] at hrest
    exact .inl hrest.2.symm
  · exact .inr ⟨slot, p, hreap.of_memOnly ((deliverStatus_memOnly _ _ _).ok hrest)⟩

/-! ## The dispatcher -/

/-- What a system call that returns may have done to the table. -/
inductive Effect (k k' : Kernel) : Prop
  | quiet (h : Quiet k k')
  | forked (slot : ℕ) (child : Process) (h : Forked slot child k k')
  | reaped (slot : ℕ) (p : Process) (h : Reaped slot p k k')

theorem returning_ok {x : KernelM UInt64} {k k' : Kernel} {d : Dispatched}
    (h : returning x k = .ok d k') : ∃ v, d = .returned v ∧ x k = .ok v k' := by
  rw [returning] at h
  obtain ⟨v, t, hx, h⟩ := bind_ok h
  simp only [pure_run, EStateM.Result.ok.injEq] at h
  obtain ⟨hd, rfl⟩ := h
  exact ⟨v, hd.symm, hx⟩

/-- A call returns with one of the effects above, and only `read` and
`nanosleep` wait; `exit` ends in a switch. -/
theorem syscallDispatch_cases {cfg : Config} {t : Trap} {m : Machine Glob}
    {n arg0 arg1 arg2 : UInt64} {k k' : Kernel} {d : Dispatched}
    (h : syscallDispatch cfg t m n arg0 arg1 arg2 k = .ok d k') :
    (∃ v, d = .returned v ∧ sysno n ≠ some .exit ∧ Effect k k' ∧
      (sysno n ≠ some .read → sysno n ≠ some .nanosleep → k'.waits = k.waits)) ∨
    (∃ r, d = .switched r ∧ sysno n = some .exit ∧
      exitAndSchedule cfg m arg0.toUInt32.toInt32 k = .ok r k') := by
  have hlocal : ∀ {x : KernelM UInt64}, sysno n ≠ some .exit → Within Local x →
      returning x k = .ok d k' → ∃ v, d = .returned v ∧ sysno n ≠ some .exit ∧ Effect k k' ∧
        (sysno n ≠ some .read → sysno n ≠ some .nanosleep → k'.waits = k.waits) := by
    intro x hne hx hret
    obtain ⟨v, hd, hrun⟩ := returning_ok hret
    exact ⟨v, hd, hne, .quiet (hx.ok hrun).quiet, fun _ _ => (hx.ok hrun).waits⟩
  unfold syscallDispatch at h
  cases hn : sysno n with
  | none =>
      simp only [hn, pure_run, EStateM.Result.ok.injEq] at h
      obtain ⟨hd, rfl⟩ := h
      exact .inl ⟨_, hd.symm, by simp, .quiet (refl k), fun _ _ => rfl⟩
  | some c =>
      simp only [hn] at h
      rw [hn] at hlocal
      cases c with
      | read =>
          obtain ⟨v, rfl, hrun⟩ := returning_ok h
          exact .inl
            ⟨v, rfl, by simp, .quiet ((sysRead_within allows_quiet _ _ _).ok hrun), by simp⟩
      | nanosleep =>
          obtain ⟨v, rfl, hrun⟩ := returning_ok h
          exact .inl
            ⟨v, rfl, by simp, .quiet ((sysNanosleep_within allows_quiet _).ok hrun), by simp⟩
      | write => exact .inl (hlocal (by simp) (sysWrite_within allows_local _ _ _) h)
      | openFile => exact .inl (hlocal (by simp) (sysOpen_within allows_local _ _) h)
      | close => exact .inl (hlocal (by simp) (sysClose_within allows_local _) h)
      | mmap => exact .inl (hlocal (by simp) (sysMmap_within allows_local.books _ _ _ _) h)
      | munmap => exact .inl (hlocal (by simp) (sysMunmap_within allows_local.books _ _) h)
      | brk => exact .inl (hlocal (by simp) (sysBrk_within allows_local.books _ _) h)
      | schedYield => exact .inl (hlocal (by simp) (sysSchedYield_within allows_local) h)
      | getpid => exact .inl (hlocal (by simp) (within_bind within_get fun _ => within_pure _) h)
      | getppid => exact .inl (hlocal (by simp) (within_bind within_get fun _ => within_pure _) h)
      | execve => exact .inl (hlocal (by simp) (sysExecve_within allows_local _ _ _ _ _) h)
      | fork =>
          obtain ⟨v, rfl, hrun⟩ := returning_ok h
          refine .inl ⟨v, rfl, by simp, ?_⟩
          rcases sysFork_cases hrun with ⟨-, m', rfl⟩ | ⟨pid, parent, slot, -, -, -, -, hf⟩
          · exact ⟨.quiet (quiet_of_eq rfl rfl rfl rfl), fun _ _ => rfl⟩
          · exact ⟨.forked slot _ hf, fun _ _ => hf.waits⟩
      | wait4 =>
          obtain ⟨v, rfl, hrun⟩ := returning_ok h
          refine .inl ⟨v, rfl, by simp, ?_⟩
          rcases sysWait4_cases hrun with rfl | ⟨slot, p, hreap⟩
          · exact ⟨.quiet (refl _), fun _ _ => rfl⟩
          · exact ⟨.reaped slot p hreap, fun _ _ => hreap.waits⟩
      | exit =>
          obtain ⟨r, s, hx, h⟩ := bind_ok h
          simp only [pure_run, EStateM.Result.ok.injEq] at h
          obtain ⟨hd, rfl⟩ := h
          exact .inr ⟨r, hd.symm, rfl, hx⟩

/-! ## Whole system calls -/

/-- The edits from the tail of a call to the next process are permitted: those of
the queue, the current slot and the saved context, and the mark that `exit`
leaves. -/
structure AllowsTail (R : Kernel → Kernel → Prop) : Prop where
  wait : AllowsIrqs R
  own : ∀ k f, (∀ p, identity (f p) = identity p) → R k (k.updateCurrent f)
  switch : ∀ k k', (k'.mem, k'.procs) = (k.mem, k.procs) → R k k'
  exit : ∀ k status, R k (markExited status k)

structure AllowsSwitch (R : Kernel → Kernel → Prop) : Prop extends AllowsWaits R, AllowsTail R

/-- User code changes nothing but bytes. -/
theorem userStores_eq (stores : List (ℕ × UInt8)) (m : Mem) :
    ∃ ram, stores.foldl userStore m = { m with ram := ram } := by
  induction stores generalizing m with
  | nil => exact ⟨m.ram, rfl⟩
  | cons s stores ih =>
      have hone : ∃ ram, userStore m s = { m with ram := ram } := by
        unfold userStore
        split
        · exact ⟨m.ram, rfl⟩
        · split_ifs
          · exact ⟨_, rfl⟩
          · exact ⟨m.ram, rfl⟩
      obtain ⟨ram, hone⟩ := hone
      obtain ⟨ram', hrest⟩ := ih { m with ram := ram }
      exact ⟨ram', by rw [List.foldl_cons, hone, hrest]⟩

theorem userStores_pt (stores : List (ℕ × UInt8)) (m : Mem) :
    (stores.foldl userStore m).pt = m.pt := by
  obtain ⟨ram, heq⟩ := userStores_eq stores m
  rw [heq]

theorem userStores_image (stores : List (ℕ × UInt8)) (m : Mem) :
    (stores.foldl userStore m).image = m.image := by
  obtain ⟨ram, heq⟩ := userStores_eq stores m
  rw [heq]

theorem userStores_safe (stores : List (ℕ × UInt8)) {m : Mem} (h : FrameSafe m) :
    FrameSafe (stores.foldl userStore m) := by
  obtain ⟨ram, heq⟩ := userStores_eq stores m
  rw [heq]
  exact h

section Switch
variable {R : Kernel → Kernel → Prop} [IsPreorder Kernel R] {cfg : Config}

theorem trapState_within (hR : AllowsSwitch R) (t : Trap) (k : Kernel) : R k (trapState t k) :=
  IsTrans.trans _ _ _ (hR.mem k (t.stores.foldl userStore k.mem) (userStores_safe t.stores))
    (hR.switch _ _ rfl)

theorem pickNextAndRestore_within (hR : AllowsTail R) (m : Machine Glob) :
    Within R (pickNextAndRestore cfg m) := by
  have hpoll : Within R pollRunnable := within_bind within_get fun _ =>
    within_bind (within_modify _ fun k => hR.switch k _ rfl) fun _ => within_pure _
  refine within_bind (waitLoop_within hR.wait hpoll) fun next => ?_
  refine within_bind (within_modify _ fun k => hR.switch k _ rfl) fun _ => ?_
  refine within_bind within_get fun k => ?_
  cases k.proc next with
  | none => exact within_throw _
  | some p => exact within_pure _

theorem exitAndSchedule_within (hR : AllowsTail R) (m : Machine Glob) (code : Int32) :
    Within R (exitAndSchedule cfg m code) := by
  refine within_bind (within_modify _ fun k => hR.exit k code) fun _ => ?_
  refine within_bind (within_modify _ fun k => hR.switch k _ rfl) fun _ => ?_
  exact within_bind (within_modify _ fun k => hR.switch k _ rfl) fun _ =>
    pickNextAndRestore_within hR m

theorem completeSyscallAndSchedule_within (hR : AllowsTail R) (m : Machine Glob)
    (v rsp : UInt64) : Within R (completeSyscallAndSchedule cfg m v rsp) := by
  refine within_bind (within_modify _ fun k => hR.own k _ fun _ => rfl) fun _ => ?_
  refine within_bind (within_modify _ fun k => hR.switch k _ ?_) fun _ =>
    pickNextAndRestore_within hR m
  unfold reschedule
  split_ifs <;> rfl

/-- With what `fork` and `wait4` do to the table, this is all a call can do. -/
theorem syscall_within (hR : AllowsSwitch R) (t : Trap)
    (hfork : ∀ mem rsp top, Within R (sysFork cfg.walker mem rsp top))
    (hwait : ∀ pid wstatus, Within R (sysWait4 pid wstatus)) : Within R (syscall cfg t) := by
  refine within_bind (within_modify _ fun k => trapState_within hR t k) fun _ => ?_
  refine within_bind within_get fun k => within_bind ?_ fun d => ?_
  · generalize StackMachine.run (entryMachine k t t.kmem)
      (syscallEntry ++ [.call cfg.afterDispatch]) = m
    by_cases hf : sysno (m.reg .rdi) = some .fork
    · simp only [syscallDispatch, hf]
      exact within_bind (hfork _ _ _) fun _ => within_pure _
    by_cases hw : sysno (m.reg .rdi) = some .wait4
    · simp only [syscallDispatch, hw]
      exact within_bind (hwait _ _) fun _ => within_pure _
    by_cases he : sysno (m.reg .rdi) = some .exit
    · simp only [syscallDispatch, he]
      exact within_bind (exitAndSchedule_within hR.toAllowsTail _ _) fun _ => within_pure _
    exact ownCall_within hR.toAllowsWaits _ _ _ _ _ _ _ hf hw he
  · cases d with
    | switched r => exact within_pure _
    | returned v => exact completeSyscallAndSchedule_within hR.toAllowsTail _ _ _

theorem step_within (hR : AllowsSwitch R)
    (hfork : ∀ mem rsp top, Within R (sysFork cfg.walker mem rsp top))
    (hwait : ∀ pid wstatus, Within R (sysWait4 pid wstatus)) {e : Event} {k k' : Kernel}
    {o : Option Resumed} (hstep : step cfg e k = some (o, k')) : R k k' := by
  cases e with
  | irq i =>
      obtain ⟨-, rfl⟩ := step_irq_ok hstep
      exact hR.wait k [i] k.waits
  | syscall t =>
      obtain ⟨r, -, hrun⟩ := step_syscall_ok hstep
      exact (syscall_within hR t hfork hwait).ok hrun

end Switch

end Rockos.SyscallEffects
