import Rockos.SyscallEffects

/-!
# The run queue and the process table

The queue, the table and the current slot are separate pieces of state behind
separate locks, and every operation edits only one of them. Whenever user code
runs they agree: the queue lists the live processes once each, with the running
one at the front. Between the parts of a system call the front may differ, so
that part of the invariant is split off.
-/
namespace Rockos.RunQueue
open FallibleState PhysMemory Paging StackMachine SyscallFrame KernelState ProcessCalls
open Syscall SyscallEffects Runs

def Alive (k : Kernel) (s : ℕ) : Prop := ∃ p, k.proc s = some p ∧ p.exitCode = none

structure QueueSound (k : Kernel) : Prop where
  nodup : k.sched.runnable.Nodup
  mem_iff : ∀ s, s ∈ k.sched.runnable ↔ Alive k s

/-- User code runs. -/
structure Ready (k : Kernel) : Prop where
  queue : QueueSound k
  front : k.sched.runnable.head? = some k.currentSlot

section
variable {k k' : Kernel}

theorem slotIsAliveRunnable_iff (k : Kernel) (s : ℕ) :
    slotIsAliveRunnable k s = true ↔ Alive k s := by
  unfold slotIsAliveRunnable Alive
  cases k.proc s with
  | none => simp
  | some p => simp

theorem Ready.alive (h : Ready k) : Alive k k.currentSlot :=
  (h.queue.mem_iff _).mp (List.mem_of_head? h.front)

/-! ## Effects of a call -/

theorem quiet_alive (h : Quiet k k') (s : ℕ) : Alive k' s ↔ Alive k s := by
  by_cases hs : s = k.currentSlot
  · have hown := h.own
    simp only [Kernel.current, h.slot, ← hs] at hown
    unfold Alive
    cases hp : k.proc s with
    | none =>
        cases hp' : k'.proc s with
        | none => simp
        | some p' => simp [hp, hp'] at hown
    | some p =>
        cases hp' : k'.proc s with
        | none => simp [hp, hp'] at hown
        | some p' =>
            simp only [hp, hp', Option.map_some, Option.some.injEq, identity, Identity.mk.injEq]
              at hown
            simp [hown.2.2.1]
  · unfold Alive
    rw [h.other s hs]

theorem QueueSound.of_quiet (h : QueueSound k) (hq : Quiet k k') : QueueSound k' := by
  refine ⟨hq.runnable ▸ h.nodup, fun s => ?_⟩
  rw [hq.runnable, quiet_alive hq]
  exact h.mem_iff s

theorem Ready.of_quiet (h : Ready k) (hq : Quiet k k') : Ready k' := by
  refine ⟨h.queue.of_quiet hq, ?_⟩
  rw [hq.runnable, hq.slot]
  exact h.front

theorem Ready.of_forked {slot : ℕ} {child : Process} (h : Ready k)
    (hf : Forked slot child k k') : Ready k' := by
  have hnot : slot ∉ k.sched.runnable := by
    intro hmem
    obtain ⟨p, hp, -⟩ := (h.queue.mem_iff slot).mp hmem
    simp [hf.free] at hp
  have hrun : k'.sched.runnable = k.sched.runnable ++ [slot] := by
    rw [hf.runnable, if_neg hnot]
  refine ⟨⟨?_, fun s => ?_⟩, ?_⟩
  · rw [hrun, List.nodup_append]
    exact ⟨h.queue.nodup, List.nodup_singleton slot, by
      rintro a ha b hb rfl
      exact hnot (List.mem_singleton.mp hb ▸ ha)⟩
  · rw [hrun, List.mem_append, List.mem_singleton, h.queue.mem_iff]
    unfold Alive
    rw [hf.proc]
    by_cases hs : s = slot
    · subst hs
      simp [hf.alive]
    · simp [hs]
  · rw [hrun, hf.current, List.head?_append, h.front]
    rfl

theorem Ready.of_reaped {slot : ℕ} {p : Process} (h : Ready k) (hr : Reaped slot p k k') :
    Ready k' := by
  refine ⟨⟨hr.runnable ▸ h.queue.nodup, fun s => ?_⟩, ?_⟩
  · rw [hr.runnable, h.queue.mem_iff]
    unfold Alive
    rw [hr.proc]
    by_cases hs : s = slot
    · subst hs
      simp [hr.zombie.1, hr.zombie.2]
    · simp [hs]
  · rw [hr.runnable, hr.current]
    exact h.front

theorem Ready.of_effect (h : Ready k) (he : Effect k k') : Ready k' := by
  cases he with
  | quiet hq => exact h.of_quiet hq
  | forked slot child hf => exact h.of_forked hf
  | reaped slot p hr => exact h.of_reaped hr

/-! ## The tail of a call -/

theorem quiet_setSyscallSaved (k : Kernel) (save : SyscallSaved) (rax : UInt64) :
    Quiet k (setSyscallSaved k.currentSlot save rax k) :=
  quiet_updateCurrent k fun _ => rfl

theorem reschedule_perm (k : Kernel) :
    (reschedule k).sched.runnable.Perm k.sched.runnable := by
  unfold reschedule
  split_ifs with hneed
  · simp only [rotateRunnable]
    cases k.sched.runnable with
    | nil => exact .refl _
    | cons front rest => exact List.perm_append_singleton front rest
  · exact .refl _

theorem reschedule_procs (k : Kernel) : (reschedule k).procs = k.procs := by
  unfold reschedule
  split_ifs <;> rfl

theorem reschedule_waits (k : Kernel) : (reschedule k).waits = k.waits := by
  unfold reschedule
  split_ifs <;> rfl

theorem QueueSound.reschedule (h : QueueSound k) : QueueSound (reschedule k) := by
  refine ⟨(reschedule_perm k).nodup_iff.mpr h.nodup, fun s => ?_⟩
  rw [(reschedule_perm k).mem_iff, h.mem_iff]
  simp only [Alive, Kernel.proc, reschedule_procs]

theorem pollRunnable_front {c : ℕ} {rest : List ℕ} (hq : k.sched.runnable = c :: rest)
    (halive : Alive k c) : pollRunnable k = .ok (some c) k := by
  have hc := (slotIsAliveRunnable_iff k c).mpr halive
  have hqueue : k.sched.runnable.dropWhile (fun c => !slotIsAliveRunnable k c) =
      k.sched.runnable := by
    rw [hq, List.dropWhile_cons_of_neg (by simp [hc])]
  have hhead : k.sched.runnable.head? = some c := by
    rw [hq]
    rfl
  simp only [pollRunnable, bind_run, get_run, modify_run, pure_run, hqueue, hhead]

/-- With an empty queue the loop only waits: no handler makes a process runnable. -/
theorem waitTurns_empty (n : ℕ) (hq : k.sched.runnable = []) :
    ∃ e k', waitTurns pollRunnable n k = .error e k' := by
  induction n generalizing k with
  | zero => exact ⟨_, k, rfl⟩
  | succ n ih =>
      have hpoll : pollRunnable k = .ok none k := by
        simp only [pollRunnable, bind_run, get_run, modify_run, pure_run, hq, List.dropWhile_nil,
          List.head?_nil]
        rw [← hq]
      simp only [waitTurns, bind_run, hpoll]
      cases hh : enableAndHlt k with
      | error e t => exact ⟨e, t, rfl⟩
      | ok _ t =>
          have hquiet := (enableAndHlt_within allows_quiet.wait).ok hh
          exact ih (by rw [hquiet.runnable, hq])

/-- The front of the queue is resumed, with the context it saved. -/
theorem pickNextAndRestore_ok {cfg : Config} {m : Machine Glob} {r : Resumed}
    (h : QueueSound k) (hrun : pickNextAndRestore cfg m k = .ok r k') :
    ∃ p, k.sched.runnable.head? = some r.slot ∧ k.proc r.slot = some p ∧ p.exitCode = none ∧
      r.saved = p.save ∧
      r.context = resume m p.kstackTop p.pendingRax cfg.syscallUserReturn p.save ∧
      k' = setCurrentSlot r.slot k := by
  rw [pickNextAndRestore, bind_run] at hrun
  cases hq : k.sched.runnable with
  | nil =>
      obtain ⟨e, t, hwait⟩ := waitTurns_empty (k.waits.length + 1) hq
      have hloop : waitLoop pollRunnable k = .error e t := hwait
      simp [hloop] at hrun
  | cons c rest =>
      obtain ⟨p, hp, halive⟩ := (h.mem_iff c).mp (by rw [hq]; exact List.mem_cons_self)
      have hloop : waitLoop pollRunnable k = .ok c k := by
        simp only [waitLoop, waitTurns, bind_run, get_run,
          pollRunnable_front hq ⟨p, hp, halive⟩, pure_run]
      have hp' : (setCurrentSlot c k).proc c = some p := hp
      simp only [hloop, bind_run, modify_run, get_run, hp', pure_run, EStateM.Result.ok.injEq]
        at hrun
      obtain ⟨rfl, rfl⟩ := hrun
      refine ⟨p, rfl, hp, halive, rfl, ?_, rfl⟩
      simp only [kstackTopForSlot, pendingRaxForSlot, hp', Option.elim_some]

theorem ready_setCurrentSlot {slot : ℕ} (h : QueueSound k)
    (hfront : k.sched.runnable.head? = some slot) : Ready (setCurrentSlot slot k) :=
  ⟨⟨h.nodup, h.mem_iff⟩, hfront⟩

/-! ## exit -/

theorem Ready.exit (h : Ready k) (code : Int32) :
    QueueSound (noteYield (dropRunnable (markExited code k).currentSlot (markExited code k))) := by
  have hproc : ∀ s, (markExited code k).proc s = if s = k.currentSlot
      then (k.proc s).map fun p => { p with exitCode := some code } else k.proc s :=
    fun s => proc_updateProc k _ _ s
  refine ⟨h.queue.nodup.filter _, fun s => ?_⟩
  have hmem : s ∈ (noteYield (dropRunnable (markExited code k).currentSlot
      (markExited code k))).sched.runnable ↔ s ∈ k.sched.runnable ∧ s ≠ k.currentSlot := by
    simp only [noteYield, dropRunnable, List.mem_filter, decide_eq_true_eq]
    rfl
  have halive : Alive (noteYield (dropRunnable (markExited code k).currentSlot
      (markExited code k))) s ↔ Alive (markExited code k) s := Iff.rfl
  rw [hmem, halive, h.queue.mem_iff]
  unfold Alive
  rw [hproc]
  by_cases hs : s = k.currentSlot
  · subst hs
    simp
  · simp [hs]

/-! ## Whole steps -/

theorem entryArgs (k : Kernel) (t : Trap) (ret : UInt64) :
    (run (entryMachine k t t.kmem) (syscallEntry ++ [.call ret])).reg .rdi = t.reg .rax ∧
    (run (entryMachine k t t.kmem) (syscallEntry ++ [.call ret])).reg .rsi = t.reg .rdi ∧
    (run (entryMachine k t t.kmem) (syscallEntry ++ [.call ret])).reg .rdx = t.reg .rsi ∧
    (run (entryMachine k t t.kmem) (syscallEntry ++ [.call ret])).reg .rcx = t.reg .rdx := by
  have h := syscallEntry_args (entryMachine k t t.kmem)
  simpa [run_append, exec] using h

/-- The parts of a system call, taken apart. -/
theorem syscall_ok {cfg : Config} {t : Trap} {r : Resumed} (h : syscall cfg t k = .ok r k') :
    ∃ k₁ d, syscallDispatch cfg t
        (run (entryMachine (trapState t k) t t.kmem) (syscallEntry ++ [.call cfg.afterDispatch]))
        (t.reg .rax) (t.reg .rdi) (t.reg .rsi) (t.reg .rdx) (trapState t k) = .ok d k₁ ∧
      ((d = .switched r ∧ k' = k₁) ∨ ∃ v, d = .returned v ∧
        completeSyscallAndSchedule cfg (run (entryMachine (trapState t k) t t.tailMem) syscallEntry)
          v ((run (entryMachine (trapState t k) t t.tailMem) syscallEntry).reg .rsp) k₁ =
            .ok r k') := by
  have hargs := entryArgs (trapState t k) t cfg.afterDispatch
  rw [Syscall.syscall] at h
  obtain ⟨_, k₁, hmod, h⟩ := bind_ok h
  cases hmod
  obtain ⟨k₂, k₃, hget, h⟩ := bind_ok h
  cases hget
  obtain ⟨d, k₄, hd, h⟩ := bind_ok h
  simp only [hargs] at hd
  refine ⟨k₄, d, hd, ?_⟩
  cases d with
  | switched r' =>
      simp only [pure_run, EStateM.Result.ok.injEq] at h
      exact .inl ⟨by rw [h.1], h.2.symm⟩
  | returned v => exact .inr ⟨v, rfl, h⟩

/-- The process that runs now was resumed from the context it had saved. -/
structure Resumes (cfg : Config) (r : Resumed) (k : Kernel) : Prop where
  current : k.currentSlot = r.slot
  context : ∃ p m, k.proc r.slot = some p ∧ r.saved = p.save ∧
    r.context = resume m p.kstackTop p.pendingRax cfg.syscallUserReturn p.save
  top : ∀ p, k.proc r.slot = some p → k.currentKstackTop = p.kstackTop

theorem pickNextAndRestore_ready {cfg : Config} {m : Machine Glob} {r : Resumed}
    (h : QueueSound k) (hrun : pickNextAndRestore cfg m k = .ok r k') :
    Ready k' ∧ Resumes cfg r k' ∧ k'.waits = k.waits ∧ ∀ s, k'.proc s = k.proc s := by
  obtain ⟨p, hfront, hp, -, hsaved, hctx, rfl⟩ := pickNextAndRestore_ok h hrun
  have htop : ∀ q, (setCurrentSlot r.slot k).proc r.slot = some q →
      (setCurrentSlot r.slot k).currentKstackTop = q.kstackTop := by
    intro q hq
    rw [setCurrentSlot, show k.proc r.slot = some q from hq]
    rfl
  exact ⟨ready_setCurrentSlot h hfront, ⟨rfl, ⟨p, m, hp, hsaved, hctx⟩, htop⟩, rfl, fun _ => rfl⟩

/-- The tail overwrites the caller's saved context, whatever the call stored there. -/
theorem completeSyscallAndSchedule_ready {cfg : Config} {m : Machine Glob} {v rsp : UInt64}
    {r : Resumed} (h : Ready k) (hrun : completeSyscallAndSchedule cfg m v rsp k = .ok r k') :
    Ready k' ∧ Resumes cfg r k' ∧ k'.waits = k.waits ∧ ∀ s, k'.proc s = if s = k.currentSlot
      then (k.proc s).map fun p => { p with save := saveFromDispatchRsp m.mem rsp, pendingRax := v }
      else k.proc s := by
  simp only [completeSyscallAndSchedule, bind_run, modify_run] at hrun
  have hsound := (h.queue.of_quiet
    (quiet_setSyscallSaved k (saveFromDispatchRsp m.mem rsp) v)).reschedule
  obtain ⟨hready, hres, hwaits, hproc⟩ := pickNextAndRestore_ready hsound hrun
  refine ⟨hready, hres, hwaits.trans (reschedule_waits _), fun s => ?_⟩
  rw [hproc s, Kernel.proc, reschedule_procs]
  exact proc_updateProc k _ _ s

theorem exitAndSchedule_ready {cfg : Config} {m : Machine Glob} {code : Int32} {r : Resumed}
    (h : Ready k) (hrun : exitAndSchedule cfg m code k = .ok r k') :
    Ready k' ∧ Resumes cfg r k' ∧ k'.waits = k.waits ∧
      ∀ s, s ≠ k.currentSlot → k'.proc s = k.proc s := by
  simp only [exitAndSchedule, scheduleAfterExit, bind_run, modify_run] at hrun
  obtain ⟨hready, hres, hwaits, hproc⟩ := pickNextAndRestore_ready (h.exit code) hrun
  refine ⟨hready, hres, hwaits, fun s hs => ?_⟩
  rw [hproc s]
  exact (proc_updateProc k _ _ s).trans (if_neg hs)

/-- No call touches a live process other than its caller. -/
theorem effect_other (he : Effect k k') {s : ℕ} {p : Process} (hs : s ≠ k.currentSlot)
    (hp : k.proc s = some p) (halive : p.exitCode = none) : k'.proc s = some p := by
  cases he with
  | quiet hq => rw [hq.other s hs, hp]
  | forked slot child hf =>
      rw [hf.proc, if_neg, hp]
      rintro rfl
      simp [hf.free] at hp
  | reaped slot q hr =>
      rw [hr.proc, if_neg, hp]
      rintro rfl
      rw [hr.zombie.1, Option.some.injEq] at hp
      exact hr.zombie.2 (hp ▸ halive)

theorem effect_current (he : Effect k k') : k'.currentSlot = k.currentSlot := by
  cases he with
  | quiet hq => exact hq.slot
  | forked slot child hf => exact hf.current
  | reaped slot p hr => exact hr.current

/-- What a system call does to the processes: it resumes one of them from the
context it saved, leaves the other live ones alone, and unless it is an exit it
saves the caller through the pointer of the tail. -/
structure Switched (cfg : Config) (t : Trap) (r : Resumed) (k k' : Kernel) : Prop where
  ready : Ready k'
  resumes : Resumes cfg r k'
  other : ∀ s p, s ≠ k.currentSlot → k.proc s = some p → p.exitCode = none → k'.proc s = some p
  own : sysno (t.reg .rax) ≠ some .exit → ∃ p, k'.proc k.currentSlot = some p ∧
    p.exitCode = none ∧
    p.save = saveFromDispatchRsp (run (entryMachine k t t.tailMem) syscallEntry).mem
      ((run (entryMachine k t t.tailMem) syscallEntry).reg .rsp)

theorem syscall_switched {cfg : Config} {t : Trap} {r : Resumed} (h : Ready k)
    (hrun : syscall cfg t k = .ok r k') : Switched cfg t r k k' := by
  obtain ⟨k₁, d, hdisp, hrest⟩ := syscall_ok hrun
  have htrap := quiet_trapState t k
  have hready := h.of_quiet htrap
  rcases syscallDispatch_cases hdisp with ⟨v, rfl, hne, heff, -⟩ | ⟨r', rfl, hexit, hsched⟩
  · rcases hrest with ⟨hd, -⟩ | ⟨v', hd, htail⟩
    · cases hd
    cases hd
    have hready₁ := hready.of_effect heff
    have hslot : k₁.currentSlot = k.currentSlot := (effect_current heff).trans htrap.slot
    obtain ⟨hk', hres, -, hproc⟩ := completeSyscallAndSchedule_ready hready₁ htail
    refine ⟨hk', hres, fun s p hs hp halive => ?_, fun _ => ?_⟩
    · rw [hproc, if_neg (by rwa [hslot])]
      exact effect_other heff (by rwa [htrap.slot]) ((htrap.other s hs).trans hp) halive
    · obtain ⟨p, hp, halive⟩ := hready₁.alive
      have hown := hproc k.currentSlot
      rw [if_pos hslot.symm, ← hslot, hp, Option.map_some, hslot] at hown
      exact ⟨_, hown, halive, rfl⟩
  · rcases hrest with ⟨hd, rfl⟩ | ⟨v', hd, -⟩
    · cases hd
      obtain ⟨hk', hres, -, hproc⟩ := exitAndSchedule_ready hready hsched
      refine ⟨hk', hres, fun s p hs hp _ => ?_, fun hne => absurd hexit hne⟩
      rw [hproc s hs]
      exact hp
    · cases hd

theorem step_syscall {cfg : Config} {t : Trap} {o : Option Resumed} (h : Ready k)
    (hstep : step cfg (.syscall t) k = some (o, k')) :
    ∃ r, o = some r ∧ Switched cfg t r k k' := by
  obtain ⟨r, ho, hrun⟩ := step_syscall_ok hstep
  exact ⟨r, ho, syscall_switched h hrun⟩

theorem step_ready {cfg : Config} (e : Event) (s : Kernel) (o : Option Resumed) (u : Kernel)
    (hstep : step cfg e s = some (o, u)) (h : Ready s) : Ready u := by
  cases e with
  | irq i =>
      obtain ⟨-, rfl⟩ := step_irq_ok hstep
      exact h.of_quiet (quiet_takeIrq i s)
  | syscall t =>
      obtain ⟨r, -, hsw⟩ := step_syscall h hstep
      exact hsw.ready

end

theorem boot_ready (staleTop boxedTop : UInt64) (k : Kernel) :
    Ready (boot staleTop boxedTop k) := by
  refine ⟨⟨List.nodup_singleton 0, fun s => ⟨fun hs => ?_, ?_⟩⟩, rfl⟩
  · rw [show s = 0 from List.mem_singleton.mp hs]
    exact ⟨_, rfl, rfl⟩
  · rintro ⟨p, hp, -⟩
    rw [(boot_proc hp).1]
    exact List.mem_singleton_self 0

theorem Reachable.ready {cfg : Config} {k : Kernel} (h : Reachable cfg k) : Ready k := by
  obtain ⟨staleTop, boxedTop, k₀, tr, hrun⟩ := h
  exact hrun.invariant step_ready (boot_ready staleTop boxedTop k₀)

/-- Whenever user code runs, the queue lists exactly the live slots, each once,
and the running one is at its front. -/
theorem queue_matches_table (cfg : Config) (k : Kernel) (h : Reachable cfg k) :
    k.sched.runnable.Nodup ∧
    (∀ s, s ∈ k.sched.runnable ↔ ∃ p, k.proc s = some p ∧ p.exitCode = none) ∧
    k.sched.runnable.head? = some k.currentSlot :=
  ⟨(Reachable.ready h).queue.nodup, (Reachable.ready h).queue.mem_iff, (Reachable.ready h).front⟩

/-- After the first `fork` the child runs and the parent waits behind it. -/
theorem queue_matches_table_fork : ∃ k, Reachable machine k ∧ k.sched.runnable = [1, 0] ∧
    (∀ s, s ∈ k.sched.runnable ↔ ∃ p, k.proc s = some p ∧ p.exitCode = none) ∧
    k.currentSlot = 1 := by
  have hqueue : (step machine (.syscall forkTrap) started).map (fun x => x.2.sched.runnable) =
      some [1, 0] := by decide +kernel
  obtain ⟨⟨o, k⟩, hstep, hk⟩ := Option.map_eq_some_iff.mp hqueue
  have hreach : Reachable machine k := Reachable.step started_reachable hstep
  have hall := queue_matches_table machine k hreach
  have hfront := hall.2.2
  rw [hk] at hfront
  exact ⟨k, hreach, hk, hall.2.1, (Option.some.inj hfront).symm⟩

end Rockos.RunQueue
