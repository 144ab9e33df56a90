import Rockos.CallFootprints
import Rockos.ProcessTable
import Rockos.RoundRobin
import Rockos.TurnQueue

/-!
# How long a process waits for its turn (scheduler.rs)

The turn of a process ends at a system call: at its exit, or when the call
finds the request to reschedule set. A live process that waits moves up by one
place at every switch, so it is dispatched after at most as many switches as
there are processes before it. The timer sets the request once the slice is
used up, and nothing but a rotation withdraws it, so no process comes back from
a call with its slice used up while another one waits. The idle loop of
`pick_next_and_restore` is entered after the last exit only, and never left.
-/
namespace Rockos.FairTurns
open FallibleState PhysMemory Paging StackMachine SyscallFrame KernelState ProcessCalls
open Syscall SyscallEffects RunQueue Turns RoundRobin CallFootprints TurnQueue Runs

section
variable {cfg : Config} {t : Trap} {k k₁ k' : Kernel} {r : Resumed} {b : ℕ}

/-! ## Places in the queue -/

/-- Without its front, a queue without duplicates. -/
theorem filter_front {x : ℕ} {rest : List ℕ} (hnodup : (x :: rest).Nodup) :
    (x :: rest).filter (· ≠ x) = rest := by
  have hnot : x ∉ rest := (List.nodup_cons.mp hnodup).1
  rw [List.filter_cons_of_neg (by simp), List.filter_eq_self]
  intro y hy
  have hne : y ≠ x := fun heq => hnot (heq ▸ hy)
  simpa using hne

theorem turn_served (h : Ready k) (hturn : Turn cfg t k k') :
    ∃ passed, Served k.sched.runnable passed k'.sched.runnable := by
  obtain ⟨rest, hq⟩ := Ready.cons h
  cases hturn with
  | returned v k₁ _ _ hout _ hrun =>
      obtain ⟨added, hadded⟩ := Outcome.runnable hout
      rw [hrun]
      rcases reschedule_runnable k₁ with hsame | ⟨front, rest', hk₁, hrot⟩
      · rw [hsame, hadded]
        exact ⟨false, .keep added⟩
      · rw [hadded, hq, List.cons_append, List.cons.injEq] at hk₁
        rw [hrot, ← hk₁.1, ← hk₁.2]
        exact ⟨true, .rotate k.currentSlot rest added hq⟩
  | exited _ _ hrun =>
      have hnodup := h.queue.nodup
      rw [hq] at hnodup
      rw [hrun, hq, filter_front hnodup]
      exact ⟨true, .leave k.currentSlot rest rfl⟩

/-- While `b` waits, the turn is passed on exactly when another slot runs next. -/
theorem served_slot {passed : Bool} (h : Ready k) (h' : Ready k') (hb : b ∈ k.sched.runnable)
    (hwait : k.currentSlot ≠ b) (hserved : Served k.sched.runnable passed k'.sched.runnable) :
    passed.toNat = if k'.currentSlot = k.currentSlot then 0 else 1 := by
  have hfront : k.sched.runnable.head? ≠ some b := by
    rw [h.front]
    exact fun heq => hwait (Option.some.inj heq)
  cases passed with
  | true =>
      have hchange := hserved.head_ne h.queue.nodup hb hfront
      rw [h.front, h'.front] at hchange
      rw [if_neg fun heq => hchange (congrArg some heq), Bool.toNat_true]
  | false =>
      have hnext := h'.front
      generalize hq' : k'.sched.runnable = queue at hserved hnext
      cases hserved with
      | keep added =>
          rw [List.head?_append, h.front, Option.some_or, Option.some.injEq] at hnext
          rw [if_pos hnext.symm, Bool.toNat_false]

/-- The number of switches in a sequence of dispatched slots, from `slot` on. -/
def switches (slot : ℕ) : List ℕ → ℕ
  | [] => 0
  | s :: rest => (if s = slot then 0 else 1) + switches s rest

theorem dispatched_irq (i : Irq) (tr : List (Event × Option Resumed)) :
    dispatched ((.irq i, none) :: tr) = dispatched tr := rfl

theorem dispatched_syscall (t : Trap) (r : Resumed) (tr : List (Event × Option Resumed)) :
    dispatched ((.syscall t, some r) :: tr) = r.slot :: dispatched tr := rfl

/-- A process that is not dispatched moves up by one place at every switch. -/
theorem run_place {tr : List (Event × Option Resumed)} (hrun : Run (step cfg) k tr k')
    (h : Ready k) (hb : b ∈ k.sched.runnable) (hnever : b ∉ k.currentSlot :: dispatched tr) :
    Ready k' ∧ b ∈ k'.sched.runnable ∧ k'.currentSlot ≠ b ∧
      k'.sched.runnable.idxOf b + switches k.currentSlot (dispatched tr) =
        k.sched.runnable.idxOf b := by
  induction hrun with
  | done k =>
      have hcur : k.currentSlot ≠ b := fun heq => hnever (by simp [heq])
      exact ⟨h, hb, hcur, rfl⟩
  | @step k k₁ _ e o tr hstep _ ih =>
      cases e with
      | irq i =>
          obtain ⟨rfl, rfl⟩ := step_irq_ok hstep
          have hquiet := quiet_takeIrq i k
          rw [dispatched_irq] at hnever ⊢
          have hrest := ih (h.of_quiet hquiet) (by rwa [hquiet.runnable]) (by rwa [hquiet.slot])
          rwa [hquiet.slot, hquiet.runnable] at hrest
      | syscall t =>
          obtain ⟨r, rfl, hsys⟩ := step_syscall_ok hstep
          have hsw := syscall_switched h hsys
          rw [dispatched_syscall] at hnever ⊢
          have hcur : k.currentSlot ≠ b := fun heq => hnever (by simp [heq])
          have hfront : k.sched.runnable.head? ≠ some b := by
            rw [h.front]
            exact fun heq => hcur (Option.some.inj heq)
          obtain ⟨passed, hserved⟩ := turn_served h (syscall_turn h hsys)
          have hmoved := hserved.idxOf hb hfront
          rw [served_slot h hsw.ready hb hcur hserved] at hmoved
          have hnever' : b ∉ k₁.currentSlot :: dispatched tr := by
            rw [hsw.resumes.current]
            exact fun hmem => hnever (List.mem_cons_of_mem _ hmem)
          obtain ⟨hready, hmem, hlast, hplace⟩ := ih hsw.ready (hserved.mem hb hfront) hnever'
          refine ⟨hready, hmem, hlast, ?_⟩
          rw [switches, ← hsw.resumes.current, ← hmoved, ← hplace]
          omega

theorem idxOf_lt_slots (hk : Reachable cfg k) (hb : b ∈ k.sched.runnable) :
    k.sched.runnable.idxOf b < 32 := by
  have hslots : ∀ s ∈ k.sched.runnable, s < 32 := by
    intro s hs
    obtain ⟨p, hp, -⟩ := ((Reachable.ready hk).queue.mem_iff s).mp hs
    have hlt : s < k.procs.length := by
      by_contra hge
      rw [Kernel.proc, List.getElem?_eq_none (by omega)] at hp
      cases hp
    exact lt_of_lt_of_le hlt (ProcessTable.Reachable.sound hk).slots
  have hsub : k.sched.runnable ⊆ List.range 32 := fun s hs => List.mem_range.mpr (hslots s hs)
  have hlen := (Reachable.ready hk).queue.nodup.length_le_of_subset hsub
  rw [List.length_range] at hlen
  exact lt_of_lt_of_le (List.idxOf_lt_length_of_mem hb) hlen

end

/-- A live process is dispatched before the processor has changed hands more
often than there were processes before it in the queue, of which there are at
most 31. -/
theorem bounded_waiting (cfg : Config) (k k' : Kernel) (tr : List (Event × Option Resumed)) (b : ℕ)
    (hk : Reachable cfg k) (hb : Alive k b) (hrun : Run (step cfg) k tr k')
    (hnever : b ∉ k.currentSlot :: dispatched tr) :
    switches k.currentSlot (dispatched tr) < k.sched.runnable.idxOf b ∧
      k.sched.runnable.idxOf b ≤ 31 := by
  have hready := Reachable.ready hk
  have hmem := (hready.queue.mem_iff b).mpr hb
  obtain ⟨hready', hmem', hcur, hplace⟩ := run_place hrun hready hmem hnever
  have hpos : 0 < k'.sched.runnable.idxOf b := by
    apply idxOf_pos hmem'
    rw [hready'.front]
    exact fun heq => hcur (Option.some.inj heq)
  have hlt := idxOf_lt_slots hk hmem
  omega

/-- Three processes; the last in the queue lets one switch pass. -/
theorem bounded_waiting_last : ∃ k₂ k₃ r₃, Reachable machine k₂ ∧ k₂.sched.runnable = [0, 2, 1] ∧
    step machine threeProcesses[2] k₂ = some (some r₃, k₃) ∧ r₃.slot = 2 ∧
    switches k₂.currentSlot (dispatched [(threeProcesses[2], some r₃)]) < [0, 2, 1].idxOf 1 := by
  have hall : ((step machine threeProcesses[0] started).bind fun x₁ =>
      (step machine threeProcesses[1] x₁.2).bind fun x₂ =>
      (step machine threeProcesses[2] x₂.2).bind fun x₃ =>
      some (x₃.1.map Resumed.slot, x₂.2.sched.runnable, x₂.2.currentSlot)) =
        some (some 2, [0, 2, 1], 0) := by decide +kernel
  simp only [Option.bind_eq_some_iff, Option.some.injEq, Prod.mk.injEq,
    Option.map_eq_some_iff] at hall
  obtain ⟨⟨_, k₁⟩, h₁, ⟨_, k₂⟩, h₂, ⟨_, k₃⟩, h₃, ⟨r₃, rfl, hr₃⟩, hqueue, hcur⟩ := hall
  have hk₂ : Reachable machine k₂ := (started_reachable.step h₁).step h₂
  have hlive : Alive k₂ 1 := ((Reachable.ready hk₂).queue.mem_iff 1).mp (by rw [hqueue]; simp)
  have hwait := bounded_waiting machine k₂ k₃ _ 1 hk₂ hlive (.single h₃) (by
    rw [hcur]
    simp [dispatched, hr₃])
  rw [hqueue] at hwait
  exact ⟨k₂, k₃, r₃, hk₂, hqueue, h₃, hr₃, hwait.1⟩

/-! ## The time slice -/

/-- The slice is 12 ticks, and the request to reschedule is set once they are over. -/
structure SliceSound (k : Kernel) : Prop where
  slice : k.sched.timeSliceTicks = 12
  due : k.needResched = false → k.ticks < k.sched.lastStartedTick + 12

/-- A request to reschedule. -/
def Due (k : Kernel) : Prop := k.needResched = true

section
variable {cfg : Config} {t : Trap} {k k₁ k' : Kernel} {r : Resumed}

theorem takeIrq_slice (i : Irq) (h : SliceSound k) : SliceSound (takeIrq i k) := by
  cases i with
  | keyboard scancode => exact ⟨h.slice, h.due⟩
  | timer =>
      simp only [takeIrq, timerInterruptHandler, onTimerTick]
      split_ifs with hover
      · exact ⟨h.slice, fun hfalse => by cases hfalse⟩
      · refine ⟨h.slice, fun _ => ?_⟩
        simp only [h.slice] at hover
        simp only
        omega

theorem takeIrqs_slice (irqs : List Irq) (h : SliceSound k) : SliceSound (takeIrqs irqs k) := by
  induction irqs generalizing k with
  | nil => exact h
  | cons i irqs ih => exact ih (takeIrq_slice i h)

theorem takeIrq_due (i : Irq) (h : Due k) : Due (takeIrq i k) := by
  cases i with
  | keyboard scancode => exact h
  | timer =>
      simp only [takeIrq, timerInterruptHandler, onTimerTick]
      split_ifs with hover
      · rfl
      · exact h

theorem takeIrqs_due (irqs : List Irq) (h : Due k) : Due (takeIrqs irqs k) := by
  induction irqs generalizing k with
  | nil => exact h
  | cons i irqs ih => exact ih (takeIrq_due i h)

/-- No edit of a call that returns breaks the slice or withdraws a request. -/
theorem slice_permits (e : Edit) : Permits (Keeps SliceSound) e := by
  cases e with
  | irqs => exact fun k irqs rest h => takeIrqs_slice irqs ⟨h.slice, h.due⟩
  | resched => exact fun k h => ⟨h.slice, fun hfalse => by cases hfalse⟩
  | queue => exact fun k slot h => ⟨h.slice, fun hfalse => by cases hfalse⟩
  | bytes => exact fun k m _ h => ⟨h.slice, h.due⟩
  | memory => exact fun k m h => ⟨h.slice, h.due⟩
  | own => exact fun k f _ h => ⟨h.slice, h.due⟩
  | heap => exact fun k addr _ _ h => ⟨h.slice, h.due⟩
  | placement => exact fun k next id h => ⟨h.slice, h.due⟩
  | files => exact fun k fs _ h => ⟨h.slice, h.due⟩
  | descriptor => exact fun k files h => ⟨h.slice, h.due⟩
  | terminal => exact fun k tty h => ⟨h.slice, h.due⟩
  | table => exact fun k procs h => ⟨h.slice, h.due⟩

theorem due_permits (e : Edit) : Permits (Keeps Due) e := by
  cases e with
  | irqs => exact fun k irqs rest h => takeIrqs_due irqs h
  | resched => exact fun k _ => rfl
  | queue => exact fun k slot _ => rfl
  | bytes => exact fun k m _ h => h
  | memory => exact fun k m h => h
  | own => exact fun k f _ h => h
  | heap => exact fun k addr _ _ h => h
  | placement => exact fun k next id h => h
  | files => exact fun k fs _ h => h
  | descriptor => exact fun k files h => h
  | terminal => exact fun k tty h => h
  | table => exact fun k procs h => h

theorem reschedule_slice (h : SliceSound k) : SliceSound (reschedule k) := by
  unfold reschedule
  split_ifs with hneed
  · exact ⟨h.slice, fun _ => Nat.lt_add_of_pos_right (by decide)⟩
  · exact h

theorem syscall_slice (hready : Ready k) (h : SliceSound k) (hrun : syscall cfg t k = .ok r k') :
    SliceSound k' := by
  have htrap : SliceSound (trapState t k) := ⟨h.slice, h.due⟩
  cases syscall_after hready hrun with
  | returned v k₁ call final =>
      have hk₁ : SliceSound k₁ := dispatch_footprint call (fun _ _ e _ => slice_permits e) htrap
      have htail := reschedule_slice (k := setSyscallSaved k.currentSlot (tailSave t k) v k₁)
        ⟨hk₁.slice, hk₁.due⟩
      rw [final]
      exact ⟨htail.slice, htail.due⟩
  | exited call final =>
      rw [final]
      exact ⟨h.slice, fun hfalse => by cases hfalse⟩

theorem step_slice (e : Event) (k : Kernel) (o : Option Resumed) (k' : Kernel)
    (hstep : step cfg e k = some (o, k')) (h : Ready k ∧ SliceSound k) :
    Ready k' ∧ SliceSound k' := by
  refine ⟨step_ready e k o k' hstep h.1, ?_⟩
  cases e with
  | irq i =>
      obtain ⟨-, rfl⟩ := step_irq_ok hstep
      exact takeIrq_slice i h.2
  | syscall t =>
      obtain ⟨r, -, hrun⟩ := step_syscall_ok hstep
      exact syscall_slice h.1 h.2 hrun

theorem boot_slice (staleTop boxedTop : UInt64) (k : Kernel) :
    SliceSound (boot staleTop boxedTop k) :=
  ⟨rfl, fun _ => Nat.lt_add_of_pos_right (by decide)⟩

theorem Reachable.slice (h : Reachable cfg k) : SliceSound k := by
  obtain ⟨staleTop, boxedTop, k₀, tr, hrun⟩ := h
  exact (hrun.invariant step_slice ⟨boot_ready staleTop boxedTop k₀,
    boot_slice staleTop boxedTop k₀⟩).2

theorem tailState_of_not_due {v : UInt64} {slot : ℕ} (h : k₁.needResched = false) :
    tailState slot t k v k₁ =
      setCurrentSlot slot (setSyscallSaved k.currentSlot (tailSave t k) v k₁) := by
  have hsame : ¬(setSyscallSaved k.currentSlot (tailSave t k) v k₁).needResched = true := by
    rw [show (setSyscallSaved k.currentSlot (tailSave t k) v k₁).needResched =
      k₁.needResched from rfl, h]
    decide
  rw [tailState, reschedule, if_neg hsame]

theorem tailState_of_due {v : UInt64} {slot front : ℕ} {rest : List ℕ}
    (h : k₁.needResched = true) (hq : k₁.sched.runnable = front :: rest) :
    (tailState slot t k v k₁).sched.runnable = rest ++ [front] := by
  have hsame : (setSyscallSaved k.currentSlot (tailSave t k) v k₁).needResched = true := h
  rw [tailState, reschedule, if_pos hsame]
  simp only [setCurrentSlot, rotateRunnable, setSyscallSaved, Kernel.updateProc, hq]

/-- If the caller runs on after a call, though another process waits, the queue
was not rotated. -/
theorem kept_turn {b : ℕ} (h : Ready k) (hrun : syscall cfg t k = .ok r k')
    (hkeep : r.slot = k.currentSlot) (hb : Alive k' b) (hne : b ≠ k.currentSlot) :
    ∃ v k₁, dispatch cfg t k = .ok (.returned v) k₁ ∧ k₁.needResched = false ∧
      k' = setCurrentSlot r.slot (setSyscallSaved k.currentSlot (tailSave t k) v k₁) := by
  have hsw := syscall_switched h hrun
  have hfront := hsw.ready.front
  rw [hsw.resumes.current, hkeep] at hfront
  obtain ⟨rest, hq⟩ := Ready.cons h
  cases syscall_after h hrun with
  | exited call final =>
      have hgone : k.currentSlot ∉ k'.sched.runnable := by
        rw [final]
        simp [exitLeft, setCurrentSlot, noteYield, dropRunnable]
      exact absurd (List.mem_of_head? hfront) hgone
  | returned v k₁ call final =>
      have hneed : k₁.needResched = false := by
        by_contra hdue
        obtain ⟨added, hadded⟩ := Outcome.runnable (dispatch_outcome call).2
        rw [hq, List.cons_append] at hadded
        have hrot : k'.sched.runnable = (rest ++ added) ++ [k.currentSlot] := by
          rw [final]
          exact tailState_of_due (by simpa using hdue) hadded
        have hmem := (hsw.ready.queue.mem_iff b).mpr hb
        have hnodup := hsw.ready.queue.nodup
        rw [hrot] at hfront hmem hnodup
        -- the caller went to the back, so it is at the front only if nobody else waits
        cases hwait : rest ++ added with
        | nil => simp [hwait, hne] at hmem
        | cons c others =>
            rw [hwait, List.cons_append, List.head?_cons, Option.some.injEq] at hfront
            rw [hwait, hfront] at hnodup
            simp at hnodup
      refine ⟨v, k₁, call, hneed, ?_⟩
      rw [final, tailState_of_not_due hneed]

end

/-- A process that runs on after a system call, though another one waits, did not
ask to be rescheduled, was not asked to, and has used less than a slice of 12
ticks since the last rotation. -/
theorem slice_limits_turn (cfg : Config) (k k' : Kernel) (t : Trap) (r : Resumed) (b : ℕ)
    (hk : Reachable cfg k) (hstep : step cfg (.syscall t) k = some (some r, k'))
    (hkeep : r.slot = k.currentSlot) (hb : Alive k' b) (hne : b ≠ k.currentSlot) :
    k.needResched = false ∧ sysno (t.reg .rax) ≠ some .schedYield ∧
      k'.ticks < k'.sched.lastStartedTick + 12 := by
  have hready := Reachable.ready hk
  obtain ⟨r', hr', hrun⟩ := step_syscall_ok hstep
  cases hr'
  obtain ⟨v, k₁, hcall, hneed, hk'⟩ := kept_turn hready hrun hkeep hb hne
  have hk₁ : SliceSound k₁ :=
    dispatch_footprint hcall (fun _ _ e _ => slice_permits e) ⟨(Reachable.slice hk).slice,
      (Reachable.slice hk).due⟩
  refine ⟨?_, ?_, ?_⟩
  · cases hdue : k.needResched with
    | false => rfl
    | true =>
        have hstill : Due k₁ := dispatch_footprint hcall (fun _ _ e _ => due_permits e) hdue
        rw [Due, hneed] at hstill
        cases hstill
  · intro hyield
    rw [dispatch_eq, syscallDispatch, hyield] at hcall
    obtain ⟨v', -, hyielded⟩ := returning_ok hcall
    simp only [sysSchedYield, bind_run, modify_run, pure_run, EStateM.Result.ok.injEq] at hyielded
    rw [← hyielded.2] at hneed
    cases hneed
  · rw [hk']
    exact hk₁.due hneed

/-- The first child asks for its pid and runs on, while its parent waits. -/
theorem slice_limits_turn_getpid : ∃ k k' r, Reachable machine k ∧
    step machine (.syscall (callTrap 0x44444444C000 0 39 0)) k = some (some r, k') ∧ r.slot = 1 ∧
    Alive k' 0 ∧ k'.ticks < k'.sched.lastStartedTick + 12 := by
  have hall : ((step machine (.syscall forkTrap) started).bind fun x₁ =>
      (step machine (.syscall (callTrap 0x44444444C000 0 39 0)) x₁.2).bind fun x₂ =>
      some (x₁.2.currentSlot, x₂.1.map Resumed.slot, x₂.2.sched.runnable)) =
        some (1, some 1, [1, 0]) := by decide +kernel
  simp only [Option.bind_eq_some_iff, Option.some.injEq, Prod.mk.injEq,
    Option.map_eq_some_iff] at hall
  obtain ⟨⟨_, k⟩, h₁, ⟨_, k'⟩, h₂, hcur, ⟨r, rfl, hr⟩, hqueue⟩ := hall
  have hk : Reachable machine k := started_reachable.step h₁
  have hlive : Alive k' 0 :=
    ((Reachable.ready (hk.step h₂)).queue.mem_iff 0).mp (by rw [hqueue]; simp)
  have hslice := slice_limits_turn machine k k' _ r 0 hk h₂ (hr.trans hcur.symm) hlive
    (by rw [hcur]; decide)
  exact ⟨k, k', r, hk, h₂, hr, hlive, hslice.2.2⟩

/-! ## The idle loop -/

section
variable {cfg : Config} {t : Trap} {k k' : Kernel}

/-- With an empty queue the loop waits for ever: no handler makes a process runnable. -/
theorem waitTurns_idle (n : ℕ) (hq : k.sched.runnable = []) :
    ∃ k', waitTurns pollRunnable n k = .error .blocked k' := by
  induction n generalizing k with
  | zero => exact ⟨k, rfl⟩
  | succ n ih =>
      have hpoll : pollRunnable k = .ok none k := by
        simp only [pollRunnable, bind_run, get_run, modify_run, pure_run, hq, List.dropWhile_nil,
          List.head?_nil]
        rw [← hq]
      rw [waitTurns, bind_of_ok hpoll]
      cases hw : k.waits with
      | nil =>
          have hhlt : enableAndHlt k = .error .blocked k := by
            simp [enableAndHlt, bind_run, hw]
          exact ⟨k, bind_of_error hhlt _⟩
      | cons irqs rest =>
          have hhlt : enableAndHlt k = .ok () (takeIrqs irqs { k with waits := rest }) := by
            simp [enableAndHlt, bind_run, hw]
          have hempty : (takeIrqs irqs { k with waits := rest }).sched.runnable = [] := by
            rw [(quiet_takeIrqs irqs _).runnable]
            exact hq
          obtain ⟨k', hrest⟩ := ih hempty
          exact ⟨k', (bind_of_ok hhlt _).trans hrest⟩

/-- With a live process in the queue the front is resumed, and no time is spent. -/
theorem pickNextAndRestore_live {m : Machine Glob} {c : ℕ} {rest : List ℕ} (h : QueueSound k)
    (hq : k.sched.runnable = c :: rest) :
    ∃ r, r.slot = c ∧ pickNextAndRestore cfg m k = .ok r (setCurrentSlot c k) := by
  obtain ⟨p, hp, halive⟩ := (h.mem_iff c).mp (by rw [hq]; exact List.mem_cons_self)
  have hloop : waitLoop pollRunnable k = .ok c k := by
    simp only [waitLoop, waitTurns, bind_run, get_run,
      pollRunnable_front hq ⟨p, hp, halive⟩, pure_run]
  have hp' : (setCurrentSlot c k).proc c = some p := hp
  refine ⟨⟨c, p.save, resume m (kstackTopForSlot (setCurrentSlot c k) c)
    (pendingRaxForSlot (setCurrentSlot c k) c) cfg.syscallUserReturn p.save⟩, rfl, ?_⟩
  rw [pickNextAndRestore, bind_of_ok hloop]
  simp only [bind_run, modify_run, get_run, hp', pure_run]

theorem pickNextAndRestore_idle {m : Machine Glob} (hq : k.sched.runnable = []) :
    ∃ k', pickNextAndRestore cfg m k = .error .blocked k' := by
  obtain ⟨k', hloop⟩ := waitTurns_idle (k.waits.length + 1) hq
  have hwait : waitLoop pollRunnable k = .error .blocked k' := hloop
  exact ⟨k', bind_of_error hwait _⟩

theorem exitAndSchedule_left (m : Machine Glob) :
    exitAndSchedule cfg m (exitStatus t) (trapState t k) =
      pickNextAndRestore cfg m (exitLeft t k) := rfl

theorem exit_ok (hexit : sysno (t.reg .rax) = some .exit) {r : Resumed}
    (hpick : pickNextAndRestore cfg (dispatchMachine cfg t k) (exitLeft t k) = .ok r k') :
    syscall cfg t k = .ok r k' := by
  apply syscall_of_switched
  rw [← exitAndSchedule_left] at hpick
  rw [dispatch_eq, syscallDispatch, hexit]
  exact bind_of_ok hpick _

theorem exit_error (hexit : sysno (t.reg .rax) = some .exit) {e : Stop}
    (hpick : pickNextAndRestore cfg (dispatchMachine cfg t k) (exitLeft t k) = .error e k') :
    syscall cfg t k = .error e k' := by
  apply syscall_of_error
  rw [← exitAndSchedule_left] at hpick
  rw [dispatch_eq, syscallDispatch, hexit]
  exact bind_of_error hpick _

/-- The caller of a call that has returned is alive, so somebody is resumed. -/
theorem syscall_resumes {v : UInt64} {k₁ : Kernel} (h : Ready k)
    (hcall : dispatch cfg t k = .ok (.returned v) k₁) :
    ∃ r k', syscall cfg t k = .ok r k' ∧ k'.waits = k₁.waits := by
  have hready₁ := (h.of_quiet (quiet_trapState t k)).of_effect (dispatch_outcome hcall).2.effect
  generalize hm : run (entryMachine k t t.tailMem) syscallEntry = m
  have hrun := syscall_of_returned hcall
  rw [hm, completeSyscallAndSchedule] at hrun
  simp only [bind_run, modify_run] at hrun
  have hsaved := hready₁.of_quiet
    (quiet_setSyscallSaved k₁ (saveFromDispatchRsp m.mem (m.reg .rsp)) v)
  have hwaits : (setSyscallSaved k₁.currentSlot (saveFromDispatchRsp m.mem (m.reg .rsp)) v
    k₁).waits = k₁.waits := rfl
  generalize setSyscallSaved k₁.currentSlot (saveFromDispatchRsp m.mem (m.reg .rsp)) v k₁ = k₂
    at hrun hsaved hwaits
  have hcaller : k₂.currentSlot ∈ (reschedule k₂).sched.runnable :=
    (reschedule_perm k₂).mem_iff.mpr (List.mem_of_head? hsaved.front)
  cases hq : (reschedule k₂).sched.runnable with
  | nil =>
      rw [hq] at hcaller
      cases hcaller
  | cons c rest =>
      obtain ⟨r, -, hpick⟩ := pickNextAndRestore_live hsaved.queue.reschedule hq
      exact ⟨r, _, hrun.trans hpick, (reschedule_waits k₂).trans hwaits⟩

end

end Rockos.FairTurns
