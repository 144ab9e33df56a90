import Rockos.RunQueue

/-!
# One system call as a whole

A system call runs the dispatcher, saves the caller, rotates the queue if it is
due, and resumes the front of the queue; `exit` takes the caller off the queue
instead. `Turn` says what that does to every table entry and to the queue. The
invariants of the following modules are derived from it, without going back to
the code.
-/
namespace Rockos.Turns
open FallibleState PhysMemory Paging StackMachine SyscallFrame KernelState ProcessCalls
open Syscall SyscallEffects RunQueue

/-- The machine when `syscall_dispatch` is called. -/
def dispatchMachine (cfg : Config) (t : Trap) (k : Kernel) : Machine Glob :=
  run (entryMachine k t t.kmem) (syscallEntry ++ [.call cfg.afterDispatch])

/-- The call of `syscall_dispatch`. -/
def dispatch (cfg : Config) (t : Trap) (k : Kernel) : EStateM.Result Stop Kernel Dispatched :=
  let m := dispatchMachine cfg t k
  syscallDispatch cfg t m (m.reg .rdi) (m.reg .rsi) (m.reg .rdx) (m.reg .rcx) (trapState t k)

/-- The context the tail saves for the caller. -/
def tailSave (t : Trap) (k : Kernel) : SyscallSaved :=
  let m := run (entryMachine k t t.tailMem) syscallEntry
  saveFromDispatchRsp m.mem (m.reg .rsp)

/-- The context `sys_fork` takes for its caller's. -/
def forkSave (cfg : Config) (t : Trap) (k : Kernel) : SyscallSaved :=
  saveFromDispatchRsp (dispatchMachine cfg t k).mem t.forkRsp

/-- The argument of `exit`. -/
def exitStatus (t : Trap) : Int32 := (t.reg .rdi).toUInt32.toInt32

/-- A `fork` has come far enough to add a process. -/
structure Spawned (cfg : Config) (t : Trap) (k : Kernel) (child : Process) : Prop where
  call : sysno (t.reg .rax) = some .fork
  copied : ∃ m, mapChildStackAndCopy cfg.walker (forkSave cfg t k) (trapState t k).mem = .ok () m
  pid : allocPid k.procs = some child.pid
  parent : child.parent = some (currentPid k)
  alive : child.exitCode = none
  rax : child.pendingRax = 0
  save : child.save = childSave (forkSave cfg t k)
  kstack : child.kstackTop = t.childKstackTop

/-- What the dispatcher has done to the table when it returns `v`. -/
inductive Outcome (cfg : Config) (t : Trap) (k : Kernel) (v : UInt64) (k₁ : Kernel) : Prop
  | quiet (h : Quiet (trapState t k) k₁)
  | forked (slot : ℕ) (child : Process) (new : Spawned cfg t k child)
      (value : v = UInt64.ofNat child.pid) (h : Forked slot child (trapState t k) k₁)
  | reaped (slot : ℕ) (p : Process) (call : sysno (t.reg .rax) = some .wait4)
      (h : Reaped slot p (trapState t k) k₁)

/-- What a system call does: it comes back with a value, or it is an exit. -/
inductive Turn (cfg : Config) (t : Trap) (k k' : Kernel) : Prop
  | returned (v : UInt64) (k₁ : Kernel) (call : dispatch cfg t k = .ok (.returned v) k₁)
      (noExit : sysno (t.reg .rax) ≠ some .exit) (outcome : Outcome cfg t k v k₁)
      (proc : ∀ s, k'.proc s = if s = k.currentSlot
        then (k₁.proc s).map fun p => { p with save := tailSave t k, pendingRax := v }
        else k₁.proc s)
      (runnable : k'.sched.runnable = (reschedule k₁).sched.runnable)
  | exited (call : sysno (t.reg .rax) = some .exit)
      (proc : ∀ s, k'.proc s = if s = k.currentSlot
        then (k.proc s).map fun p => { p with exitCode := some (exitStatus t) } else k.proc s)
      (runnable : k'.sched.runnable = k.sched.runnable.filter (· ≠ k.currentSlot))

section
variable {cfg : Config} {t : Trap} {k k₁ k' : Kernel} {v : UInt64} {r : Resumed}

theorem Outcome.effect (h : Outcome cfg t k v k₁) : Effect (trapState t k) k₁ := by
  cases h with
  | quiet h => exact .quiet h
  | forked slot child _ _ h => exact .forked slot child h
  | reaped slot p _ h => exact .reaped slot p h

/-- The dispatcher never moves the current slot. -/
theorem Outcome.slot (h : Outcome cfg t k v k₁) : k₁.currentSlot = k.currentSlot :=
  (effect_current h.effect).trans rfl

theorem dispatch_eq (cfg : Config) (t : Trap) (k : Kernel) : dispatch cfg t k =
    syscallDispatch cfg t (dispatchMachine cfg t k) (t.reg .rax) (t.reg .rdi) (t.reg .rsi)
      (t.reg .rdx) (trapState t k) := by
  obtain ⟨hrdi, hrsi, hrdx, hrcx⟩ := entryArgs k t cfg.afterDispatch
  simp only [dispatch, dispatchMachine, hrdi, hrsi, hrdx, hrcx]

theorem dispatch_outcome (h : dispatch cfg t k = .ok (.returned v) k₁) :
    sysno (t.reg .rax) ≠ some .exit ∧ Outcome cfg t k v k₁ := by
  rw [dispatch_eq] at h
  rcases syscallDispatch_cases h with ⟨v', -, hne, -, -⟩ | ⟨r, hd, -, -⟩
  swap
  · cases hd
  refine ⟨hne, ?_⟩
  by_cases hfork : sysno (t.reg .rax) = some .fork
  · rw [syscallDispatch, hfork] at h
    obtain ⟨v', hv, hrun⟩ := returning_ok h
    cases hv
    rcases sysFork_cases hrun with ⟨-, m, rfl⟩ | ⟨pid, parent, slot, hcopy, hpid, -, hv, hf⟩
    · exact .quiet (quiet_of_eq rfl rfl rfl rfl)
    · refine .forked slot _ ⟨hfork, hcopy, ?_, rfl, rfl, rfl, rfl, rfl⟩ hv hf
      exact hpid
  by_cases hwait : sysno (t.reg .rax) = some .wait4
  · rw [syscallDispatch, hwait] at h
    obtain ⟨v', hv, hrun⟩ := returning_ok h
    rcases sysWait4_cases hrun with rfl | ⟨slot, p, hreap⟩
    · exact .quiet (refl _)
    · exact .reaped slot p hwait hreap
  exact .quiet ((ownCall_within allows_quiet _ _ _ _ _ _ _ hfork hwait hne).ok h)

theorem reschedule_setSyscallSaved (slot : ℕ) (save : SyscallSaved) (rax : UInt64) (k : Kernel) :
    (reschedule (setSyscallSaved slot save rax k)).sched.runnable =
      (reschedule k).sched.runnable := by
  unfold reschedule
  by_cases hneed : k.needResched = true
  · rw [if_pos hneed, if_pos (show (setSyscallSaved slot save rax k).needResched = true from hneed)]
    rfl
  · rw [if_neg hneed,
      if_neg (show ¬(setSyscallSaved slot save rax k).needResched = true from hneed)]
    rfl

/-- The front of the queue runs next. -/
theorem pickNextAndRestore_slot {m : Machine Glob} (h : QueueSound k)
    (hrun : pickNextAndRestore cfg m k = .ok r k') :
    k'.sched.runnable = k.sched.runnable ∧ ∀ s, k'.proc s = k.proc s := by
  obtain ⟨p, -, -, -, -, -, rfl⟩ := pickNextAndRestore_ok h hrun
  exact ⟨rfl, fun _ => rfl⟩

theorem syscall_turn (h : Ready k) (hrun : syscall cfg t k = .ok r k') : Turn cfg t k k' := by
  obtain ⟨k₁, d, hdisp, hrest⟩ := syscall_ok hrun
  have hready := h.of_quiet (quiet_trapState t k)
  cases d with
  | returned v =>
      have hcall : dispatch cfg t k = .ok (.returned v) k₁ := by
        rw [dispatch_eq]
        exact hdisp
      obtain ⟨hne, hout⟩ := dispatch_outcome hcall
      obtain ⟨v', hv, htail⟩ := hrest.resolve_left fun hd => by cases hd.1
      cases hv
      have hready₁ := hready.of_effect hout.effect
      obtain ⟨-, -, -, hproc⟩ := completeSyscallAndSchedule_ready hready₁ htail
      refine .returned v k₁ hcall hne hout (fun s => ?_) ?_
      · rw [hproc s, hout.slot]
        rfl
      · simp only [completeSyscallAndSchedule, bind_run, modify_run] at htail
        have hsound :=
          (hready₁.queue.of_quiet (quiet_setSyscallSaved k₁ (tailSave t k) v)).reschedule
        obtain ⟨hqueue, -⟩ := pickNextAndRestore_slot hsound htail
        rw [hqueue]
        exact reschedule_setSyscallSaved _ _ _ _
  | switched r' =>
      obtain ⟨hd, rfl⟩ := hrest.resolve_right (by rintro ⟨v, hv, -⟩; cases hv)
      cases hd
      rcases syscallDispatch_cases hdisp with ⟨v, hv, -⟩ | ⟨r'', hr, hexit, hsched⟩
      · cases hv
      · cases hr
        simp only [exitAndSchedule, scheduleAfterExit, bind_run, modify_run] at hsched
        obtain ⟨hqueue, hproc⟩ := pickNextAndRestore_slot (hready.exit _) hsched
        refine .exited hexit (fun s => ?_) hqueue
        rw [hproc s]
        exact proc_updateProc (trapState t k) _ _ s

/-! ## The table after a call -/

/-- The caller's entry before and after a call that returns. -/
structure Answered (cfg : Config) (t : Trap) (k : Kernel) (p q : Process) : Prop where
  noExit : sysno (t.reg .rax) ≠ some .exit
  caller : k.current = some p
  same : identity q = identity p
  value : ∃ k₁, dispatch cfg t k = .ok (.returned q.pendingRax) k₁
  save : q.save = tailSave t k

/-- A call rewrites the caller's entry and at most one other: it fills a free
one, or empties that of a zombie. -/
inductive TableEdit (cfg : Config) (t : Trap) (k k' : Kernel) : Prop
  | quiet (p q : Process) (own : Answered cfg t k p q)
      (proc : k'.proc = Function.update k.proc k.currentSlot (some q))
  | forked (p q : Process) (own : Answered cfg t k p q) (slot : ℕ) (child : Process)
      (new : Spawned cfg t k child) (free : k.proc slot = none)
      (proc : k'.proc = Function.update (Function.update k.proc slot (some child)) k.currentSlot
        (some q))
  | reaped (p q : Process) (own : Answered cfg t k p q) (slot : ℕ) (zombie : Process)
      (other : slot ≠ k.currentSlot) (held : k.proc slot = some zombie)
      (dead : zombie.exitCode ≠ none)
      (proc : k'.proc = Function.update (Function.update k.proc slot none) k.currentSlot (some q))
  | exited (p : Process) (call : sysno (t.reg .rax) = some .exit) (caller : k.current = some p)
      (alive : p.exitCode = none)
      (proc : k'.proc = Function.update k.proc k.currentSlot
        (some { p with exitCode := some (exitStatus t) }))

/-- What the tail writes is not part of the identity. -/
theorem identity_saved (p : Process) (saved : SyscallSaved) (rax : UInt64) :
    identity { p with save := saved, pendingRax := rax } = identity p := rfl

theorem edited_slot {f f' : ℕ → Option Process} {slot : ℕ} {p : Process} {g : Process → Process}
    (hp : f slot = some p) (hedit : ∀ s, f' s = if s = slot then (f s).map g else f s) :
    f' = Function.update f slot (some (g p)) := by
  rw [Function.eq_update_iff]
  constructor
  · rw [hedit, if_pos rfl, hp]
    rfl
  · intro s hs
    rw [hedit, if_neg hs]

/-- An edit of one slot, after another slot has been filled or emptied. -/
theorem edited_slot_after {f f₁ f' : ℕ → Option Process} {slot other : ℕ} {p : Process}
    {o : Option Process} {g : Process → Process} (hne : slot ≠ other) (hp : f slot = some p)
    (hother : ∀ s, f₁ s = if s = other then o else f s)
    (hedit : ∀ s, f' s = if s = slot then (f₁ s).map g else f₁ s) :
    f' = Function.update (Function.update f other o) slot (some (g p)) := by
  have hleft : f₁ = Function.update f other o := by
    funext s
    rw [hother s, Function.update_apply]
  rw [← hleft]
  apply edited_slot _ hedit
  rw [hother, if_neg hne]
  exact hp

/-- A forked process never gets the caller's slot. -/
theorem slot_ne_of_free {slot : ℕ} {p : Process} (hcaller : k.current = some p)
    (hfree : k.proc slot = none) : k.currentSlot ≠ slot := by
  rintro rfl
  rw [Kernel.current, hfree] at hcaller
  cases hcaller

theorem turn_edit (h : Ready k) (hturn : Turn cfg t k k') : TableEdit cfg t k k' := by
  obtain ⟨p, hp, halive⟩ := h.alive
  cases hturn with
  | exited call hproc _ => exact .exited p call hp halive (edited_slot hp hproc)
  | returned v k₁ call noExit outcome hproc _ =>
      have hown : ∀ p₁ : Process, identity p₁ = identity p →
          Answered cfg t k p { p₁ with save := tailSave t k, pendingRax := v } := fun p₁ hid =>
        ⟨noExit, hp, (identity_saved p₁ _ _).trans hid, ⟨k₁, call⟩, rfl⟩
      -- the tail edits the entry that the dispatcher left for the caller
      cases outcome with
      | quiet hq =>
          have hid := hq.own
          rw [Kernel.current, hq.slot] at hid
          obtain ⟨p₁, hp₁, hid⟩ := Option.map_eq_some_iff.mp
            (hid.trans (congrArg (Option.map identity) hp))
          have hleft : k₁.proc = Function.update k.proc k.currentSlot (some p₁) :=
            Function.eq_update_iff.mpr ⟨hp₁, fun s hs => hq.other s hs⟩
          have hedit := edited_slot hp₁ hproc
          rw [hleft] at hedit
          exact .quiet p _ (hown p₁ hid) (hedit.trans (Function.update_idem ..))
      | forked slot child new value hf =>
          have hne : k.currentSlot ≠ slot := slot_ne_of_free hp hf.free
          exact .forked p _ (hown p rfl) slot child new hf.free
            (edited_slot_after hne hp hf.proc hproc)
      | reaped slot z hcall hr =>
          have hz : k.proc slot = some z := hr.zombie.1
          have hne : k.currentSlot ≠ slot := by
            rintro rfl
            rw [hp, Option.some.injEq] at hz
            exact hr.zombie.2 (hz ▸ halive)
          exact .reaped p _ (hown p rfl) slot z hne.symm hz hr.zombie.2
            (edited_slot_after hne hp hr.proc hproc)

theorem currentPid_of_caller {p : Process} (hcaller : k.current = some p) :
    currentPid k = p.pid := by
  rw [currentPid, hcaller]
  rfl

/-- A call leaves the entries of other live processes alone. -/
theorem TableEdit.other (he : TableEdit cfg t k k') {s : ℕ} {p : Process}
    (hs : s ≠ k.currentSlot) (hp : k.proc s = some p) (halive : p.exitCode = none) :
    k'.proc s = some p := by
  cases he with
  | quiet _ q _ proc => rw [proc, Function.update_of_ne hs, hp]
  | forked _ q _ slot child _ free proc =>
      have hslot : s ≠ slot := by
        rintro rfl
        rw [free] at hp
        cases hp
      rw [proc, Function.update_of_ne hs, Function.update_of_ne hslot, hp]
  | reaped _ q _ slot zombie _ held dead proc =>
      have hslot : s ≠ slot := by
        rintro rfl
        rw [held, Option.some.injEq] at hp
        exact dead (hp ▸ halive)
      rw [proc, Function.update_of_ne hs, Function.update_of_ne hslot, hp]
  | exited _ _ _ _ proc => rw [proc, Function.update_of_ne hs, hp]

/-- The caller's entry, when another slot has been filled or emptied. -/
theorem caller_after {slot : ℕ} {p : Process} (hcaller : k.current = some p)
    (hne : k.currentSlot ≠ slot) (o : Option Process) :
    Function.update k.proc slot o k.currentSlot = some p := by
  rw [Function.update_of_ne hne]
  exact hcaller

/-- Writing to a filled slot fills no other. -/
theorem update_filled_none {f : ℕ → Option Process} {slot s : ℕ} {p : Process}
    (hp : f slot = some p) (q : Process) (hs : f s = none) :
    Function.update f slot (some q) s = none := by
  have hne : s ≠ slot := by
    intro heq
    rw [heq, hp] at hs
    cases hs
  rw [Function.update_of_ne hne, hs]

/-- What an entry keeps from the one before it. -/
def Continues (q q' : Process) : Prop :=
  q'.parent = q.parent ∧ q'.kstackTop = q.kstackTop ∧ (q'.exitCode = none → q.exitCode = none)

theorem Continues.refl (q : Process) : Continues q q := ⟨rfl, rfl, fun h => h⟩

theorem update_continues {f : ℕ → Option Process} {slot s : ℕ} {p q q' : Process}
    (hp : f slot = some p) (hq : Continues p q)
    (hs : Function.update f slot (some q) s = some q') :
    ∃ q₀, f s = some q₀ ∧ Continues q₀ q' := by
  by_cases heq : s = slot
  · subst heq
    rw [Function.update_self, Option.some.injEq] at hs
    subst hs
    exact ⟨p, hp, hq⟩
  · rw [Function.update_of_ne heq] at hs
    exact ⟨q', hs, .refl q'⟩

theorem Answered.continues {p q : Process} (h : Answered cfg t k p q) : Continues p q := by
  have hid := h.same
  simp only [identity, Identity.mk.injEq] at hid
  exact ⟨hid.2.1, hid.2.2.2, fun hnone => hid.2.2.1 ▸ hnone⟩

/-- Every entry was there before, with the same parent and kernel stack, or is a
new child. -/
theorem TableEdit.origin (he : TableEdit cfg t k k') {s : ℕ} {q' : Process}
    (hq' : k'.proc s = some q') :
    (∃ q, k.proc s = some q ∧ q'.parent = q.parent ∧ q'.kstackTop = q.kstackTop ∧
      (q'.exitCode = none → q.exitCode = none)) ∨
    (k.proc s = none ∧ Spawned cfg t k q') := by
  cases he with
  | quiet p q own proc =>
      rw [proc] at hq'
      exact .inl (update_continues own.caller own.continues hq')
  | forked p q own slot child new free proc =>
      rw [proc] at hq'
      have hne := slot_ne_of_free own.caller free
      by_cases hs : s = slot
      · subst hs
        rw [Function.update_of_ne hne.symm, Function.update_self, Option.some.injEq] at hq'
        exact .inr ⟨free, hq' ▸ new⟩
      · obtain ⟨q₀, h₀, hkept⟩ :=
          update_continues (caller_after own.caller hne _) own.continues hq'
        rw [Function.update_of_ne hs] at h₀
        exact .inl ⟨q₀, h₀, hkept⟩
  | reaped p q own slot zombie other held dead proc =>
      rw [proc] at hq'
      obtain ⟨q₀, h₀, hkept⟩ :=
        update_continues (caller_after own.caller other.symm _) own.continues hq'
      have hs : s ≠ slot := by
        rintro rfl
        simp at h₀
      rw [Function.update_of_ne hs] at h₀
      exact .inl ⟨q₀, h₀, hkept⟩
  | exited p call caller alive proc =>
      rw [proc] at hq'
      have hkept : Continues p { p with exitCode := some (exitStatus t) } :=
        ⟨rfl, rfl, fun _ => alive⟩
      exact .inl (update_continues caller hkept hq')

/-- At most one slot is filled. -/
theorem edit_filled_unique (he : TableEdit cfg t k k') {s s' : ℕ} {q q' : Process}
    (hfree : k.proc s = none) (hq : k'.proc s = some q) (hfree' : k.proc s' = none)
    (hq' : k'.proc s' = some q') : s = s' := by
  cases he with
  | quiet p x own proc =>
      rw [proc, update_filled_none own.caller x hfree] at hq
      cases hq
  | exited p call caller alive proc =>
      rw [proc, update_filled_none caller _ hfree] at hq
      cases hq
  | forked p x own slot child new free proc =>
      have hcaller := caller_after own.caller (slot_ne_of_free own.caller free) (some child)
      have honly : ∀ {u r}, k.proc u = none → k'.proc u = some r → u = slot := by
        intro u r hu hr
        by_contra hslot
        have hempty : Function.update k.proc slot (some child) u = none := by
          rw [Function.update_of_ne hslot, hu]
        rw [proc, update_filled_none hcaller x hempty] at hr
        cases hr
      exact (honly hfree hq).trans (honly hfree' hq').symm
  | reaped p x own slot zombie other held dead proc =>
      have hempty : Function.update k.proc slot none s = none := by
        by_cases hs : s = slot
        · simp [hs]
        · rw [Function.update_of_ne hs, hfree]
      rw [proc, update_filled_none (caller_after own.caller other.symm none) x hempty] at hq
      cases hq

end

/-- A system call with one argument, by a process whose kernel stack ends at
`top` and whose user stack pointer is eight bytes below the first stack's end.
A child that it creates gets the kernel stack that ends at `childTop`. -/
def callTrap (top childTop n arg : UInt64) : Trap :=
  { trapWith (fun | .rax => n | .rdi => arg | .rsp => 0x401FF8 | .rcx => 0x400078 | .r11 => 0x202
                  | _ => 0) [] with
    forkRsp := slot top 11
    childKstackTop := childTop }

end Rockos.Turns
