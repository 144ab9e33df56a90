import Rockos.Turns

/-!
# Saving and resuming a process

A process waits with its context in the table. Nobody writes to the entry of a
live process that is not running, so the first time it is resumed, however much
later, it is resumed from the context that stood there when it stopped running.
The rest of the module says which context that is after an ordinary system
call, for the child of a `fork`, and after an `execve`.

The layouts of `SyscallFrame` decide all three. The tail reads the frame one
word too high and the return stub pops it one word too low. For a context that
the tail saved the two cancel, up to `r14` and `r15`. A context that `fork`
builds has only the second shift in it, and of the one that `execve` builds
nothing is left, because the tail saves the caller again.
-/
namespace Rockos.ContextSwitch
open FallibleState PhysMemory Paging ElfLoader StackMachine SyscallFrame KernelState
open ProcessCalls Syscall SyscallEffects RunQueue Turns Runs

/-- The first time a slot is resumed. -/
def firstResumed (slot : ℕ) (tr : List (Event × Option Resumed)) : Option Resumed :=
  (tr.filterMap Prod.snd).find? fun r => r.slot = slot

/-- The process is resumed from its entry in the table. -/
structure ResumedFrom (cfg : Config) (p : Process) (r : Resumed) : Prop where
  saved : r.saved = p.save
  context : ∃ m, r.context = resume m p.kstackTop p.pendingRax cfg.syscallUserReturn p.save

section
variable {cfg : Config} {k k₁ k' : Kernel} {t : Trap} {r₁ r : Resumed} {p : Process} {slot : ℕ}
  {tr : List (Event × Option Resumed)}

theorem resumes_from_entry (h : Resumes cfg r k) (hp : k.proc r.slot = some p) :
    ResumedFrom cfg p r := by
  obtain ⟨q, m, hq, hsaved, hctx⟩ := h.context
  rw [hp, Option.some.injEq] at hq
  subst hq
  exact ⟨hsaved, m, hctx⟩

/-- A waiting process keeps its entry until it is resumed from it. -/
theorem waiting_resumed (hrun : Run (step cfg) k tr k') (h : Ready k)
    (hslot : slot ≠ k.currentSlot) (hp : k.proc slot = some p) (halive : p.exitCode = none)
    (hr : firstResumed slot tr = some r) : ResumedFrom cfg p r := by
  induction hrun with
  | done _ => simp [firstResumed] at hr
  | @step k k₁ _ e o tr hstep _ ih =>
      cases e with
      | irq i =>
          obtain ⟨rfl, rfl⟩ := step_irq_ok hstep
          have hquiet := quiet_takeIrq i k
          exact ih (h.of_quiet hquiet) (by rwa [hquiet.slot]) ((hquiet.other _ hslot).trans hp) hr
      | syscall t =>
          obtain ⟨r₁, rfl, hsw⟩ := step_syscall h hstep
          have hkept := hsw.other slot p hslot hp halive
          by_cases hnext : r₁.slot = slot
          · have hfirst : r₁ = r := by simpa [firstResumed, hnext] using hr
            subst hfirst
            exact resumes_from_entry hsw.resumes (hnext ▸ hkept)
          · refine ih hsw.ready ?_ hkept (by simpa [firstResumed, hnext] using hr)
            rw [hsw.resumes.current]
            exact Ne.symm hnext

/-- The same for any process that is alive when a system call ends, whether it
is chosen to run next or has to wait. -/
theorem first_resumed (hsw : Switched cfg t r₁ k k₁) (hrun : Run (step cfg) k₁ tr k')
    (hp : k₁.proc slot = some p) (halive : p.exitCode = none)
    (hr : firstResumed slot ((.syscall t, some r₁) :: tr) = some r) : ResumedFrom cfg p r := by
  by_cases hnext : r₁.slot = slot
  · have hfirst : r₁ = r := by simpa [firstResumed, hnext] using hr
    subst hfirst
    exact resumes_from_entry hsw.resumes (hnext ▸ hp)
  · refine waiting_resumed hrun hsw.ready ?_ hp halive (by simpa [firstResumed, hnext] using hr)
    rw [hsw.resumes.current]
    exact Ne.symm hnext

/-- Unless it exits, the caller is resumed from what the tail saved. -/
theorem caller_resumed (h : Ready k) (hexit : sysno (t.reg .rax) ≠ some .exit)
    (hrun : Run (step cfg) k ((.syscall t, some r₁) :: tr) k')
    (hr : firstResumed k.currentSlot ((.syscall t, some r₁) :: tr) = some r) :
    ∃ p, ResumedFrom cfg p r ∧ p.save =
      saveFromDispatchRsp (StackMachine.run (entryMachine k t t.tailMem) syscallEntry).mem
        ((StackMachine.run (entryMachine k t t.tailMem) syscallEntry).reg .rsp) := by
  obtain ⟨k₁, hstep, hrest⟩ := hrun.cons_inv
  obtain ⟨r', hr', hsw⟩ := step_syscall h hstep
  obtain rfl := Option.some.inj hr'
  obtain ⟨p, hp, halive, hsave⟩ := hsw.own hexit
  exact ⟨p, first_resumed hsw hrest hp halive hr, hsave⟩

end

/-! ## Ordinary calls -/

/-- Stack pointer, return address, flags and callee-saved registers. -/
def Preserved (c : UserContext) (reg : Reg → UInt64) : Prop :=
  c.rsp = reg .rsp ∧ c.rcx = reg .rcx ∧ c.r11 = reg .r11 ∧ c.rbx = reg .rbx ∧
    c.rbp = reg .rbp ∧ c.r12 = reg .r12 ∧ c.r13 = reg .r13 ∧ c.r14 = reg .r14 ∧ c.r15 = reg .r15

/-- Whatever runs in between, a caller gets its registers back if and only if
`r15` was zero and `r14` held the address that the entry stub puts there. -/
theorem context_round_trip_iff (cfg : Config) (k k' : Kernel) (t : Trap) (r₁ r : Resumed)
    (tr : List (Event × Option Resumed)) (hk : Reachable cfg k)
    (hexit : sysno (t.reg .rax) ≠ some .exit)
    (hrun : Run (step cfg) k ((.syscall t, some r₁) :: tr) k')
    (hr : firstResumed k.currentSlot ((.syscall t, some r₁) :: tr) = some r) :
    Preserved r.context t.reg ↔ t.reg .r15 = 0 ∧ t.reg .r14 = k.currentKstackTop := by
  obtain ⟨p, ⟨-, m, hctx⟩, hsave⟩ := caller_resumed (Reachable.ready hk) hexit hrun hr
  rw [hsave, resume_saved_at_tail] at hctx
  rw [hctx]
  simp only [Preserved, userContext, entryMachine_reg, entryMachine_top, true_and]
  exact ⟨fun h => ⟨h.2.symm, h.1.symm⟩, fun h => ⟨h.2.symm, h.1.symm⟩⟩

/-- A step whose output is known, or only the slot in it. -/
theorem step_of_output {cfg : Config} {k : Kernel} {e : Event} {o : Option Resumed}
    (h : (step cfg e k).map (·.1) = some o) : ∃ k', step cfg e k = some (o, k') := by
  obtain ⟨⟨o', k'⟩, hstep, rfl⟩ := Option.map_eq_some_iff.mp h
  exact ⟨k', hstep⟩

theorem step_of_slot {cfg : Config} {k : Kernel} {e : Event} {slot : ℕ}
    (h : (step cfg e k).map (fun x => x.1.map (·.slot)) = some (some slot)) :
    ∃ k' r, step cfg e k = some (some r, k') ∧ firstResumed slot [(e, some r)] = some r := by
  obtain ⟨⟨o, k'⟩, hstep, ho⟩ := Option.map_eq_some_iff.mp h
  obtain ⟨r, rfl, hr⟩ := Option.map_eq_some_iff.mp ho
  exact ⟨k', r, hstep, by simp [firstResumed, hr]⟩

/-- `sched_yield` by a process that uses `r14` and `r15`. -/
def yieldTrap (r14 r15 : UInt64) : Trap := trapWith
  (fun | .rax => 24 | .rsp => 0x401FF8 | .rcx => 0x400078 | .r11 => 0x202 | .r14 => r14
       | .r15 => r15 | _ => 0) []

theorem context_round_trip_lost : ∃ k r,
    Run (step machine) started [(.syscall (yieldTrap 14 15), some r)] k ∧
    firstResumed started.currentSlot [(.syscall (yieldTrap 14 15), some r)] = some r ∧
    r.context.r14 = 0x10000204000 ∧ r.context.r15 = 0 ∧
    ¬ Preserved r.context (yieldTrap 14 15).reg := by
  have hout : (step machine (.syscall (yieldTrap 14 15)) started).map (·.1) = some (some
      ⟨0, ⟨0, 0x401FF8, 0x400078, 0x202, 0, 0, 0, 0, 0x10000204000⟩,
        ⟨0, 0x401FF8, 0x400078, 0x202, 0, 0, 0, 0, 0x10000204000, 0⟩⟩) := by decide +kernel
  obtain ⟨k, hstep⟩ := step_of_output hout
  refine ⟨k, _, .single hstep, rfl, rfl, rfl, ?_⟩
  simp [Preserved, yieldTrap, trapWith]

theorem context_round_trip_kept : ∃ k r,
    Run (step machine) started [(.syscall (yieldTrap 0x10000204000 0), some r)] k ∧
    Preserved r.context (yieldTrap 0x10000204000 0).reg := by
  have hslot : (step machine (.syscall (yieldTrap 0x10000204000 0)) started).map
      (fun x => x.1.map (·.slot)) = some (some 0) := by decide +kernel
  obtain ⟨k, r, hstep, hfirst⟩ := step_of_slot hslot
  refine ⟨k, r, .single hstep, ?_⟩
  exact (context_round_trip_iff machine started k _ r r [] started_reachable (by decide)
    (.single hstep) hfirst).mpr ⟨rfl, rfl⟩

/-! ## The child of a fork -/

/-- The new entry is the only one that was free before the call. -/
theorem fork_child {cfg : Config} {k k₁ : Kernel} {t : Trap} {o : Option Resumed} {slot : ℕ}
    {p : Process} (h : Ready k) (hfork : sysno (t.reg .rax) = some .fork)
    (hstep : step cfg (.syscall t) k = some (o, k₁)) (hfree : k.proc slot = none)
    (hp : k₁.proc slot = some p) :
    p.exitCode = none ∧ p.pendingRax = 0 ∧ p.save = childSave (saveFromDispatchRsp
      (StackMachine.run (entryMachine k t t.kmem) (syscallEntry ++ [.call cfg.afterDispatch])).mem
      t.forkRsp) := by
  obtain ⟨r, -, hrun⟩ := step_syscall_ok hstep
  obtain ⟨caller, hcaller, -⟩ := h.alive
  have hne := (slot_ne_of_free hcaller hfree).symm
  cases turn_edit h (syscall_turn h hrun) with
  | exited _ call =>
      rw [hfork] at call
      cases call
  | quiet _ _ _ proc =>
      rw [proc, Function.update_of_ne hne, hfree] at hp
      cases hp
  | reaped _ _ _ s _ _ held _ proc =>
      have hs : slot ≠ s := by
        rintro rfl
        rw [hfree] at held
        cases held
      rw [proc, Function.update_of_ne hne, Function.update_of_ne hs, hfree] at hp
      cases hp
  | forked _ _ _ s child new _ proc =>
      rw [proc, Function.update_of_ne hne] at hp
      by_cases hs : slot = s
      · rw [hs, Function.update_self, Option.some.injEq] at hp
        exact hp ▸ ⟨new.alive, new.rax, new.save⟩
      · rw [Function.update_of_ne hs, hfree] at hp
        cases hp

/-- The parent's context, on the child's stack and with result zero. -/
def CopyOfParent (c : UserContext) (reg : Reg → UInt64) : Prop :=
  c.rax = 0 ∧ c.rcx = reg .rcx ∧ c.r11 = reg .r11 ∧ c.rbx = reg .rbx ∧ c.rbp = reg .rbp ∧
    c.r12 = reg .r12 ∧ c.r13 = reg .r13 ∧ c.r14 = reg .r14 ∧ c.r15 = reg .r15 ∧
    c.rsp = reg .rsp - UInt64.ofNat userStackTop + UInt64.ofNat userStackChildTop

/-- The return stub pops every register of the child from the field below its
own, so the child is a copy only if neighbouring registers agreed: `r14` and
`r15` zero, and all others equal to the kernel stack top, which then also has
to be the child's stack pointer. -/
theorem fork_child_copy_iff (cfg : Config) (k k₁ k' : Kernel) (t : Trap) (r₁ r : Resumed)
    (tr : List (Event × Option Resumed)) (slot : ℕ) (p : Process) (hk : Reachable cfg k)
    (hfork : sysno (t.reg .rax) = some .fork)
    (hptr : t.forkRsp = StackMachine.slot k.currentKstackTop 11)
    (hstep : step cfg (.syscall t) k = some (some r₁, k₁)) (hfree : k.proc slot = none)
    (hchild : k₁.proc slot = some p) (hrun : Run (step cfg) k₁ tr k')
    (hr : firstResumed slot ((.syscall t, some r₁) :: tr) = some r) :
    CopyOfParent r.context t.reg ↔
      t.reg .r15 = 0 ∧ t.reg .r14 = 0 ∧
      (∀ q ∈ [Reg.r13, .r12, .rbp, .rbx, .r11, .rcx], t.reg q = k.currentKstackTop) ∧
      k.currentKstackTop =
        t.reg .rsp - UInt64.ofNat userStackTop + UInt64.ofNat userStackChildTop := by
  have hready := Reachable.ready hk
  obtain ⟨r', hr', hsw⟩ := step_syscall hready hstep
  obtain rfl := Option.some.inj hr'
  obtain ⟨halive, hrax, hsave⟩ := fork_child hready hfork hstep hfree hchild
  obtain ⟨-, m, hctx⟩ := first_resumed hsw hrun hchild halive hr
  have hsaved := saved_at_dispatch (entryMachine k t t.kmem) cfg.afterDispatch
  rw [entryMachine_top] at hsaved
  rw [resume_eq, hrax, hsave, hptr, hsaved] at hctx
  rw [hctx]
  simp only [CopyOfParent, childSave, entryMachine_reg, List.mem_cons, List.not_mem_nil, or_false,
    forall_eq_or_imp, forall_eq, true_and]
  grind

/-- The first process forks, and its child runs next. -/
theorem forkTrap_step : ∃ k r, step machine (.syscall forkTrap) started = some (some r, k) ∧
    (k.proc 1).isSome ∧ r = ⟨1, ⟨0x402FF8, 0x400078, 0x202, 0, 0, 0, 0, 0x10000204000, 15⟩,
      ⟨0, 0x400078, 0x202, 0, 0, 0, 0, 0x10000204000, 15, 0⟩⟩ := by
  have hout : (step machine (.syscall forkTrap) started).map (fun x => (x.1, (x.2.proc 1).isSome)) =
      some (some ⟨1, ⟨0x402FF8, 0x400078, 0x202, 0, 0, 0, 0, 0x10000204000, 15⟩,
        ⟨0, 0x400078, 0x202, 0, 0, 0, 0, 0x10000204000, 15, 0⟩⟩, true) := by decide +kernel
  obtain ⟨⟨o, k⟩, hstep, ho⟩ := Option.map_eq_some_iff.mp hout
  obtain ⟨rfl, hsome⟩ := Prod.mk.inj ho
  exact ⟨k, _, hstep, hsome, rfl⟩

theorem fork_child_scrambled : ∃ k r, Run (step machine) started [(.syscall forkTrap, some r)] k ∧
    forkTrap.forkRsp = StackMachine.slot started.currentKstackTop 11 ∧
    started.proc 1 = none ∧ (k.proc 1).isSome ∧
    firstResumed 1 [(.syscall forkTrap, some r)] = some r ∧
    r.context.rsp = forkTrap.reg .rcx ∧ ¬ CopyOfParent r.context forkTrap.reg := by
  obtain ⟨k, _, hstep, hsome, rfl⟩ := forkTrap_step
  refine ⟨k, _, .single hstep, rfl, rfl, hsome, rfl, rfl, ?_⟩
  simp [CopyOfParent, forkTrap, trapWith]

theorem fork_child_not_copy : ∃ k r, Run (step machine) started [(.syscall forkTrap, some r)] k ∧
    ¬ CopyOfParent r.context forkTrap.reg := by
  obtain ⟨k, r, hstep, hchild, hr⟩ := forkTrap_step
  obtain ⟨p, hp⟩ := Option.isSome_iff_exists.mp hchild
  have hiff := fork_child_copy_iff machine started k k forkTrap r r [] 1 p started_reachable
    (by decide) rfl hstep rfl hp (.done k) (by rw [hr]; rfl)
  exact ⟨k, r, .single hstep, fun hcopy => absurd (hiff.mp hcopy).1 (by decide)⟩

/-! ## execve -/

/-- `sys_execve` reaches its `Ok` branch. -/
def ExecLoads (cfg : Config) (t : Trap) (k : Kernel) (entry rsp : ℕ) : Prop :=
  ∃ args m, execArgs (t.reg .rdi).toNat (t.reg .rsi).toNat (t.reg .rdx).toNat (trapState t k) =
      .ok (.ok args) ∧
    loadElfExec cfg.walker cfg.initElf 0 args.argv args.envp (trapState t k).mem =
      .ok (entry, rsp) m

/-- The tail saves the caller over the context of the new program. What is left
is the old stack pointer in the place of the entry, and the word above the
kernel stack in the place of the stack pointer. -/
theorem execve_starts_program_iff (cfg : Config) (k k' : Kernel) (t : Trap) (r₁ r : Resumed)
    (tr : List (Event × Option Resumed)) (entry rsp : ℕ) (hk : Reachable cfg k)
    (hexec : sysno (t.reg .rax) = some .execve) (hload : ExecLoads cfg t k entry rsp)
    (hrun : Run (step cfg) k ((.syscall t, some r₁) :: tr) k')
    (hr : firstResumed k.currentSlot ((.syscall t, some r₁) :: tr) = some r) :
    (r.saved.userRip = UInt64.ofNat entry ∧ r.saved.userRsp = UInt64.ofNat rsp) ↔
      t.reg .rsp = UInt64.ofNat (field cfg.initElf 24 8) ∧
      t.tailMem k.currentKstackTop = UInt64.ofNat (userStackTop - pageSize) := by
  obtain ⟨args, m, -, hload⟩ := hload
  obtain ⟨hentry, hrsp⟩ := loadElfExec_ok hload
  have hmod : UInt64.ofNat entry = UInt64.ofNat (field cfg.initElf 24 8) := by
    rw [hentry, Nat.add_zero, UInt64.ofNat_mod_size]
  obtain ⟨p, hfrom, hsave⟩ := caller_resumed (Reachable.ready hk) (by simp [hexec]) hrun hr
  rw [hfrom.saved, hsave, saved_at_tail, hmod, hrsp]
  exact Iff.rfl

theorem execTrap_loads : ExecLoads machine execTrap started 0x400078 0x401000 := by
  have hcall : execArgs 0x401FF0 0 0 (trapState execTrap started) = .ok (.ok ⟨[], []⟩) ∧
      (returned (loadElfExec flatWalker spinElf 0 [] [] (trapState execTrap started).mem)).map
        (·.1) = some (0x400078, 0x401000) := by decide +kernel
  obtain ⟨hargs, hout⟩ := hcall
  obtain ⟨r, m, hload, hr⟩ := ok_of_returned hout
  exact ⟨⟨[], []⟩, m, hargs, by rw [← hr]; exact hload⟩

/-- The first process replaces itself, and is resumed. -/
theorem execTrap_step : ∃ k r, step machine (.syscall execTrap) started = some (some r, k) ∧
    r = ⟨0, ⟨0, 0x401FE8, 0x400078, 0x202, 0, 0, 0, 0, 0x10000204000⟩,
      ⟨0, 0x401FE8, 0x400078, 0x202, 0, 0, 0, 0, 0x10000204000, 0⟩⟩ := by
  have hout : (step machine (.syscall execTrap) started).map (·.1) = some (some
      ⟨0, ⟨0, 0x401FE8, 0x400078, 0x202, 0, 0, 0, 0, 0x10000204000⟩,
        ⟨0, 0x401FE8, 0x400078, 0x202, 0, 0, 0, 0, 0x10000204000, 0⟩⟩) := by decide +kernel
  obtain ⟨k, hstep⟩ := step_of_output hout
  exact ⟨k, _, hstep, rfl⟩

theorem execve_old_context : ∃ k r, Run (step machine) started [(.syscall execTrap, some r)] k ∧
    ExecLoads machine execTrap started 0x400078 0x401000 ∧
    firstResumed started.currentSlot [(.syscall execTrap, some r)] = some r ∧
    r.saved.userRip = 0x401FE8 ∧ r.saved.userRsp = 0 := by
  obtain ⟨k, _, hstep, rfl⟩ := execTrap_step
  exact ⟨k, _, .single hstep, execTrap_loads, rfl, rfl, rfl⟩

theorem execve_starts_program_not : ∃ k r,
    Run (step machine) started [(.syscall execTrap, some r)] k ∧
    ¬ (r.saved.userRip = 0x400078 ∧ r.saved.userRsp = 0x401000) := by
  obtain ⟨k, r, hstep, hr⟩ := execTrap_step
  have hiff := execve_starts_program_iff machine started k execTrap r r [] 0x400078 0x401000
    started_reachable (by decide) execTrap_loads (.single hstep) (by rw [hr]; rfl)
  exact ⟨k, r, .single hstep, fun h => absurd (hiff.mp h).2 (by decide)⟩

end Rockos.ContextSwitch
