import Rockos.SystemMemory
import Rockos.UserMemory
import Rockos.Turns

/-!
# The stacks of forked processes

The first process has a stack page of its own. All forked processes have the
same one: its address is a constant, and a page that is mapped already is taken
over. `fork` writes to it whether or not somebody lives there. It never writes
below it, so the stack of the first process is safe, and all stacks are safe as
long as nobody forks while a forked process is alive.
-/
namespace Rockos.ForkStacks
open FallibleState PhysMemory Paging KernelState ProcessCalls Syscall FrameSafety
open PageEdits UserMemory SyscallEffects SystemMemory RunQueue Turns Runs

/-- Where the stack of a process ends: at the end of the page that `kernel_main`
mapped, or at the end of the one for children. -/
def stackTop (p : Process) : ℕ := if p.parent.isNone then userStackTop else userStackChildTop

/-! ## What `fork` writes -/

/-- Nothing below the end of the first stack changes. -/
def KeepsBelow (m m' : Mem) : Prop :=
  FrameSafe m → FrameSafe m' ∧ ∀ a, a < userStackTop → userByte m' a = userByte m a

instance : IsPreorder Mem KeepsBelow where
  refl _ h := ⟨h, fun _ _ => rfl⟩
  trans _ _ _ h h' hs := by
    obtain ⟨hsafe, hbytes⟩ := h hs
    obtain ⟨hsafe', hbytes'⟩ := h' hsafe
    exact ⟨hsafe', fun a ha => (hbytes' a ha).trans (hbytes a ha)⟩

/-- The page is taken over as it is, or newly mapped. -/
theorem mapChildStack_cases (w : Walker) (m : Mem) :
    ((m.pt.entries (pageOf childStackLo)).isSome ∧ mapChildStack w m = .ok () m) ∨
    (m.pt.entries (pageOf childStackLo) = none ∧
      mapChildStack w m = mapNewPage w (pageOf childStackLo) userDataFlags m) := by
  have hva : virtAddr childStackLo = (pure childStackLo : MemM ℕ) := rfl
  have hmapped := translateAddr_isSome m (pageOf childStackLo)
  simp only [mapChildStack, hva, bind_run, pure_run, get_run]
  cases he : m.pt.entries (pageOf childStackLo) with
  | none =>
      rw [he] at hmapped
      rw [if_pos (by simpa using hmapped)]
      exact .inr ⟨rfl, rfl⟩
  | some e =>
      rw [he] at hmapped
      rw [if_neg (by simpa [Option.isSome_iff_ne_none] using hmapped)]
      exact .inl ⟨rfl, rfl⟩

theorem mapChildStack_entries (w : Walker) (m : Mem) {q : ℕ} (hq : q ≠ pageOf childStackLo) :
    (final (mapChildStack w m)).pt.entries q = m.pt.entries q := by
  rcases mapChildStack_cases w m with ⟨-, hrun⟩ | ⟨-, hrun⟩
  · rw [hrun]
    rfl
  · rw [hrun]
    rcases mapNewPage_cases w (pageOf childStackLo) userDataFlags m with
      ⟨e, t, hmap, ht⟩ | ⟨f, t, hmap, -, ht⟩
    · simp only [hmap, final_error, ht]
    · simp only [hmap, final_ok, ht, Function.update_of_ne hq]

theorem mapChildStack_grows (w : Walker) : Within Grows (mapChildStack w) :=
  within_bind (within_virtAddr _) fun _ => within_bind within_get fun _ =>
    within_ite (mapNewPage_grows w _ _) (within_pure _)

theorem pageOf_ne_child {a : ℕ} (ha : a < userStackTop) : pageOf a ≠ pageOf childStackLo :=
  (Nat.div_lt_of_lt_mul (show a < pageSize * pageOf childStackLo from ha)).ne

theorem mapChildStack_below (w : Walker) : Within KeepsBelow (mapChildStack w) := by
  intro m hm
  refine ⟨mapChildStack_safe w m hm, fun a ha => ?_⟩
  exact userByte_congr (mapChildStack_entries w m (pageOf_ne_child ha))
    (mapChildStack_grows w m).ram

theorem copyUserPages_below (src dst len : ℕ) (hdst : userStackTop ≤ dst) :
    Within KeepsBelow (copyUserPages src dst len) := by
  refine within_countLoop (fun i _ => ?_) _ _ _
  refine within_bind (within_virtAddr _) fun s => ?_
  intro m hm
  rw [bind_run]
  rcases virtAddr_cases (dst + i) m with hrun | hrun
  swap
  · rw [hrun]
    exact ⟨hm, fun _ _ => rfl⟩
  rw [hrun]
  simp only [bind_run, get_run]
  cases hs : translateAddr m s with
  | none => exact ⟨hm, fun _ _ => rfl⟩
  | some ps =>
      cases hd : translateAddr m (signExtend (dst + i)) with
      | none => exact ⟨hm, fun _ _ => rfl⟩
      | some pd =>
          refine ⟨hm, fun a ha => ?_⟩
          have hne : a ≠ signExtend (dst + i) := by
            unfold signExtend
            split_ifs <;> omega
          simpa [hne] using userByte_writePhys hm hd (m.ram ps) a

def SamePt (m m' : Mem) : Prop := m'.pt = m.pt

instance : IsPreorder Mem SamePt where
  refl _ := rfl
  trans _ _ _ h h' := h'.trans h

theorem copyUserPages_pt (src dst len : ℕ) : Within SamePt (copyUserPages src dst len) :=
  within_copyUserPages (fun _ _ _ => rfl) src dst len

theorem mapChildStackAndCopy_pt (w : Walker) (saved : SyscallFrame.SyscallSaved) (m : Mem) :
    (final (mapChildStackAndCopy w saved m)).pt = (final (mapChildStack w m)).pt := by
  simp only [mapChildStackAndCopy, bind_run]
  cases hrun : mapChildStack w m with
  | error e t => rfl
  | ok _ t =>
      simp only [final_ok]
      split_ifs
      · rfl
      · exact copyUserPages_pt _ _ _ t

theorem mapChildStackAndCopy_below (w : Walker) (saved : SyscallFrame.SyscallSaved) :
    Within KeepsBelow (mapChildStackAndCopy w saved) := by
  refine within_bind (mapChildStack_below w) fun _ => within_ite (within_throw _) ?_
  exact copyUserPages_below _ _ _ (Nat.le_add_right _ _)

/-- A copy whose first byte is not mapped copies nothing. -/
theorem copyUserPages_unmapped {src dst len : ℕ} {m : Mem} (hlen : 0 < len)
    (hsrc : src < 2 ^ 47) (hdst : dst < 2 ^ 47) (hnone : m.pt.entries (pageOf src) = none) :
    copyUserPages src dst len m = .error (.err "()") m := by
  obtain ⟨n, rfl⟩ := Nat.exists_eq_succ_of_ne_zero hlen.ne'
  have hfirst : copyUserByte src dst 0 m = .error (.err "()") m := by
    simp only [copyUserByte, Nat.add_zero, virtAddr_of_lt hsrc, virtAddr_of_lt hdst, bind_run,
      pure_run, get_run, translateAddr, hnone, Option.map_none]
    rfl
  exact bind_of_error hfirst _

/-- A stack pointer above the first stack, or one that points nowhere, is refused
before anything is copied. -/
theorem mapChildStackAndCopy_refused (w : Walker) {saved : SyscallFrame.SyscallSaved} {m : Mem}
    (hpage : (m.pt.entries (pageOf childStackLo)).isSome)
    (hrsp : userStackTop ≤ saved.userRsp.toNat ∨
      m.pt.entries (pageOf saved.userRsp.toNat) = none) :
    mapChildStackAndCopy w saved m = .error (.err "()") m := by
  rcases mapChildStack_cases w m with ⟨-, hrun⟩ | ⟨hnone, -⟩
  · rw [mapChildStackAndCopy, bind_of_ok hrun]
    split_ifs with htop
    · rfl
    · have hsize : userStackTop < 2 ^ 47 ∧ childStackLo + userStackTop < 2 ^ 47 := by decide
      exact copyUserPages_unmapped (by omega) (by omega) (by omega) (hrsp.resolve_left htop)
  · rw [hnone] at hpage
    cases hpage

/-! ## Whole calls -/

def SameMem (k k' : Kernel) : Prop := k'.mem = k.mem

instance : IsPreorder Kernel SameMem where
  refl _ := rfl
  trans _ _ _ h h' := h'.trans h

theorem allowsTail_sameMem : AllowsTail SameMem where
  wait k irqs rest := takeIrqs_mem irqs { k with waits := rest }
  own _ _ _ := rfl
  switch _ _ h := congrArg Prod.fst h
  exit _ _ := rfl

theorem sysFork_mem (w : Walker) (mem : UInt64 → UInt64) (rsp top : UInt64) (k : Kernel) :
    (final (sysFork w mem rsp top k)).mem = k.mem ∨
    (final (sysFork w mem rsp top k)).mem =
      final (mapChildStackAndCopy w (SyscallFrame.saveFromDispatchRsp mem rsp) k.mem) := by
  simp only [sysFork, bind_run, get_run]
  cases allocPid k.procs with
  | none => exact .inl rfl
  | some pid =>
      refine .inr ?_
      simp only [bind_run]
      rcases onMem_attempt_cases (mapChildStackAndCopy w
        (SyscallFrame.saveFromDispatchRsp mem rsp)) k with
        ⟨_, m, hx, ho⟩ | ⟨reason, m, hx, ho⟩ | ⟨e, m, hx, ho⟩
      · simp only [ho, hx, final_ok]
        cases k.current with
        | none => rfl
        | some parent =>
            simp only [spawn, bind_run, get_run]
            cases allocSlot (setMem m k).procs with
            | none => rfl
            | some r => rfl
      · simp only [ho, hx]
        rfl
      · simp only [ho, hx]
        rfl

section
variable {cfg : Config} {t : Trap} {k : Kernel}

theorem fork_mem (hfork : sysno (t.reg .rax) = some .fork) :
    (final (syscall cfg t k)).mem = (trapState t k).mem ∨
    (final (syscall cfg t k)).mem =
      final (mapChildStackAndCopy cfg.walker (forkSave cfg t k) (trapState t k).mem) := by
  have hcall : (final (syscall cfg t k)).mem = (final (sysFork cfg.walker
      (dispatchMachine cfg t k).mem t.forkRsp t.childKstackTop (trapState t k))).mem := by
    have hargs : (dispatchMachine cfg t k).reg .rdi = t.reg .rax :=
      (entryArgs k t cfg.afterDispatch).1
    have hmachine : StackMachine.run (entryMachine (trapState t k) t t.kmem)
        (SyscallFrame.syscallEntry ++ [.call cfg.afterDispatch]) = dispatchMachine cfg t k := rfl
    simp only [Syscall.syscall, bind_run, modify_run, get_run, hmachine, hargs, syscallDispatch,
      hfork, returning]
    cases sysFork cfg.walker (dispatchMachine cfg t k).mem t.forkRsp t.childKstackTop
        (trapState t k) with
    | error e s => rfl
    | ok v s => exact completeSyscallAndSchedule_within allowsTail_sameMem _ _ _ s
  rw [hcall]
  exact sysFork_mem _ _ _ _ _

/-- The call fails before it writes anything: there is no page to map, and there is
no byte to copy or the first one is not mapped. -/
structure ForkRefused (cfg : Config) (t : Trap) (k : Kernel) : Prop where
  page : (k.mem.pt.entries (pageOf childStackLo)).isSome
  source : userStackTop ≤ (forkSave cfg t k).userRsp.toNat ∨
    k.mem.pt.entries (pageOf (forkSave cfg t k).userRsp.toNat) = none

theorem ForkRefused.final_eq (h : ForkRefused cfg t k) : mapChildStackAndCopy cfg.walker
    (forkSave cfg t k) (trapState t k).mem = .error (.err "()") (trapState t k).mem := by
  have hpt : (trapState t k).mem.pt = k.mem.pt := userStores_pt t.stores k.mem
  apply mapChildStackAndCopy_refused cfg.walker
  · rw [hpt]
    exact h.page
  · rw [hpt]
    exact h.source

/-- No `fork` writes to the stack of the first process, and one that is refused
writes nowhere. -/
theorem fork_keeps_stack (hsafe : KernelSafe k) (hfork : sysno (t.reg .rax) = some .fork)
    {q : Process} (hq : q.parent = none ∨ ForkRefused cfg t k) {a : ℕ} (ha : a < stackTop q) :
    userByte (final (syscall cfg t k)).mem a = userByte (trapState t k).mem a := by
  have hmem : FrameSafe (trapState t k).mem := userStores_safe t.stores hsafe
  rcases @fork_mem cfg t k hfork with hsame | hcopy
  · rw [hsame]
  · rw [hcopy]
    rcases hq with hfirst | hrefused
    · refine (mapChildStackAndCopy_below _ _ _ hmem).2 a ?_
      simpa [stackTop, hfirst] using ha
    · rw [hrefused.final_eq]
      rfl

end

/-! ## Runs -/

/-- No forked process is alive, or the call is refused. -/
def MayFork (cfg : Config) (t : Trap) (k : Kernel) : Prop :=
  (∀ s q, k.proc s = some q → q.exitCode = none → q.parent = none) ∨ ForkRefused cfg t k

/-- At most one of the live processes was forked. -/
structure OneForked (k : Kernel) : Prop where
  first : ∀ s q, k.proc s = some q → q.parent = none → s = 0
  forked : ∀ s s' q q', k.proc s = some q → q.exitCode = none → q.parent ≠ none →
    k.proc s' = some q' → q'.exitCode = none → q'.parent ≠ none → s = s'

theorem OneForked.stacks {k : Kernel} (h : OneForked k) {s s' : ℕ} {q q' : Process} (hne : s ≠ s')
    (hq : k.proc s = some q) (halive : q.exitCode = none) (hq' : k.proc s' = some q')
    (halive' : q'.exitCode = none) : stackTop q ≠ stackTop q' := by
  unfold stackTop
  cases hp : q.parent with
  | none =>
      cases hp' : q'.parent with
      | none => exact absurd ((h.first s q hq hp).trans (h.first s' q' hq' hp').symm) hne
      | some _ => simp [userStackTop, userStackChildTop]
  | some _ =>
      cases hp' : q'.parent with
      | none => simp [userStackTop, userStackChildTop]
      | some _ =>
          exact absurd (h.forked s s' q q' hq halive (by simp [hp]) hq' halive' (by simp [hp'])) hne

section
variable {cfg : Config} {t : Trap} {k k' : Kernel}

/-- A process is added only when no forked one is alive. -/
theorem OneForked.step (h : OneForked k) (he : TableEdit cfg t k k')
    (hmay : sysno (t.reg .rax) = some .fork → MayFork cfg t k) : OneForked k' := by
  have halone : ∀ {child : Process}, Spawned cfg t k child →
      ∀ s q, k.proc s = some q → q.exitCode = none → q.parent = none := by
    intro child hnew
    rcases hmay hnew.call with halone | hrefused
    · exact halone
    · obtain ⟨m, hcopied⟩ := hnew.copied
      rw [hrefused.final_eq] at hcopied
      cases hcopied
  refine ⟨fun s q' hq' hparent => ?_, fun s s' q q' hq halive hp hq' halive' hp' => ?_⟩
  · rcases he.origin hq' with ⟨q, hq, hsame, -⟩ | ⟨-, hnew⟩
    · exact h.first s q hq (hsame ▸ hparent)
    · rw [hnew.parent] at hparent
      cases hparent
  · rcases he.origin hq with ⟨r, hr, hsame, -, hlive⟩ | ⟨hfree, hnew⟩ <;>
      rcases he.origin hq' with ⟨r', hr', hsame', -, hlive'⟩ | ⟨hfree', hnew'⟩
    · exact h.forked s s' r r' hr (hlive halive) (hsame ▸ hp) hr' (hlive' halive') (hsame' ▸ hp')
    · exact absurd (halone hnew' s r hr (hlive halive)) (hsame ▸ hp)
    · exact absurd (halone hnew s' r' hr' (hlive' halive')) (hsame' ▸ hp')
    · exact edit_filled_unique he hfree hq hfree' hq'

end

theorem boot_oneForked (staleTop boxedTop : UInt64) (k : Kernel) :
    OneForked (boot staleTop boxedTop k) := by
  refine ⟨fun s q hq _ => (boot_proc hq).1, fun s s' q q' hq _ _ hq' _ _ => ?_⟩
  rw [(boot_proc hq).1, (boot_proc hq').1]

/-- In a run in which nobody forks while a forked process is alive, except to be
refused, no such call writes to the stack of a live process, and no two live
processes have the same stack page. -/
theorem fork_keeps_stacks (cfg : Config) (k₀ k : Kernel) (tr : List (Event × Option Resumed))
    (hboot : Booted cfg k₀) (hrun : Run (step cfg) k₀ tr k)
    (hmay : ∀ x t y, Takes (step cfg) k₀ tr x (.syscall t) y →
      sysno (t.reg .rax) = some .fork → MayFork cfg t x) :
    (∀ t, sysno (t.reg .rax) = some .fork → MayFork cfg t k →
      ∀ s q, k.proc s = some q → q.exitCode = none →
      ∀ a, q.save.userRsp.toNat ≤ a → a < stackTop q →
        userByte (final (syscall cfg t k)).mem a = userByte (trapState t k).mem a) ∧
    ∀ s s' q q', s ≠ s' → k.proc s = some q → q.exitCode = none → k.proc s' = some q' →
      q'.exitCode = none → stackTop q ≠ stackTop q' := by
  have hsafe := hboot.run_safe hrun
  refine ⟨fun t hfork hcond s q hq halive a _ ha => ?_, ?_⟩
  · refine fork_keeps_stack hsafe hfork ?_ ha
    exact hcond.imp (fun halone => halone s q hq halive) id
  · have hinv : Ready k ∧ OneForked k := by
      refine hrun.invariant_taken (I := fun x => Ready x ∧ OneForked x) ?_ ?_
      · obtain ⟨staleTop, boxedTop, -, k₁, -, -, rfl⟩ := hboot
        exact ⟨boot_ready staleTop boxedTop k₁, boot_oneForked staleTop boxedTop k₁⟩
      · rintro x e y htaken ⟨hready, hone⟩
        obtain ⟨tr₁, o, tr₂, -, -, hstep⟩ := id htaken
        refine ⟨step_ready e x o y hstep hready, ?_⟩
        cases e with
        | irq i =>
            have hproc := step_irq_proc hstep
            exact ⟨by rw [hproc]; exact hone.first, by rw [hproc]; exact hone.forked⟩
        | syscall t =>
            obtain ⟨r, -, hsys⟩ := step_syscall_ok hstep
            exact hone.step (turn_edit hready (syscall_turn hready hsys)) (hmay x t y htaken)
    exact fun s s' q q' hne hq halive hq' halive' => hinv.2.stacks hne hq halive hq' halive'

theorem fork_keeps_stacks_first : ∃ k r q q', Run (step machine) started
    [(.syscall forkTrap, some r)] k ∧ k.proc 0 = some q ∧ k.proc 1 = some q' ∧
    q.exitCode = none ∧ q'.exitCode = none ∧ stackTop q ≠ stackTop q' := by
  have hall : (step machine (.syscall forkTrap) started).map (fun x => (x.1.map Resumed.slot,
      (x.2.proc 0).map Process.exitCode, (x.2.proc 1).map Process.exitCode)) =
      some (some 1, some none, some none) := by decide +kernel
  obtain ⟨⟨o, k⟩, hstep, hk⟩ := Option.map_eq_some_iff.mp hall
  simp only [Prod.mk.injEq, Option.map_eq_some_iff] at hk
  obtain ⟨⟨r, rfl, -⟩, ⟨q, hq, halive⟩, q', hq', halive'⟩ := hk
  have hrun : Run (step machine) started [(.syscall forkTrap, some r)] k := .single hstep
  refine ⟨k, r, q, q', hrun, hq, hq', halive, halive', ?_⟩
  refine (fork_keeps_stacks machine started k _ started_booted hrun fun x t y htaken _ => ?_).2
    0 1 q q' (by decide) hq halive hq' halive'
  obtain ⟨-, rfl⟩ := takes_singleton htaken
  refine .inl fun s p hp _ => ?_
  rw [(boot_proc hp).2]
  rfl

/-- A child of the first process yields, with its stack pointer at its place in
the child stack. -/
def childYields : Trap :=
  { callTrap 0x44444444C000 0 24 0 with tailMem := fun _ => 0x402FF8 }

/-- The first process has pushed a byte and forks again. -/
def secondFork : Trap :=
  { callTrap 0x444444448000 0x444444450000 57 0 with stores := [(0x401FF8, 0xAA)] }

/-- The byte appears on the stack of the first child, which is still alive. -/
theorem second_fork_overwrites : ∃ tr k q,
    replay (step machine) [.syscall (callTrap 0x10000204000 0x44444444C000 57 0),
      .syscall childYields] started = some (tr, k) ∧
    k.currentSlot = 0 ∧ k.proc 1 = some q ∧ q.exitCode = none ∧
    q.save.userRsp.toNat ≤ 0x402FF8 ∧ 0x402FF8 < stackTop q ∧
    sysno (secondFork.reg .rax) = some .fork ∧
    userByte (trapState secondFork k).mem 0x402FF8 = some 0 ∧
    userByte (final (syscall machine secondFork k)).mem 0x402FF8 = some 0xAA := by
  have hall : ((replay (step machine) [.syscall (callTrap 0x10000204000 0x44444444C000 57 0),
      .syscall childYields] started).map fun x => ((x.2.proc 1).map fun q =>
        (q.exitCode.isNone, [x.2.currentSlot, q.save.userRsp.toNat, stackTop q]),
        [userByte (trapState secondFork x.2).mem 0x402FF8,
          userByte (final (syscall machine secondFork x.2)).mem 0x402FF8])) =
      some (some (true, [0, 0x402FF8, 0x403000]), [some 0, some 0xAA]) := by decide +kernel
  obtain ⟨⟨tr, k⟩, hreplay, hk⟩ := Option.map_eq_some_iff.mp hall
  simp only [Prod.mk.injEq, Option.map_eq_some_iff, List.cons.injEq, and_true,
    Option.isNone_iff_eq_none] at hk
  obtain ⟨⟨q, hq, halive, hcur, hrsp, htop⟩, hbefore, hafter⟩ := hk
  exact ⟨tr, k, q, hreplay, hcur, hq, halive, hrsp.le, by omega, by decide, hbefore, hafter⟩

end Rockos.ForkStacks
