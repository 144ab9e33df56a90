import Rockos.Turns

/-!
# Whose kernel stack a system call enters on (process.rs, task.rs)

`syscall_entry` loads the stack pointer from `CURRENT_KSTACK_TOP`. Every switch
sets it from the process in the table. `process::init` sets it from the first
process as well, but before the value moves into its box, so the first system
call pushes its frame where the value was and not where it is.

Kernel stacks are boxed with their processes. The heap gives a new process
memory that no process of the table has; that is an assumption on every fork of
a run.
-/
namespace Rockos.KernelStacks
open FallibleState Paging StackMachine SyscallFrame KernelState Syscall SyscallEffects RunQueue
open Turns Runs

/-- The words of the `AlignedKstack` of 4096 bytes that ends at `top`. -/
def OnKstack (top a : UInt64) : Prop := ∃ i, 1 ≤ i ∧ i ≤ 512 ∧ a = slot top i

/-- Two kernel stacks have no word in common. -/
def StacksApart (top top' : UInt64) : Prop := ∀ a, OnKstack top a → ¬OnKstack top' a

theorem StacksApart.symm {top top' : UInt64} (h : StacksApart top top') : StacksApart top' top :=
  fun a ha ha' => h a ha' ha

theorem apart_of_le {top top' : UInt64} (hlow : 4096 ≤ top.toNat)
    (hle : top.toNat + 4096 ≤ top'.toNat) : StacksApart top top' := by
  rintro a ⟨i, hi, hi', rfl⟩ ⟨j, hj, hj', heq⟩
  have hbound := top'.toNat_lt
  have hnat := congrArg UInt64.toNat heq
  simp only [slot, UInt64.toNat_sub, UInt64.toNat_ofNat'] at hnat
  omega

/-- The current process has the stack that system calls enter on, and what the
entry stub pushes for the dispatcher stays on that stack and off every other. -/
structure Owned (k : Kernel) : Prop where
  top : ∃ p, k.current = some p ∧ k.currentKstackTop = p.kstackTop
  pushes : ∀ (t : Trap) (mem : UInt64 → UInt64) (ret a : UInt64),
    (run (entryMachine k t mem) (syscallEntry ++ [.call ret])).mem a ≠ mem a →
      (∃ p, k.current = some p ∧ OnKstack p.kstackTop a) ∧
      ∀ s q, s ≠ k.currentSlot → k.proc s = some q → ¬OnKstack q.kstackTop a

/-! ## The entry stub -/

theorem syscallEntry_writes (m : Machine Glob) {ret a : UInt64}
    (h : (run m (syscallEntry ++ [.call ret])).mem a ≠ m.mem a) :
    OnKstack (m.glob .currentKstackTop) a := by
  by_contra hoff
  apply h
  have hslots : ∀ j, 1 ≤ j → j ≤ 11 → a ≠ slot (m.glob .currentKstackTop) j :=
    fun j hj hj' heq => hoff ⟨j, hj, by omega, heq⟩
  have hpushes : (run m syscallEntry).mem a = m.mem a := by
    rw [syscallEntry_mem]
    apply pushAll_mem_other _ (m.glob .currentKstackTop) a 0 _ (by simp)
    intro j hj hle
    apply hslots j (by omega)
    simp only [pushedWords, List.length_cons, List.length_nil] at hle
    omega
  rw [run_append, run_cons, run_nil, exec, pushWord_mem, syscallEntry_rsp, slot_sub,
    Function.update_of_ne (hslots 11 (by omega) (by omega)), hpushes]

/-! ## Runs -/

/-- No two processes share a kernel stack. -/
def AllApart (k : Kernel) : Prop :=
  ∀ s s' p q, s ≠ s' → k.proc s = some p → k.proc s' = some q → StacksApart p.kstackTop q.kstackTop

section
variable {cfg : Config} {t : Trap} {k k' : Kernel}

theorem AllApart.edit (h : AllApart k) (he : TableEdit cfg t k k')
    (hheap : sysno (t.reg .rax) = some .fork →
      ∀ s p, k.proc s = some p → StacksApart t.childKstackTop p.kstackTop) : AllApart k' := by
  intro s s' p q hne hp hq
  cases he.origin hp with
  | inl hold =>
      obtain ⟨p₀, hp₀, -, htop, -⟩ := hold
      rw [htop]
      cases he.origin hq with
      | inl hold' =>
          obtain ⟨q₀, hq₀, -, htop', -⟩ := hold'
          rw [htop']
          exact h s s' p₀ q₀ hne hp₀ hq₀
      | inr hnew =>
          rw [hnew.2.kstack]
          exact (hheap hnew.2.call s p₀ hp₀).symm
  | inr hnew =>
      cases he.origin hq with
      | inl hold' =>
          obtain ⟨q₀, hq₀, -, htop', -⟩ := hold'
          rw [htop', hnew.2.kstack]
          exact hheap hnew.2.call s' q₀ hq₀
      | inr hnew' => exact absurd (edit_filled_unique he hnew.1 hp hnew'.1 hq) hne

/-- Every switch leaves the stack of the process that it resumes. -/
theorem syscall_top {r : Resumed} (h : Ready k) (hrun : syscall cfg t k = .ok r k') :
    ∃ p, k'.current = some p ∧ k'.currentKstackTop = p.kstackTop := by
  have hswitch := syscall_switched h hrun
  obtain ⟨p, -, hp, -⟩ := hswitch.resumes.context
  refine ⟨p, ?_, hswitch.resumes.top p hp⟩
  rw [Kernel.current, hswitch.resumes.current, hp]

end

/-- Where the entry pointer stands: at its place in the boot code as long as no
system call has returned, and from then on at the current process's stack. -/
structure Tracks (staleTop boxedTop : UInt64) (called : Prop) (k : Kernel) : Prop where
  ready : Ready k
  apart : AllApart k
  before : ¬called → k.currentKstackTop = staleTop ∧
    ∃ p, k.current = some p ∧ p.kstackTop = boxedTop
  after : called → ∃ p, k.current = some p ∧ k.currentKstackTop = p.kstackTop

theorem boot_tracks (staleTop boxedTop : UInt64) (k : Kernel) :
    Tracks staleTop boxedTop False (boot staleTop boxedTop k) where
  ready := boot_ready staleTop boxedTop k
  apart _ _ _ _ hne hp hq := absurd ((boot_proc hp).1.trans (boot_proc hq).1.symm) hne
  before _ := ⟨rfl, _, rfl, rfl⟩
  after h := h.elim

def Called (tr : List (Event × Option Resumed)) : Prop := ∃ t o, (Event.syscall t, o) ∈ tr

/-- Each fork of the run gets kernel stack memory that is not in use. -/
def HeapFresh (cfg : Config) (k₀ : Kernel) (tr : List (Event × Option Resumed)) : Prop :=
  ∀ x t y, Takes (step cfg) k₀ tr x (.syscall t) y → sysno (t.reg .rax) = some .fork →
    ∀ s p, x.proc s = some p → StacksApart t.childKstackTop p.kstackTop

theorem run_tracks {cfg : Config} {staleTop boxedTop : UInt64} {k k' : Kernel} {called : Prop}
    {tr : List (Event × Option Resumed)} (hrun : Run (step cfg) k tr k')
    (h : Tracks staleTop boxedTop called k) (hheap : HeapFresh cfg k tr) :
    Tracks staleTop boxedTop (called ∨ Called tr) k' := by
  induction hrun generalizing called with
  | done k => simpa [Called] using h
  | @step k k₁ k' e o tr hstep _ ih =>
      have hrest : HeapFresh cfg k₁ tr := by
        intro x t y htakes
        obtain ⟨tr₁, o', tr₂, rfl, hx, hy⟩ := htakes
        exact hheap x t y ⟨(e, o) :: tr₁, o', tr₂, rfl, .step hstep hx, hy⟩
      have hready := step_ready e k o k₁ hstep h.ready
      cases e with
      | irq i =>
          obtain ⟨-, rfl⟩ := step_irq_ok hstep
          have hquiet := quiet_takeIrq i k
          have hproc : (takeIrq i k).proc = k.proc := step_irq_proc hstep
          have hcurrent : (takeIrq i k).current = k.current := by
            rw [Kernel.current, hproc, hquiet.slot, Kernel.current]
          have hnext : Tracks staleTop boxedTop called (takeIrq i k) := by
            refine ⟨hready, ?_, ?_, ?_⟩
            · unfold AllApart
              rw [hproc]
              exact h.apart
            · rw [hquiet.top, hcurrent]
              exact h.before
            · rw [hquiet.top, hcurrent]
              exact h.after
          have hcalled : Called ((.irq i, o) :: tr) ↔ Called tr := by simp [Called]
          rw [hcalled]
          exact ih hnext hrest
      | syscall t =>
          obtain ⟨r, -, hsys⟩ := step_syscall_ok hstep
          have hedit := turn_edit h.ready (syscall_turn h.ready hsys)
          have hnext : Tracks staleTop boxedTop True k₁ := by
            refine ⟨hready, ?_, fun hno => absurd trivial hno, fun _ => syscall_top h.ready hsys⟩
            apply h.apart.edit hedit
            exact hheap k t k₁ ⟨[], o, tr, rfl, .done k, hstep⟩
          have hcalled : called ∨ Called ((.syscall t, o) :: tr) ↔ True ∨ Called tr :=
            iff_of_true (.inr ⟨t, o, List.mem_cons_self⟩) (.inl trivial)
          rw [hcalled]
          exact ih hnext hrest

theorem Owned.of_top {k : Kernel} (happart : AllApart k) {p : Process} (hp : k.current = some p)
    (htop : k.currentKstackTop = p.kstackTop) : Owned k where
  top := ⟨p, hp, htop⟩
  pushes t mem ret a ha := by
    have hon : OnKstack k.currentKstackTop a := syscallEntry_writes (entryMachine k t mem) ha
    rw [htop] at hon
    refine ⟨⟨p, hp, hon⟩, ?_⟩
    intro s q hs hq
    exact happart k.currentSlot s p q (Ne.symm hs) hp hq a hon

/-- System calls enter on the current process's own stack once one of them has
returned, and before that only if the first process had not been moved. -/
theorem kernel_stack_owned_iff (cfg : Config) (staleTop boxedTop : UInt64) (k₀ k : Kernel)
    (tr : List (Event × Option Resumed))
    (hrun : Run (step cfg) (boot staleTop boxedTop k₀) tr k)
    (hheap : HeapFresh cfg (boot staleTop boxedTop k₀) tr) :
    Owned k ↔ staleTop = boxedTop ∨ Called tr := by
  have htracks := run_tracks hrun (boot_tracks staleTop boxedTop k₀) hheap
  rw [false_or] at htracks
  constructor
  · intro howned
    by_cases hcalled : Called tr
    · exact .inr hcalled
    · obtain ⟨hstale, p, hp, hboxed⟩ := htracks.before hcalled
      obtain ⟨q, hq, htop⟩ := howned.top
      rw [hp, Option.some.injEq] at hq
      rw [hstale, ← hq, hboxed] at htop
      exact .inl htop
  · intro hcond
    by_cases hcalled : Called tr
    · obtain ⟨p, hp, htop⟩ := htracks.after hcalled
      exact Owned.of_top htracks.apart hp htop
    · obtain ⟨hstale, p, hp, hboxed⟩ := htracks.before hcalled
      apply Owned.of_top htracks.apart hp
      rw [hstale, hcond.resolve_right hcalled, hboxed]

/-- After the first `fork` the child runs on its own kernel stack. -/
theorem kernel_stack_owned_fork : ∃ k o, Run (step machine) started [(.syscall forkTrap, o)] k ∧
    k.currentSlot = 1 ∧ Owned k := by
  have hslot : (step machine (.syscall forkTrap) started).map (fun x => x.2.currentSlot) =
      some 1 := by decide +kernel
  obtain ⟨⟨o, k⟩, hstep, hk⟩ := Option.map_eq_some_iff.mp hslot
  refine ⟨k, o, .single hstep, hk, ?_⟩
  apply (kernel_stack_owned_iff machine _ _ _ k _ (.single hstep) ?_).mpr
  · exact .inr ⟨forkTrap, o, List.mem_singleton_self _⟩
  · intro x t y htakes _ s p hp
    obtain ⟨ht, rfl⟩ := takes_singleton htakes
    cases ht
    rw [(boot_proc hp).2]
    exact (apart_of_le (by decide) (by decide)).symm

/-- The first system call of the first process pushes outside its kernel stack. -/
theorem first_entry_off_stack : Run (step machine) started [] started ∧
    started.currentKstackTop = 0x10000204000 ∧
    started.current.map Process.kstackTop = some 0x444444448000 ∧ ¬Owned started := by
  refine ⟨.done started, rfl, rfl, ?_⟩
  intro howned
  obtain ⟨p, hp, htop⟩ := howned.top
  rw [show p = _ from (boot_proc hp).2] at htop
  exact absurd htop (by decide)

end Rockos.KernelStacks
