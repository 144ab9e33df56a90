import Rockos.ForkStacks

/-!
# The stacks that the pointer checks know (user.rs, process.rs)

`sys_fork` gives a child a stack page of its own, and the pointer checks accept
the stack page of the first process, whoever is running. What a child passes
from its stack is accepted only if the image happens to cover the child's page.
-/
namespace Rockos.OwnStack
open FallibleState PhysMemory Paging PageEdits KernelState AddressSpace ProcessCalls Syscall
open SyscallEffects SystemMemory RunQueue Turns ForkStacks Runs

/-- The process of slot `s` is the one that runs. -/
def withCurrent (s : ℕ) (k : Kernel) : Kernel := { k with currentSlot := s }

/-- The process may pass any part of its stack page to a system call. -/
def AcceptsOwnStack (k : Kernel) (s : ℕ) (p : Process) : Prop :=
  ∀ addr len, stackTop p - pageSize ≤ addr → addr + len ≤ stackTop p →
    userRegionIsReadableRange (withCurrent s k) addr len = true ∧
    userRegionIsWritableRange (withCurrent s k) addr len = true

/-- The image, and its part that counts as writable, contain the stack page of
the children. -/
def CoversChildStack (image : UserImage) : Prop :=
  userStackChildTop ≤ image.imageEnd ∧ image.rwImageStart ≤ childStackLo

/-! ## The checks -/

theorem accepts_first {k : Kernel} {s : ℕ} {p : Process} (hp : p.parent = none) :
    AcceptsOwnStack k s p := by
  intro addr len hlo hhi
  rw [stackTop, hp] at hlo hhi
  have hstack : inStack addr (addr + len) = true := by
    simp only [inStack, Bool.and_eq_true, decide_eq_true_eq]
    exact ⟨hlo, hhi⟩
  have hfits : ¬addr + len ≥ 2 ^ 64 := by
    have hle : addr + len ≤ userStackTop := hhi
    unfold userStackTop at hle
    omega
  unfold userRegionIsReadableRange userRegionIsWritableRange
  simp only [if_neg hfits, hstack, Bool.or_true, Bool.true_or, and_self]

/-- Below the heap and without areas, only the image is left. -/
theorem accepts_child_iff {k : Kernel} {s : ℕ} {p : Process} (hp : k.proc s = some p)
    (hparent : p.parent ≠ none) (hareas : p.vmAreas = []) :
    AcceptsOwnStack k s p ↔ CoversChildStack k.mem.image := by
  have htop : stackTop p = userStackChildTop := by
    cases h : p.parent with
    | none => exact absurd h hparent
    | some _ => rw [stackTop, h]; rfl
  have hcurrent : (withCurrent s k).current = some p := hp
  have hmmap : ∀ counts addr hi, coversMmap counts (withCurrent s k) addr hi = false := by
    intro counts addr hi
    rw [coversMmap, hcurrent]
    simp [hareas]
  have hbrk : ∀ {addr hi}, addr < userBrkBase →
      coversBrkHeap (withCurrent s k) addr hi = false := by
    intro addr hi hlow
    rw [coversBrkHeap, hcurrent]
    simp only [Bool.and_eq_false_iff, decide_eq_false_iff_not]
    exact .inl (.inl (by omega))
  unfold AcceptsOwnStack CoversChildStack
  rw [htop]
  constructor
  · intro haccepts
    obtain ⟨-, hwrite⟩ := haccepts childStackLo pageSize le_rfl (by decide)
    have hstack : inStack childStackLo (childStackLo + pageSize) = false := by decide
    have hfits : ¬childStackLo + pageSize ≥ 2 ^ 64 := by decide
    have hlow : childStackLo < userBrkBase := by decide
    simp only [userRegionIsWritableRange, if_neg hfits, hstack, hbrk hlow, coversMmapWrite, hmmap,
      Bool.false_or, Bool.and_eq_true, decide_eq_true_eq] at hwrite
    exact ⟨hwrite.2, hwrite.1⟩
  · rintro ⟨hend, hrw⟩ addr len hlo hhi
    have hfits : ¬addr + len ≥ 2 ^ 64 := by
      unfold userStackChildTop at hhi
      omega
    have himage : (withCurrent s k).mem.image = k.mem.image := rfl
    have hlow : userTextBase ≤ addr := le_trans (by decide) hlo
    have hstart : k.mem.image.rwImageStart ≤ addr := le_trans hrw hlo
    have hin : addr + len ≤ k.mem.image.imageEnd := le_trans hhi hend
    unfold userRegionIsReadableRange userRegionIsWritableRange
    simp only [if_neg hfits, himage, ge_iff_le, hlow, hstart, hin, decide_true, Bool.and_self,
      Bool.true_or, Bool.or_true, and_self]

/-! ## Runs of forks -/

/-- Nobody has an area, and the image is the one that was loaded. -/
structure Unmapped (image : UserImage) (k : Kernel) : Prop where
  areas : ∀ s p, k.proc s = some p → p.vmAreas = []
  image : k.mem.image = image

theorem mapChildStackAndCopy_image (w : Walker) (saved : SyscallFrame.SyscallSaved) :
    Within SameImage (mapChildStackAndCopy w saved) := by
  have hmap : Within SameImage (mapChildStack w) :=
    within_bind (within_virtAddr _) fun _ => within_bind within_get fun _ =>
      within_ite (mapNewPage_image w _ _) (within_pure _)
  refine within_bind hmap fun _ => within_ite (within_throw _) ?_
  exact within_copyUserPages (fun _ _ _ => rfl) _ _ _

section
variable {cfg : Config} {t : Trap} {k k' : Kernel} {image : UserImage}

theorem fork_image (hfork : sysno (t.reg .rax) = some .fork) :
    (final (syscall cfg t k)).mem.image = k.mem.image := by
  have htrap : (trapState t k).mem.image = k.mem.image := userStores_image t.stores k.mem
  cases @fork_mem cfg t k hfork with
  | inl hsame => rw [hsame, htrap]
  | inr hcopy =>
      rw [hcopy]
      exact (mapChildStackAndCopy_image cfg.walker (forkSave cfg t k) _).trans htrap

/-- A child starts with the areas of its parent. -/
theorem fork_areas (hturn : Turn cfg t k k') (hfork : sysno (t.reg .rax) = some .fork)
    (h : ∀ s p, k.proc s = some p → p.vmAreas = []) :
    ∀ s p, k'.proc s = some p → p.vmAreas = [] := by
  cases hturn with
  | exited call _ _ =>
      rw [hfork] at call
      cases call
  | returned v k₁ call _ _ hproc _ =>
      have hdispatched : ∀ s p, k₁.proc s = some p → p.vmAreas = [] := by
        rw [dispatch_eq, syscallDispatch, hfork] at call
        obtain ⟨v', -, hrun⟩ := returning_ok call
        cases sysFork_cases hrun with
        | inl hrefused =>
            obtain ⟨-, m, rfl⟩ := hrefused
            exact h
        | inr hspawned =>
            obtain ⟨pid, parent, slot, -, -, hparent, -, hf⟩ := hspawned
            intro s p hp
            rw [hf.proc s] at hp
            split_ifs at hp with hs
            · rw [← Option.some.inj hp]
              exact h _ parent hparent
            · exact h s p hp
      intro s p hp
      rw [hproc s] at hp
      split_ifs at hp with hs
      · obtain ⟨q, hq, rfl⟩ := Option.map_eq_some_iff.mp hp
        exact hdispatched s q hq
      · exact hdispatched s p hp

end

/-- The run consists of forks and interrupts. -/
def ForkOnly (tr : List (Event × Option Resumed)) : Prop :=
  ∀ t o, (Event.syscall t, o) ∈ tr → sysno (t.reg .rax) = some .fork

theorem run_unmapped {cfg : Config} {k k' : Kernel} {tr : List (Event × Option Resumed)}
    {image : UserImage} (hrun : Run (step cfg) k tr k') (hforks : ForkOnly tr) (hready : Ready k)
    (h : Unmapped image k) : Unmapped image k' := by
  induction hrun with
  | done k => exact h
  | @step k k₁ k' e o tr hstep _ ih =>
      have hrest : ForkOnly tr := fun t o' hmem => hforks t o' (List.mem_cons_of_mem _ hmem)
      apply ih hrest (step_ready e k o k₁ hstep hready)
      cases e with
      | irq i =>
          have hproc := step_irq_proc hstep
          obtain ⟨-, rfl⟩ := step_irq_ok hstep
          refine ⟨by rw [hproc]; exact h.areas, ?_⟩
          rw [show (takeIrq i k).mem = k.mem from takeIrqs_mem [i] k, h.image]
      | syscall t =>
          have hfork := hforks t o List.mem_cons_self
          obtain ⟨r, -, hsys⟩ := step_syscall_ok hstep
          refine ⟨fork_areas (syscall_turn hready hsys) hfork h.areas, ?_⟩
          have himage := @fork_image cfg t k hfork
          rw [hsys] at himage
          exact himage.trans h.image

/-- In every state that forks lead to, a process may pass its own stack to
system calls exactly if it is the first one, or the image contains the page. -/
theorem own_stack_accepted_iff (cfg : Config) (staleTop boxedTop : UInt64) (k₀ k : Kernel)
    (tr : List (Event × Option Resumed))
    (hrun : Run (step cfg) (boot staleTop boxedTop k₀) tr k) (hforks : ForkOnly tr)
    (s : ℕ) (p : Process) (hp : k.proc s = some p) :
    AcceptsOwnStack k s p ↔ p.parent = none ∨ CoversChildStack k₀.mem.image := by
  have hboot : Unmapped k₀.mem.image (boot staleTop boxedTop k₀) := by
    refine ⟨?_, rfl⟩
    intro s p hp
    rw [(boot_proc hp).2]
    rfl
  have hk := run_unmapped hrun hforks (boot_ready staleTop boxedTop k₀) hboot
  cases hparent : p.parent with
  | none => exact iff_of_true (accepts_first hparent) (.inl rfl)
  | some q =>
      rw [accepts_child_iff hp (by simp [hparent]) (hk.areas s p hp), hk.image]
      simp

/-- After the first `fork` the parent may still use its stack. -/
theorem own_stack_accepted_parent : ∃ k o p,
    Run (step machine) started [(.syscall forkTrap, o)] k ∧ k.proc 0 = some p ∧
    AcceptsOwnStack k 0 p := by
  have hproc : (step machine (.syscall forkTrap) started).map
      (fun x => (x.2.proc 0).map Process.parent) = some (some none) := by decide +kernel
  obtain ⟨⟨o, k⟩, hstep, hk⟩ := Option.map_eq_some_iff.mp hproc
  obtain ⟨p, hp, hparent⟩ := Option.map_eq_some_iff.mp hk
  refine ⟨k, o, p, .single hstep, hp, ?_⟩
  apply (own_stack_accepted_iff machine _ _ _ k _ (.single hstep) ?_ 0 p hp).mpr
  · exact .inl hparent
  · intro t o' hmem
    cases List.mem_singleton.mp hmem
    rfl

/-- The child may use none of its own. -/
theorem child_stack_refused : ∃ k o p, Run (step machine) started [(.syscall forkTrap, o)] k ∧
    k.currentSlot = 1 ∧ k.proc 1 = some p ∧ p.exitCode = none ∧
    userRegionIsReadableRange k 0x402FF0 8 = false ∧
    userRegionIsWritableRange k 0x402FF0 8 = false ∧ ¬AcceptsOwnStack k 1 p := by
  have hfacts : (step machine (.syscall forkTrap) started).map (fun x =>
      (x.2.currentSlot, (x.2.proc 1).map (fun p => (p.exitCode, stackTop p)),
        userRegionIsReadableRange x.2 0x402FF0 8, userRegionIsWritableRange x.2 0x402FF0 8)) =
      some (1, some (none, 0x403000), false, false) := by decide +kernel
  obtain ⟨⟨o, k⟩, hstep, hk⟩ := Option.map_eq_some_iff.mp hfacts
  simp only [Prod.mk.injEq] at hk
  obtain ⟨hslot, hproc, hread, hwrite⟩ := hk
  obtain ⟨p, hp, hvalues⟩ := Option.map_eq_some_iff.mp hproc
  simp only [Prod.mk.injEq] at hvalues
  refine ⟨k, o, p, .single hstep, hslot, hp, hvalues.1, hread, hwrite, ?_⟩
  intro haccepts
  have hcurrent : withCurrent 1 k = k := by
    rw [withCurrent, ← hslot]
  have hrange := (haccepts 0x402FF0 8 (by rw [hvalues.2]; decide) (by rw [hvalues.2]; decide)).1
  rw [hcurrent, hread] at hrange
  cases hrange

end Rockos.OwnStack
