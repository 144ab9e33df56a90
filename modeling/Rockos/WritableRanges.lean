import Rockos.ImageChecks
import Rockos.OwnStack
import Rockos.Reexec

/-!
# What may be written may be read (user.rs)

The two pointer checks are written separately. They agree on the stack, the heap
and the areas; of the image, one starts at `USER_TEXT_BASE` and the other at the
lowest writable segment. No call but `execve` moves these bounds, so which of
them is lower is settled when the program is loaded.
-/
namespace Rockos.WritableRanges
open FallibleState PhysMemory Paging ElfLoader PageEdits KernelState AddressSpace ProcessCalls
open Syscall SyscallEffects SystemMemory LoadedImage LoadedPages ImageChecks Turns ForkStacks
open OwnStack Reexec RunQueue Runs

/-- The check for writing accepts nothing that the check for reading refuses. -/
def WritableIsReadable (k : Kernel) : Prop :=
  ∀ addr len, userRegionIsWritableRange k addr len = true →
    userRegionIsReadableRange k addr len = true

/-! ## One state -/

theorem coversMmap_mono {counts counts' : VmArea → Bool}
    (h : ∀ a, counts a = true → counts' a = true) {k : Kernel} {addr hi : ℕ}
    (hcovers : coversMmap counts k addr hi = true) : coversMmap counts' k addr hi = true := by
  unfold coversMmap at hcovers ⊢
  cases hcur : k.current with
  | none =>
      rw [hcur] at hcovers
      cases hcovers
  | some p =>
      simp only [hcur, List.any_eq_true, Bool.and_eq_true] at hcovers ⊢
      obtain ⟨a, ha, ⟨hcounts, hlo⟩, hhi⟩ := hcovers
      exact ⟨a, ha, ⟨h a hcounts, hlo⟩, hhi⟩

theorem writableIsReadable_of_start {k : Kernel} (h : userTextBase ≤ k.mem.image.rwImageStart) :
    WritableIsReadable k := by
  intro addr len hwrite
  unfold userRegionIsWritableRange at hwrite
  unfold userRegionIsReadableRange
  by_cases hwrap : addr + len ≥ 2 ^ 64
  · simp only [if_pos hwrap] at hwrite
    cases hwrite
  simp only [if_neg hwrap, Bool.or_eq_true, Bool.and_eq_true, decide_eq_true_eq] at hwrite ⊢
  rcases hwrite with ((hstack | hheap) | harea) | ⟨hlo, hhi⟩
  · exact .inl (.inl (.inr hstack))
  · exact .inl (.inr hheap)
  · exact .inr (coversMmap_mono (fun _ _ => rfl) harea)
  · exact .inl (.inl (.inl ⟨h.trans hlo, hhi⟩))

/-- While the caller has no areas, nothing below the text can be read. -/
theorem not_writableIsReadable {k : Kernel} {p : Process} (hcaller : k.current = some p)
    (hareas : p.vmAreas = []) (hlow : k.mem.image.rwImageStart < userTextBase)
    (hend : userTextBase ≤ k.mem.image.imageEnd) : ¬ WritableIsReadable k := by
  intro h
  have hbase : userTextBase = 0x400000 := rfl
  have hwrap : ¬ k.mem.image.rwImageStart + 0 ≥ 2 ^ 64 := by omega
  have hread := h k.mem.image.rwImageStart 0 (by
    simp only [userRegionIsWritableRange, if_neg hwrap, Bool.or_eq_true, Bool.and_eq_true,
      decide_eq_true_eq]
    exact .inr ⟨le_rfl, by omega⟩)
  simp only [userRegionIsReadableRange, if_neg hwrap, coversMmapRead, coversMmap, coversBrkHeap,
    hcaller, hareas, inStack, List.any_nil, Bool.or_false, Bool.or_eq_true, Bool.and_eq_true,
    decide_eq_true_eq] at hread
  have hstack : userStackTop - pageSize = 0x401000 := rfl
  have hheap : userBrkBase = 0x404000 := rfl
  omega

/-! ## The image that was loaded -/

theorem loadElf_start {w : Walker} {image : List UInt8} {m m' : Mem} {entry : ℕ}
    (hload : loadElf w image 0 m = .ok entry m') :
    userTextBase ≤ m'.image.rwImageStart ↔
      ∀ ph ∈ loadHeaders image, ph.flags &&& 2 ≠ 0 → userTextBase ≤ ph.vaddr := by
  obtain ⟨md, t, hmapped, rfl⟩ := loadElf_parts hload
  obtain ⟨-, -, -, hrw⟩ := loadElfMapped_pages hmapped
  show userTextBase ≤ md.rwMin ↔ _
  rcases hrw with ⟨hnone, hrw⟩ | hleast
  · apply iff_of_true
    · rw [hrw]
      exact Nat.le_add_right _ _
    · intro ph hph hw
      have hmem : ph.vaddr ∈ writableStarts (loadHeaders image) := ⟨ph, hph, hw, rfl⟩
      rw [hnone] at hmem
      exact hmem.elim
  · constructor
    · intro hle ph hph hw
      exact hle.trans (hleast.2 ⟨ph, hph, hw, rfl⟩)
    · intro hall
      obtain ⟨ph, hph, hw, hlo⟩ := hleast.1
      rw [← hlo]
      exact hall ph hph hw

theorem loadElf_end {w : Walker} {image : List UInt8} {m m' : Mem} {entry : ℕ}
    (hload : loadElf w image 0 m = .ok entry m') : userTextBase ≤ m'.image.imageEnd := by
  obtain ⟨md, t, -, rfl⟩ := loadElf_parts hload
  show userTextBase ≤ max md.imageEnd (userTextBase + pageSize)
  exact (Nat.le_add_right _ _).trans (le_max_right _ _)

/-! ## The calls -/

/-- The bounds of the image are what they were. -/
def SameBounds (k k' : Kernel) : Prop := k'.mem.image = k.mem.image

instance : IsPreorder Kernel SameBounds where
  refl _ := rfl
  trans _ _ _ h h' := h'.trans h

theorem releasePage_image (virt : ℕ) : Within SameImage (releasePage virt) :=
  releasePage_within virt fun _ _ _ => rfl

theorem mapBrkShrink_image (newEnd oldEnd : ℕ) : Within SameImage (mapBrkShrink newEnd oldEnd) := by
  refine within_ite (within_pure _) (within_ite (within_pure _) ?_)
  refine within_bind (within_virtAddr _) fun _ => within_bind (within_virtAddr _) fun _ => ?_
  apply within_forPages
  intro page
  exact within_bind within_get fun _ => within_ite (within_pure _) (releasePage_image _)

theorem mapBrkGrow_image (w : Walker) (oldEnd newEnd : ℕ) (flags : PageTableFlags) :
    Within SameImage (mapBrkGrow w oldEnd newEnd flags) := by
  refine within_bind (within_virtAddr _) fun _ => within_bind (within_virtAddr _) fun _ => ?_
  apply within_forPages
  intro page
  exact within_bind within_get fun _ => within_ite (within_pure _) (mapNewPage_image w _ _)

theorem mapUserAnonPages_image (w : Walker) (start count : ℕ) (flags : PageTableFlags) :
    Within SameImage (mapUserAnonPages w start count flags) :=
  within_countLoop
    (fun _ _ => within_bind (within_virtAddr _) fun _ => mapNewPage_image w _ _) _ _ _

theorem unmapUserRange_image (start count : ℕ) : Within SameImage (unmapUserRange start count) :=
  within_countLoop (fun _ _ => within_bind (within_virtAddr _) fun _ => releasePage_image _) _ _ _

theorem onMem_bounds {α : Type} {x : MemM α} (hx : Within SameImage x) :
    Within SameBounds (onMem (attempt Stop.isErr x)) :=
  within_zoom (within_attempt hx) fun _ _ h => h

theorem editThen_bounds {edit : MemM Unit} (hedit : Within SameImage edit)
    (books : Kernel → Kernel) (hbooks : ∀ k, (books k).mem = k.mem) (v : UInt64) :
    Within SameBounds (editThen edit books v) := by
  refine within_bind (onMem_bounds hedit) fun r => ?_
  cases r with
  | none => exact within_pure _
  | some _ =>
      refine within_bind (within_modify _ fun k => ?_) fun _ => within_pure _
      exact congrArg Mem.image (hbooks k)

theorem sysBrk_bounds (w : Walker) (addr : ℕ) : Within SameBounds (sysBrk w addr) := by
  refine within_bind within_get fun k => ?_
  cases k.current with
  | none => exact within_pure _
  | some p =>
      refine within_ite (within_pure _) (within_ite (within_pure _) (within_ite ?_
        (within_ite (within_pure _) ?_)))
      · rw [commitBrk]
        exact editThen_bounds (mapBrkShrink_image _ _) (setBrkEnd addr) (fun _ => rfl) _
      · rw [commitBrk]
        exact editThen_bounds (mapBrkGrow_image _ _ _ _) (setBrkEnd addr) (fun _ => rfl) _

theorem sysMmap_bounds (w : Walker) (addr len prot : ℕ) :
    Within SameBounds (sysMmap w addr len prot) := by
  have hat : ∀ a, Within SameBounds (mmapAt w a (pageCount len) prot) := by
    intro a
    rw [mmapAt]
    exact editThen_bounds (mapUserAnonPages_image _ _ _ _)
      (pushArea a (pageCount len) prot) (fun _ => rfl) _
  refine within_ite (within_pure _) (within_ite ?_ (within_ite (within_pure _)
    (within_ite (within_pure _) (hat _))))
  refine within_bind within_get fun k => within_bind (within_modify _ fun _ => rfl) fun _ => ?_
  exact within_ite (within_pure _) (hat _)

theorem sysMunmap_bounds (addr len : ℕ) : Within SameBounds (sysMunmap addr len) := by
  refine within_ite (within_pure _) (within_bind within_get fun k => ?_)
  refine within_bind (within_modify _ fun _ => rfl) fun _ => within_ite (within_pure _) ?_
  refine within_bind (onMem_bounds (unmapUserRange_image _ _)) fun r => ?_
  cases r with
  | none => exact within_pure _
  | some _ => exact within_pure _

theorem sysFork_bounds (w : Walker) (mem : UInt64 → UInt64) (rsp top : UInt64) :
    Within SameBounds (sysFork w mem rsp top) := by
  intro k
  rcases sysFork_mem w mem rsp top k with hsame | hcopy
  · exact congrArg Mem.image hsame
  · show (final (sysFork w mem rsp top k)).mem.image = k.mem.image
    rw [hcopy]
    exact mapChildStackAndCopy_image w _ k.mem

theorem allowsTail_sameBounds : AllowsTail SameBounds where
  wait k irqs rest := congrArg Mem.image (takeIrqs_mem irqs { k with waits := rest })
  own _ _ _ := rfl
  switch _ _ h := congrArg Mem.image (congrArg Prod.fst h)
  exit _ _ := rfl

/-- The calls that change the address space in place. -/
def EditsSpace (n : UInt64) : Prop :=
  sysno n ∈ [some Sysno.brk, some .mmap, some .munmap, some .fork]

instance (n : UInt64) : Decidable (EditsSpace n) := inferInstanceAs (Decidable (_ ∈ _))

theorem syscallDispatch_bounds (cfg : Config) (t : Trap)
    (m : StackMachine.Machine SyscallFrame.Glob) {n : UInt64} (arg0 arg1 arg2 : UInt64)
    (h : EditsSpace n) : Within SameBounds (syscallDispatch cfg t m n arg0 arg1 arg2) := by
  have hret : ∀ {x : KernelM UInt64}, Within SameBounds x → Within SameBounds (returning x) :=
    fun hx => within_bind hx fun _ => within_pure _
  unfold syscallDispatch
  simp only [EditsSpace, List.mem_cons, List.not_mem_nil, or_false] at h
  rcases h with h | h | h | h
  · rw [h]
    exact hret (sysBrk_bounds _ _)
  · rw [h]
    exact hret (sysMmap_bounds _ _ _ _)
  · rw [h]
    exact hret (sysMunmap_bounds _ _)
  · rw [h]
    exact hret (sysFork_bounds _ _ _ _)

theorem syscall_bounds {cfg : Config} {t : Trap} {k k' : Kernel} {r : Resumed}
    (hcall : EditsSpace (t.reg .rax)) (hrun : syscall cfg t k = .ok r k') : SameBounds k k' := by
  obtain ⟨k₁, d, hdispatch, hrest⟩ := syscall_ok hrun
  have htrap : SameBounds k (trapState t k) := userStores_image t.stores k.mem
  have hcalled := IsTrans.trans _ _ _ htrap
    ((syscallDispatch_bounds _ _ _ _ _ _ hcall).ok hdispatch)
  rcases hrest with ⟨-, rfl⟩ | ⟨v, -, htail⟩
  · exact hcalled
  · exact IsTrans.trans _ _ _ hcalled
      ((completeSyscallAndSchedule_within allowsTail_sameBounds _ _ _).ok htail)

/-- The run consists of such calls and interrupts. -/
def SpaceCalls (tr : List (Event × Option Resumed)) : Prop :=
  ∀ t o, (Event.syscall t, o) ∈ tr → EditsSpace (t.reg .rax)

theorem run_bounds {cfg : Config} {k k' : Kernel} {tr : List (Event × Option Resumed)}
    (hrun : Run (step cfg) k tr k') (hcalls : SpaceCalls tr) : SameBounds k k' := by
  induction hrun with
  | done k => rfl
  | @step k k₁ k' e o tr hstep _ ih =>
      have hrest := ih fun t o' hmem => hcalls t o' (List.mem_cons_of_mem _ hmem)
      refine IsTrans.trans _ _ _ ?_ hrest
      cases e with
      | irq i =>
          obtain ⟨-, rfl⟩ := step_irq_ok hstep
          exact congrArg Mem.image (takeIrqs_mem [i] k)
      | syscall t =>
          obtain ⟨r, -, hsys⟩ := step_syscall_ok hstep
          exact syscall_bounds (hcalls t o List.mem_cons_self) hsys

/-- Whatever is writable stays readable in all runs, exactly if no segment that is
writable starts below the text base. -/
theorem writable_readable_iff (cfg : Config) (staleTop boxedTop : UInt64) (m m' : Mem) (entry : ℕ)
    (k₀ : Kernel) (hload : loadElf cfg.walker cfg.initElf 0 m = .ok entry m')
    (hk₀ : k₀.mem = setUserEntry entry m') :
    (∀ tr k, Run (step cfg) (boot staleTop boxedTop k₀) tr k → SpaceCalls tr →
      WritableIsReadable k) ↔
      ∀ ph ∈ loadHeaders cfg.initElf, ph.flags &&& 2 ≠ 0 → userTextBase ≤ ph.vaddr := by
  have hmem : (boot staleTop boxedTop k₀).mem = setUserEntry entry m' := hk₀
  have hstart : (boot staleTop boxedTop k₀).mem.image.rwImageStart = m'.image.rwImageStart := by
    rw [hmem]
    rfl
  have hend : (boot staleTop boxedTop k₀).mem.image.imageEnd = m'.image.imageEnd := by
    rw [hmem]
    rfl
  rw [← loadElf_start hload]
  constructor
  · intro hall
    by_contra hlow
    refine not_writableIsReadable (k := boot staleTop boxedTop k₀) rfl rfl ?_ ?_
      (hall [] _ (.done _) ?_)
    · rw [hstart]
      omega
    · rw [hend]
      exact loadElf_end hload
    · intro t o hmem
      cases hmem
  · intro hle tr k hrun hcalls
    apply writableIsReadable_of_start
    rw [show k.mem.image = _ from run_bounds hrun hcalls, hstart]
    exact hle

/-- The first program has no writable segment at all. -/
theorem writable_readable_spin : ∃ m', loadElf flatWalker spinElf 0 stackMapped = .ok 0x400078 m' ∧
    ∀ tr k, Run (step machine) (boot 0 0 (statics (setUserEntry 0x400078 m'))) tr k →
      SpaceCalls tr → WritableIsReadable k := by
  obtain ⟨m', hload⟩ := spinElf_loads
  refine ⟨m', hload, ?_⟩
  apply (writable_readable_iff machine 0 0 stackMapped m' _ (statics (setUserEntry 0x400078 m'))
    hload rfl).mpr
  intro ph hph hw
  rw [show machine.initElf = spinElf from rfl, spinElf_headers] at hph
  rw [List.mem_singleton.mp hph]
  decide

/-- A writable segment laid out like that of the embedded program, from the page
below the text base on. -/
def lowDataElf : List UInt8 := patch lowElf 68 (leBytes 4 7)

theorem writable_not_readable : ∃ m',
    loadElf flatWalker lowDataElf 0 stackMapped = .ok 0x400078 m' ∧
    userRegionIsWritableRange (boot 0 0 (statics (setUserEntry 0x400078 m'))) 0x3FF000 8 = true ∧
    userRegionIsReadableRange (boot 0 0 (statics (setUserEntry 0x400078 m'))) 0x3FF000 8 =
      false := by
  have hrun : (returned (loadElf flatWalker lowDataElf 0 stackMapped)).map (fun x => (x.1,
      userRegionIsWritableRange (boot 0 0 (statics (setUserEntry 0x400078 x.2))) 0x3FF000 8,
      userRegionIsReadableRange (boot 0 0 (statics (setUserEntry 0x400078 x.2))) 0x3FF000 8)) =
      some (0x400078, true, false) := by decide +kernel
  obtain ⟨entry, m', hload, hx⟩ := ok_of_returned hrun
  simp only [Prod.mk.injEq] at hx
  obtain ⟨rfl, hwrite, hread⟩ := hx
  exact ⟨m', hload, hwrite, hread⟩

end Rockos.WritableRanges
