import Rockos.CallFootprints
import Rockos.MemoryFence
import Rockos.SystemMemory

/-!
# User programs never reach kernel memory

The kernel checks user pointers against the books of the running process and
then dereferences them with its own rights, so a wrong book entry would let it
overwrite its own heap. Two things together prevent that: the books of every
process end below the fence, which every call that edits them keeps, and so do
all pages that a call maps, unmaps or copies to. User code itself stores only
to pages that are marked for it, and there is none above the fence.

The one thing the kernel does not check is where the segments of the embedded
program lie, so that they end below the fence is an assumption.
-/
namespace Rockos.KernelMemory
open FallibleState PhysMemory Paging ElfLoader KernelState AddressSpace ProcessCalls Syscall
open SyscallFrame FrameSafety SystemMemory SyscallEffects RunQueue Turns CallFootprints
open MemoryFootprints MemoryFence Runs

/-- What a process may pass to the kernel ends where the windows end. -/
structure BooksBelow (p : Process) : Prop where
  brk : p.brkEnd ≤ userBrkLimit
  areas : ∀ a ∈ p.vmAreas, a.virtEnd ≤ userMmapLimit

structure Guarded (bound : ℕ) (m₀ : Mem) (g : ℕ) (k : Kernel) : Prop where
  mem : Fenced bound m₀ g k.mem
  books : ∀ s p, k.proc s = some p → BooksBelow p

/-- The fence is above everything that the kernel maps for its users. -/
structure Fence (cfg : Config) (bound : ℕ) : Prop where
  low : 0x804000 ≤ bound * pageSize
  image : Below bound cfg.initElf

section
variable {bound g : ℕ} {m₀ : Mem} {k k' : Kernel}

theorem Guarded.of_eq (h : Guarded bound m₀ g k) (hmem : k'.mem = k.mem)
    (hprocs : k'.procs = k.procs) : Guarded bound m₀ g k' := by
  refine ⟨hmem ▸ h.mem, fun s p hp => h.books s p ?_⟩
  rw [← hp, Kernel.proc, Kernel.proc, hprocs]

theorem onMem_guarded {α : Type} {x : MemM α} (hx : Within (Keeps (Fenced bound m₀ g)) x) :
    Within (Keeps (Guarded bound m₀ g)) (onMem x) :=
  within_zoom hx fun _ _ hm hk => ⟨hm hk.mem, hk.books⟩

theorem Guarded.updateProc (h : Guarded bound m₀ g k) (slot : ℕ) {f : Process → Process}
    (hf : ∀ p, k.proc slot = some p → BooksBelow p → BooksBelow (f p)) :
    Guarded bound m₀ g (k.updateProc slot f) := by
  refine ⟨h.mem, fun s p hp => ?_⟩
  rw [proc_updateProc] at hp
  split_ifs at hp with hs
  · obtain ⟨q, hq, rfl⟩ := Option.map_eq_some_iff.mp hp
    rw [hs] at hq
    exact hf q hq (h.books slot q hq)
  · exact h.books s p hp

theorem Guarded.current (h : Guarded bound m₀ g k) {p : Process} (hp : k.current = some p) :
    BooksBelow p := h.books _ p hp

/-- A range that the kernel agrees to write to ends below the fence. -/
theorem writable_below (h : Guarded bound m₀ g k) (hlow : 0x804000 ≤ bound * pageSize)
    (hold : m₀.image.imageEnd ≤ bound * pageSize) {addr len : ℕ}
    (hw : userRegionIsWritableRange k addr len = true) : addr + len ≤ bound * pageSize := by
  have himage := h.mem.image
  rw [max_eq_right hold] at himage
  simp only [userRegionIsWritableRange] at hw
  split_ifs at hw with hover
  simp only [Bool.or_eq_true, Bool.and_eq_true, decide_eq_true_eq, inStack] at hw
  rcases hw with ((hstack | hbrk) | hmmap) | hrw
  · have htop : userStackTop = 0x402000 := rfl
    omega
  · have hlimit : userBrkLimit = 0x410000 := rfl
    cases hp : k.current with
    | none => simp [coversBrkHeap, hp] at hbrk
    | some p =>
        simp only [coversBrkHeap, hp, Bool.and_eq_true, decide_eq_true_eq] at hbrk
        omega
  · have hlimit : userMmapLimit = 0x480000 := rfl
    cases hp : k.current with
    | none => simp [coversMmapWrite, coversMmap, hp] at hmmap
    | some p =>
        simp only [coversMmapWrite, coversMmap, hp, List.any_eq_true, Bool.and_eq_true,
          decide_eq_true_eq] at hmmap
        obtain ⟨a, ha, -, hend⟩ := hmmap
        have hbelow := (h.current hp).areas a ha
        omega
  · omega

/-! ## Calls without user memory -/

theorem permits_guarded (e : Edit) (he : e ∈ [Edit.placement, .files, .descriptor, .terminal,
    .resched, .irqs, .queue]) : Permits (Keeps (Guarded bound m₀ g)) e := by
  simp only [List.mem_cons, List.not_mem_nil, or_false] at he
  rcases he with rfl | rfl | rfl | rfl | rfl | rfl | rfl
  · exact fun _ _ _ h => h.of_eq rfl rfl
  · exact fun _ _ _ h => h.of_eq rfl rfl
  · exact fun _ _ h => h.of_eq rfl rfl
  · exact fun _ _ h => h.of_eq rfl rfl
  · exact fun _ h => h.of_eq rfl rfl
  · exact fun k irqs rest h => h.of_eq (takeIrqs_mem irqs { k with waits := rest })
      (takeIrqs_procs irqs { k with waits := rest })
  · exact fun _ _ h => h.of_eq rfl rfl

/-! ## Calls that store through user pointers -/

theorem mayDeliver_guarded {buf len : ℕ} (hbuf : buf + len ≤ bound * pageSize) :
    MayDeliver (Keeps (Guarded bound m₀ g)) buf len := fun bytes hlen =>
  onMem_guarded (storeBytes_within mayStore_fenced bytes fun j hj => Set.mem_Iio.mpr (by omega))

section
variable (hlow : 0x804000 ≤ bound * pageSize) (hold : m₀.image.imageEnd ≤ bound * pageSize)
include hlow hold

theorem sysRead_guarded (fd : UInt64) (buf len : ℕ) :
    Within (Keeps (Guarded bound m₀ g)) (sysRead fd buf len) := by
  refine within_ite (within_pure _) (within_keeps_get fun k hk => ?_)
  split_ifs with hw hin hout
  · exact within_pure _
  · exact readStdin_footprint (mayDeliver_guarded (writable_below hk hlow hold (by simpa using hw)))
      (permits_guarded _ (by decide)) (permits_guarded _ (by decide))
  · exact within_pure _
  · exact readFile_footprint
      (mayDeliver_guarded (writable_below hk hlow hold (by simpa using hw))) fd

theorem deliverStatus_guarded (child : ℕ) (status : Int32) (wstatus : ℕ) :
    Within (Keeps (Guarded bound m₀ g)) (deliverStatus child status wstatus) := by
  refine within_ite (within_pure _) (within_keeps_get fun k hk => ?_)
  split_ifs with hw halign
  · exact within_pure _
  · exact within_throw _
  · have hbelow := writable_below hk hlow hold (by simpa using hw)
    exact within_bind (mayDeliver_guarded hbelow _ (ExecStack.length_leBytes _ _).le) fun _ =>
      within_pure _

theorem sysWait4_guarded (pid : ℤ) (wstatus : ℕ) :
    Within (Keeps (Guarded bound m₀ g)) (sysWait4 pid wstatus) := by
  have hreap : Within (Keeps (Guarded bound m₀ g)) (waitReap pid) := by
    refine within_bind within_get fun k => ?_
    split
    · exact within_pure _
    · refine within_bind (within_modify _ fun k' h => ⟨h.mem, fun s p hp => ?_⟩) fun _ =>
        within_pure _
      rename_i slot _ _ _
      refine h.books s p ?_
      simp only [Kernel.proc, List.getElem?_set, Option.join_eq_some_iff] at hp ⊢
      split_ifs at hp <;> simp_all
  refine within_bind hreap fun r => ?_
  split
  · exact within_pure _
  · exact deliverStatus_guarded hlow hold _ _ _

/-! ## Calls that edit the address space -/

theorem sysExecve_guarded (hheap : bound * pageSize ≤ heapStart) (w : Walker) {bin : List UInt8}
    (hbin : Below bound bin) (pathU argvU envpU : ℕ) :
    Within (Keeps (Guarded bound m₀ g)) (sysExecve w bin pathU argvU envpU) := by
  have hstack : userStackTop ≤ bound * pageSize := hlow.trans' (by decide)
  have hcanonical : bound * pageSize < 2 ^ 47 := hheap.trans_lt (by decide)
  refine within_bind (within_inspect _) fun r => ?_
  split
  · exact within_pure _
  · refine within_bind (onMem_guarded (within_attempt
      (loadElfExec_fenced w hbin hcanonical hstack hold _ _))) fun r => ?_
    split
    · exact within_pure _
    · refine within_bind (within_modify _ fun k h => h.updateProc _ fun _ _ hp =>
        ⟨hp.brk, hp.areas⟩) fun _ => ?_
      exact within_bind (within_modify _ fun k h => ⟨⟨h.mem.entries, h.mem.used, h.mem.apart,
        h.mem.bytes, h.mem.image⟩, h.books⟩) fun _ => within_pure _

end

/-- The child starts with its parent's books. -/
theorem spawn_guarded {parent : Process} (hparent : BooksBelow parent) (pid parentPid : ℕ)
    (save : SyscallSaved) (top : UInt64) :
    Within (Keeps (Guarded bound m₀ g)) (spawn pid parentPid parent save top) := by
  refine within_keeps_get fun k hk => ?_
  cases ha : allocSlot k.procs with
  | none => exact within_throw _
  | some x =>
      obtain ⟨-, hset⟩ := allocSlot_spec ha
      refine within_bind (within_modify _ fun k' h => ⟨h.mem, fun s p hp => ?_⟩) fun _ => ?_
      · have hp' := (hset (some _) s).symm.trans hp
        split_ifs at hp' with hs
        · rw [← Option.some.inj hp']
          exact ⟨hparent.brk, hparent.areas⟩
        · exact hk.books s p hp'
      · refine within_bind (within_modify _ fun k' h => h.updateProc _ fun _ _ hp =>
          ⟨hp.brk, hp.areas⟩) fun _ => ?_
        refine within_bind (within_modify _ fun k' h => h.of_eq rfl rfl) fun _ => ?_
        exact within_bind (within_modify _ fun k' h => h.of_eq rfl rfl) fun _ => within_pure _

theorem editThen_guarded {edit : MemM Unit} {books : Kernel → Kernel} (v : UInt64)
    (hedit : Within (Keeps (Fenced bound m₀ g)) edit)
    (hbooks : ∀ k, Guarded bound m₀ g k → Guarded bound m₀ g (books k)) :
    Within (Keeps (Guarded bound m₀ g)) (editThen edit books v) := by
  refine within_bind (onMem_guarded (within_attempt hedit)) fun r => ?_
  cases r with
  | none => exact within_pure _
  | some _ => exact within_bind (within_modify _ hbooks) fun _ => within_pure _

/-- The pages up to a program break. -/
theorem brkPages_below (a : ℕ) {b : ℕ} (hb : b ≤ userBrkLimit)
    (hlimit : userBrkLimit ≤ bound * pageSize) :
    ∀ page ∈ PageEdits.pagesOf a (b - 1), page ∈ Set.Iio bound := by
  have hpos : 0 < userBrkLimit := by decide
  have hsmall : userBrkLimit < 2 ^ 47 := by decide
  intro page hpage
  have hlast := ((PageEdits.mem_pagesOf_of_lt (by omega)).mp hpage).2
  exact hlast.trans_lt (pageOf_lt (by omega))

section
variable (hlow : 0x804000 ≤ bound * pageSize)
include hlow

theorem sysBrk_guarded (w : Walker) (addr : ℕ) :
    Within (Keeps (Guarded bound m₀ g)) (sysBrk w addr) := by
  have hlimit : userBrkLimit ≤ bound * pageSize := hlow.trans' (by decide)
  refine within_keeps_get fun k hk => ?_
  cases hp : k.current with
  | none => exact within_pure _
  | some p =>
      have hbrk := (hk.current hp).brk
      simp only
      split_ifs with hzero hrange hlt hsame
      · exact within_pure _
      · exact within_pure _
      · rw [commitBrk]
        have hpages := brkPages_below (alignUp addr pageSize) hbrk hlimit
        refine editThen_guarded _ (mapBrkShrink_within mayUnmap_fenced hpages) fun k h => ?_
        exact h.updateProc _ fun _ _ hp => ⟨by simp only; omega, hp.areas⟩
      · exact within_pure _
      · rw [commitBrk]
        have hpages := brkPages_below p.brkEnd (show addr ≤ userBrkLimit by omega) hlimit
        refine editThen_guarded _ (mapBrkGrow_within mayMap_fenced w _ hpages) fun k h => ?_
        exact h.updateProc _ fun _ _ hp => ⟨by simp only; omega, hp.areas⟩

theorem mmapAt_guarded (w : Walker) {addr nPages : ℕ} (prot : ℕ)
    (hend : addr + nPages * pageSize ≤ userMmapLimit) :
    Within (Keeps (Guarded bound m₀ g)) (mmapAt w addr nPages prot) := by
  have hlimit : userMmapLimit ≤ bound * pageSize := hlow.trans' (by decide)
  rw [mmapAt]
  refine editThen_guarded _ (mapUserAnonPages_within mayMap_fenced w _
    (pages_below (hend.trans (by decide)) (hend.trans hlimit))) fun k h => ?_
  have hbase : Guarded bound m₀ g { k with vmAreaNextId := (k.vmAreaNextId + 1) % 2 ^ 64 } :=
    h.of_eq rfl rfl
  refine hbase.updateProc _ fun p _ hp => ⟨hp.brk, fun a ha => ?_⟩
  rcases List.mem_append.mp ha with hmem | hmem
  · exact hp.areas a hmem
  · rw [List.mem_singleton.mp hmem]
    exact hend

theorem sysMmap_guarded (w : Walker) (addr len prot : ℕ) :
    Within (Keeps (Guarded bound m₀ g)) (sysMmap w addr len prot) := by
  have hmax : userMmapLimit < u64Max := by decide
  unfold sysMmap
  split_ifs with hlen haddr halign hrange
  · exact within_pure _
  · refine within_bind within_get fun k => ?_
    refine within_bind (within_modify _ fun k' h => h.of_eq rfl rfl) fun _ => ?_
    split_ifs with hroom
    · exact within_pure _
    · refine mmapAt_guarded hlow w prot ?_
      unfold saturatingAdd at hroom
      omega
  · exact within_pure _
  · exact within_pure _
  · refine mmapAt_guarded hlow w prot ?_
    have hlimit : userMmapLimit = 0x480000 := rfl
    unfold saturatingAdd at hrange
    unfold pageCount pageSize at *
    omega

theorem sysMunmap_guarded (addr len : ℕ) :
    Within (Keeps (Guarded bound m₀ g)) (sysMunmap addr len) := by
  have hlimit : userMmapLimit ≤ bound * pageSize := hlow.trans' (by decide)
  have hmax : userMmapLimit < u64Max := by decide
  refine within_ite (within_pure _) (within_keeps_get fun k hk => ?_)
  refine within_bind (within_modify _ fun k' h => h.updateProc _ fun p _ hp =>
    ⟨hp.brk, fun a ha => hp.areas a (List.mem_of_mem_filter ha)⟩) fun _ => ?_
  cases hp : k.current with
  | none => exact within_pure _
  | some p =>
      split_ifs with hnone
      · exact within_pure _
      · obtain ⟨a, ha, hspan⟩ : ∃ a ∈ p.vmAreas,
            spansExactly addr (saturatingAdd addr len) a = true := by simpa using hnone
        simp only [spansExactly, Bool.and_eq_true, decide_eq_true_eq] at hspan
        have hend := (hk.current hp).areas a ha
        have hdiv : len / pageSize * pageSize ≤ len := Nat.div_mul_le_self _ _
        rw [hspan.2] at hend
        unfold saturatingAdd at hend
        have hsmall : userMmapLimit ≤ 2 ^ 47 := by decide
        refine within_bind (onMem_guarded (within_attempt (unmapUserRange_within mayUnmap_fenced
          (pages_below (by omega) (by omega))))) fun r => ?_
        cases r with
        | none => exact within_pure _
        | some _ => exact within_pure _

theorem sysFork_guarded (w : Walker) (mem : UInt64 → UInt64) (rsp top : UInt64) :
    Within (Keeps (Guarded bound m₀ g)) (sysFork w mem rsp top) := by
  refine within_keeps_get fun k hk => ?_
  cases allocPid k.procs with
  | none => exact within_pure _
  | some pid =>
      refine within_bind (onMem_guarded (within_attempt
        (mapChildStackAndCopy_fenced w _ hlow))) fun r => ?_
      cases r with
      | none => exact within_pure _
      | some _ =>
          cases hp : k.current with
          | none => exact within_throw _
          | some parent => exact spawn_guarded (hk.current hp) _ _ _ _

end

/-! ## Whole system calls -/

theorem syscallDispatch_guarded {cfg : Config} (hfence : Fence cfg bound)
    (hheap : bound * pageSize ≤ heapStart) (hold : m₀.image.imageEnd ≤ bound * pageSize)
    (t : Trap) (m : StackMachine.Machine Glob)
    (n arg0 arg1 arg2 : UInt64) (hexit : sysno n ≠ some .exit) :
    Within (Keeps (Guarded bound m₀ g)) (syscallDispatch cfg t m n arg0 arg1 arg2) := by
  have hret : ∀ {x : KernelM UInt64}, Within (Keeps (Guarded bound m₀ g)) x →
      Within (Keeps (Guarded bound m₀ g)) (returning x) := fun hx =>
    within_bind hx fun _ => within_pure _
  have hfiles : Permits (Keeps (Guarded bound m₀ g)) .files := permits_guarded _ (by decide)
  unfold syscallDispatch
  cases hn : sysno n with
  | none => exact within_pure _
  | some c =>
      cases c with
      | read => exact hret (sysRead_guarded hfence.low hold _ _ _)
      | write => exact hret (sysWrite_footprint hfiles _ _ _)
      | openFile => exact hret (sysOpen_footprint hfiles (permits_guarded _ (by decide)) _ _)
      | close => exact hret (sysClose_footprint hfiles _)
      | mmap => exact hret (sysMmap_guarded hfence.low _ _ _ _)
      | munmap => exact hret (sysMunmap_guarded hfence.low _ _)
      | brk => exact hret (sysBrk_guarded hfence.low _ _)
      | execve => exact hret (sysExecve_guarded hfence.low hold hheap _ hfence.image _ _ _)
      | schedYield =>
          exact hret (within_bind (within_modify _ (permits_guarded .resched (by decide)))
            fun _ => within_pure _)
      | nanosleep => exact hret (sysNanosleep_footprint (permits_guarded .irqs (by decide)) _)
      | getpid => exact hret (within_bind within_get fun _ => within_pure _)
      | getppid => exact hret (within_bind within_get fun _ => within_pure _)
      | fork => exact hret (sysFork_guarded hfence.low _ _ _ _)
      | wait4 => exact hret (sysWait4_guarded hfence.low hold _ _)
      | exit => exact absurd hn hexit

/-- No page above the fence is marked for user code. -/
def Supervised (bound : ℕ) (m : Mem) : Prop :=
  ∀ p e, bound ≤ p → m.pt.entries p = some e → e.flags.userAccessible = false

/-- What user code stores stays below the fence. -/
theorem userStores_fenced {m : Mem} (h : Fenced bound m₀ g m) (hsup : Supervised bound m₀)
    (stores : List (ℕ × UInt8)) : Fenced bound m₀ g (stores.foldl userStore m) := by
  induction stores generalizing m with
  | nil => exact h
  | cons s stores ih =>
      refine ih ?_
      unfold userStore
      cases he : m.pt.entries (pageOf s.1) with
      | none => exact h
      | some e =>
          simp only
          split_ifs with hflags
          · have hbelow : pageOf s.1 < bound := by
              by_contra habove
              rw [h.entries _ (by omega)] at he
              rw [hsup _ e (by omega) he, Bool.and_false] at hflags
              cases hflags
            exact h.write hbelow he s.2
          · exact h

theorem Guarded.trap (h : Guarded bound m₀ g k) (hsup : Supervised bound m₀) (t : Trap) :
    Guarded bound m₀ g (trapState t k) :=
  ⟨userStores_fenced h.mem hsup t.stores, h.books⟩

theorem Guarded.tail {k₁ : Kernel} (h : Guarded bound m₀ g k₁) (slot : ℕ) (t : Trap) (k : Kernel)
    (v : UInt64) : Guarded bound m₀ g (tailState slot t k v k₁) := by
  have hsaved : Guarded bound m₀ g (setSyscallSaved k.currentSlot (tailSave t k) v k₁) :=
    h.updateProc _ fun _ _ hp => ⟨hp.brk, hp.areas⟩
  refine hsaved.of_eq ?_ (reschedule_procs _)
  rw [tailState, setCurrentSlot, reschedule]
  split_ifs <;> rfl

theorem Guarded.exit {t : Trap} (h : Guarded bound m₀ g (trapState t k)) (slot : ℕ) :
    Guarded bound m₀ g (setCurrentSlot slot (exitLeft t k)) := by
  have hmarked : Guarded bound m₀ g (markExited (exitStatus t) (trapState t k)) :=
    h.updateProc _ fun _ _ hp => ⟨hp.brk, hp.areas⟩
  exact hmarked.of_eq rfl rfl

theorem step_guarded {cfg : Config} (hfence : Fence cfg bound)
    (hheap : bound * pageSize ≤ heapStart) (hold : m₀.image.imageEnd ≤ bound * pageSize)
    (hsup : Supervised bound m₀) (e : Event) (k : Kernel) (o : Option Resumed) (k' : Kernel)
    (hstep : step cfg e k = some (o, k'))
    (h : Ready k ∧ Guarded bound m₀ g k) : Ready k' ∧ Guarded bound m₀ g k' := by
  refine ⟨step_ready e k o k' hstep h.1, ?_⟩
  cases e with
  | irq i =>
      obtain ⟨-, rfl⟩ := step_irq_ok hstep
      exact h.2.of_eq (takeIrqs_mem [i] k) (takeIrqs_procs [i] k)
  | syscall t =>
      obtain ⟨r, -, hrun⟩ := step_syscall_ok hstep
      have htrap := h.2.trap hsup t
      cases syscall_after h.1 hrun with
      | returned v k₁ call final =>
          have hexit := (dispatch_outcome call).1
          rw [dispatch_eq] at call
          rw [final]
          have hafter : Guarded bound m₀ g k₁ :=
            (syscallDispatch_guarded hfence hheap hold t _ _ _ _ _ hexit).ok call htrap
          exact hafter.tail _ _ _ _
      | exited call final =>
          rw [final]
          exact htrap.exit _

/-! ## Boot -/

/-- Nothing is mapped but kernel pages above the fence. -/
def HeapOnly (bound : ℕ) (m : Mem) : Prop :=
  ∀ p e, m.pt.entries p = some e → bound ≤ p ∧ e.flags.userAccessible = false

theorem within_expect {I : Mem → Prop} {α : Type} {x : MemM α} (h : Within (Keeps I) x) :
    Within (Keeps I) (expect x) :=
  within_keeps_of_meets (meets_expect h.meets)

theorem heapInit_heapOnly (w : Walker) (hheap : bound * pageSize ≤ heapStart) :
    Within (Keeps (HeapOnly bound)) (heapInit w) := by
  refine within_countLoop (fun i _ => within_virtAddr_bind fun _ => ?_) _ _ _
  have hle : heapStart + i * pageSize ≤ signExtend (heapStart + i * pageSize) := by
    unfold signExtend
    split_ifs <;> omega
  have hpage : bound ≤ pageOf (signExtend (heapStart + i * pageSize)) := by
    rw [pageOf, Nat.le_div_iff_mul_le (by decide)]
    omega
  have hmap : ∀ f, Within (Keeps (HeapOnly bound))
      (mapTo w (pageOf (signExtend (heapStart + i * pageSize))) f ⟨true, true, false, true⟩) := by
    intro f m hm
    rcases PageEdits.mapTo_cases w _ f ⟨true, true, false, true⟩ m with
      ⟨e, m', hrun, hsame⟩ | ⟨m', hrun, -, hentries⟩
    · rw [hrun]
      exact fun p e hp => hm p e (hsame ▸ hp)
    · rw [hrun]
      intro p e hp
      rw [final_ok, hentries, Function.update_apply] at hp
      split_ifs at hp with heq
      · rw [heq, ← Option.some.inj hp]
        exact ⟨hpage, rfl⟩
      · exact hm p e hp
  intro m hm
  rw [bind_run]
  rcases PageEdits.takeFrame_cases .panic m with hrun | ⟨f, m₁, hrun, hpt⟩
  · rw [hrun]
    exact hm
  · rw [hrun]
    have hm₁ : HeapOnly bound m₁ := by rwa [HeapOnly, hpt]
    exact within_expect (hmap f) m₁ hm₁

theorem mapUserStack_fenced (w : Walker) (hlow : 0x804000 ≤ bound * pageSize) :
    Within (Keeps (Fenced bound m₀ g)) (mapUserStack w) :=
  useFrame_fenced _ fun _ hf => within_virtAddr_bind fun _ =>
    within_expect (mapTo_fenced w _ (pageOf_lt (hlow.trans_lt' (by decide))) hf)

theorem mapUserBlob_fenced (w : Walker) (hlow : 0x804000 ≤ bound * pageSize) :
    Within (Keeps (Fenced bound m₀ g)) (mapUserBlob w) := by
  refine useFrame_fenced _ fun f hf => within_bind (within_modify _ fun m h => ?_) fun _ =>
    within_virtAddr_bind fun _ =>
      within_expect (mapTo_fenced w _ (pageOf_lt (hlow.trans_lt' (by decide))) hf)
  refine ⟨h.entries, h.used, h.apart, fun pa hpa => ?_, h.image⟩
  rw [← h.bytes pa hpa]
  exact if_neg fun heq => hf (heq.symm.trans hpa)

/-- All that is mapped above the fence when user code first runs was mapped for
the kernel, and the image ends below. -/
theorem kernelMain_supervised {cfg : Config} (hfence : Fence cfg bound)
    (hheap : bound * pageSize ≤ heapStart) {m m' : Mem} (hnone : ∀ p, m.pt.entries p = none)
    (h : kernelMain cfg.walker cfg.initElf m = .ok () m') :
    Supervised bound m' ∧ m'.image.imageEnd ≤ bound * pageSize := by
  have htext : userTextBase + pageSize ≤ bound * pageSize := hfence.low.trans' (by decide)
  have hcanonical : bound * pageSize < 2 ^ 47 := hheap.trans_lt (by decide)
  rw [kernelMain] at h
  obtain ⟨_, m₁, hinit, h⟩ := bind_ok h
  obtain ⟨_, m₂, hstack, h⟩ := bind_ok h
  obtain ⟨r, m₃, hload, h⟩ := bind_ok h
  have hheap₁ : HeapOnly bound m₁ := (heapInit_heapOnly cfg.walker hheap).ok hinit fun p e hp => by
    rw [hnone p] at hp
    cases hp
  -- any frame beyond the bitmap is out of reach
  have hstart : Fenced bound m₁ frameBitmapBits m₁ := by
    refine ⟨fun _ _ => rfl, by simp [used], fun p e hp he => ?_, fun _ _ => rfl, le_max_left _ _⟩
    have habove := (hheap₁ p e he).1
    omega
  have h₂ := (mapUserStack_fenced cfg.walker hfence.low).ok hstack hstart
  have h₃ := (within_attempt (loadElf_fenced cfg.walker hfence.image hcanonical htext)).ok hload h₂
  have hsup : ∀ m', Fenced bound m₁ frameBitmapBits m' → Supervised bound m' := by
    intro m' hm' p e hp he
    rw [hm'.entries p hp] at he
    exact (hheap₁ p e he).2
  cases r with
  | some entry =>
      obtain ⟨-, rfl⟩ := EStateM.Result.ok.inj h
      refine ⟨hsup _ ⟨h₃.entries, h₃.used, h₃.apart, h₃.bytes, h₃.image⟩, ?_⟩
      have hrun : loadElf cfg.walker cfg.initElf 0 m₂ = .ok entry m₃ := by
        unfold attempt at hload
        cases hx : loadElf cfg.walker cfg.initElf 0 m₂ with
        | ok a t => simpa [hx] using hload
        | error e t =>
            simp only [hx] at hload
            split_ifs at hload
            cases hload
      obtain ⟨md, t, hmapped, rfl⟩ := LoadedPages.loadElf_parts hrun
      exact max_le (imageEnd_below hfence.image hmapped) htext
  | none =>
      simp only at h
      obtain ⟨_, m₄, hblob, h⟩ := bind_ok h
      simp only [bind_run, modify_run, EStateM.Result.ok.injEq] at h
      have h₄ := (mapUserBlob_fenced cfg.walker hfence.low).ok hblob h₃
      rw [← h.2]
      have hset := h₄.setImage ⟨userTextBase + pageSize, userTextBase + pageSize, userTextBase⟩
        htext
      exact ⟨hsup _ hset, htext⟩

theorem Booted.supervised {cfg : Config} (hfence : Fence cfg bound)
    (hheap : bound * pageSize ≤ heapStart) (h : Booted cfg k) :
    Supervised bound k.mem ∧ k.mem.image.imageEnd ≤ bound * pageSize := by
  obtain ⟨staleTop, boxedTop, k₀, k₁, hpristine, hmain, rfl⟩ := h
  unfold onMem zoom at hmain
  cases hrun : kernelMain cfg.walker cfg.initElf k₀.mem with
  | error e m => simp [hrun] at hmain
  | ok _ m =>
      simp only [hrun, EStateM.Result.ok.injEq] at hmain
      rw [← hmain.2]
      exact kernelMain_supervised hfence hheap hpristine.entries hrun

theorem Booted.books {cfg : Config} (h : Booted cfg k) {s : ℕ} {p : Process}
    (hp : k.proc s = some p) : BooksBelow p := by
  obtain ⟨staleTop, boxedTop, k₀, k₁, -, -, rfl⟩ := h
  rw [(boot_proc hp).2]
  exact ⟨show userBrkBase ≤ userBrkLimit by decide, by simp [Process.new]⟩

/-- What is out of reach at the start stays out of reach. -/
theorem run_fenced {cfg : Config} {tr : List (Event × Option Resumed)} (hfence : Fence cfg bound)
    (hheap : bound * pageSize ≤ heapStart) (hboot : Booted cfg k) (hrun : Run (step cfg) k tr k')
    (hused : used k.mem.fa g = true)
    (hapart : ∀ p e, p < bound → k.mem.pt.entries p = some e → e.frame ≠ g) :
    Fenced bound k.mem g k'.mem := by
  obtain ⟨hsup, himage⟩ := Booted.supervised hfence hheap hboot
  have hstart : Guarded bound k.mem g k :=
    ⟨⟨fun _ _ => rfl, hused, hapart, fun _ _ => rfl, le_max_left _ _⟩,
      fun s p hp => Booted.books hboot hp⟩
  have hend := hrun.invariant (step_guarded hfence hheap himage hsup)
    ⟨Reachable.ready hboot.reachable, hstart⟩
  exact hend.2.mem

/-- Some number is beyond the bitmap and names the frame of no page below the fence. -/
theorem exists_beyond (bound : ℕ) (m : Mem) : ∃ g, used m.fa g = true ∧
    ∀ p e, p < bound → m.pt.entries p = some e → e.frame ≠ g := by
  obtain ⟨g, hg⟩ := Infinite.exists_notMem_finset (Finset.range frameBitmapBits ∪
    (Finset.range bound).image fun p => ((m.pt.entries p).map Entry.frame).getD 0)
  simp only [Finset.mem_union, Finset.mem_range, Finset.mem_image, not_or, not_lt, not_exists,
    not_and] at hg
  refine ⟨g, by simp [used, hg.1], fun p e hp he heq => hg.2 p hp ?_⟩
  rw [he]
  exact heq

theorem Fenced.ram {m : Mem} (h : Fenced bound m₀ g m) {off : ℕ} (hoff : off < pageSize) :
    m.ram (g * pageSize + off) = m₀.ram (g * pageSize + off) := by
  have hframe := LoaderWrites.frame_of_addr g off
  rw [Nat.mod_eq_of_lt hoff] at hframe
  exact h.bytes _ hframe

end

end Rockos.KernelMemory
