import Rockos.CallFootprints
import Rockos.ForkStacks
import Rockos.MemoryFootprints
import Rockos.SystemMemory

/-!
# Which bytes a system call can change

There is one page table for all processes, so a system call can unmap or
overwrite what belongs to somebody else, and two of them do: `fork` copies to the
stack page that all children share, and `execve` unmaps the old image and loads
the new one in its place. `touched` bounds the damage. It gives for each call, from
its arguments and the state it is made in, the addresses at which the call may
unmap a page or store a byte. A byte that no step of a run touches stays mapped
and keeps its value, whatever the processes do.
-/
namespace Rockos.MemoryWrites
open FallibleState PhysMemory Paging ElfLoader KernelState AddressSpace ProcessCalls Syscall
open FrameSafety UserMemory PageEdits LoadedImage LoaderWrites SystemMemory SyscallEffects
open RunQueue Turns CallFootprints MemoryFootprints OldImage Runs

/-- If it is mapped, the byte at `a` stays mapped and keeps its value. -/
def Stays (a : ℕ) (m m' : Mem) : Prop :=
  FrameSafe m → FrameSafe m' ∧ ∀ b, userByte m a = some b → userByte m' a = some b

section
variable {a : ℕ}

instance : IsPreorder Mem (Stays a) where
  refl _ hsafe := ⟨hsafe, fun _ hb => hb⟩
  trans _ _ _ h h' hsafe := by
    obtain ⟨hsafe₁, hbyte⟩ := h hsafe
    obtain ⟨hsafe₂, hbyte'⟩ := h' hsafe₁
    exact ⟨hsafe₂, fun b hb => hbyte' b (hbyte b hb)⟩

/-! ## Single edits -/

theorem mapNewPage_stays (w : Walker) (page : ℕ) (flags : PageTableFlags) :
    Within (Stays a) (mapNewPage w page flags) := by
  intro m hsafe
  refine ⟨mapNewPage_safe w page flags m hsafe, fun b hb => ?_⟩
  have hgrows := mapNewPage_grows w page flags m
  obtain ⟨pa, hpa, -⟩ := Option.map_eq_some_iff.mp hb
  obtain ⟨e, he, -⟩ := translateAddr_eq_some.mp hpa
  rw [← hb]
  exact userByte_congr ((hgrows.of_some he).trans he.symm) hgrows.ram

/-- The frame that is cleared was free, so no page shows it. -/
theorem userByte_zeroFrame {m : Mem} (hsafe : FrameSafe m) {f : ℕ} {fa : BitmapFrameAllocator}
    (hf : allocateFrame m.fa = some (f, fa)) :
    userByte (zeroFrame f { m with fa := fa }) a = userByte m a := by
  have hsame : translateAddr (zeroFrame f { m with fa := fa }) a = translateAddr m a := rfl
  rw [userByte, userByte, hsame]
  cases hpa : translateAddr m a with
  | none => rfl
  | some pa =>
      obtain ⟨e, he, hframe⟩ := translateAddr_eq_some.mp hpa
      have hne : pa / pageSize ≠ f := by
        rw [hframe, frame_of_addr]
        intro heq
        have hused := hsafe.exclusive.marked _ e he
        rw [heq, allocateFrame_unused hf] at hused
        cases hused
      exact congrArg some (if_neg hne)

theorem zeroedPage_stays (w : Walker) (page : ℕ) (flags : PageTableFlags) :
    Within (Stays a) (zeroedPage w page flags) := by
  intro m hsafe
  refine ⟨zeroedPage_safe w page flags m hsafe, fun b hb => ?_⟩
  rw [zeroedPage, bind_run]
  unfold takeFrame
  cases hf : allocateFrame m.fa with
  | none => exact hb
  | some r =>
      have hzero := userByte_zeroFrame (a := a) hsafe hf
      have hram := mapTo_ram w page r.1 flags (zeroFrame r.1 { m with fa := r.2 })
      simp only [bind_run, modify_run, final_mapErr]
      rw [← hb, ← hzero]
      refine userByte_congr ?_ hram
      rcases mapTo_cases w page r.1 flags (zeroFrame r.1 { m with fa := r.2 }) with
        ⟨e, m', hrun, hsame⟩ | ⟨m', hrun, hnone, hentries⟩
      · rw [hrun, final_error, hsame]
      · rw [hrun, final_ok, hentries]
        refine Function.update_of_ne (fun heq => ?_) _ _
        -- the page of a byte that is there cannot be mapped again
        rw [← hzero, userByte, translateAddr, heq, hnone] at hb
        cases hb

theorem mayMap_stays : MayMap (Stays a) Set.univ where
  plain w page flags _ := mapNewPage_stays w page flags
  zeroed w page flags _ := zeroedPage_stays w page flags

theorem mayUnmap_stays : MayUnmap (Stays a) {page | page ≠ pageOf a} := by
  intro virt hvirt m hsafe
  refine ⟨releasePage_safe virt m hsafe, fun b hb => ?_⟩
  rw [releasePage, bind_run]
  simp only [attempt]
  rcases unmap4kAndFreeBitmap_cases virt m with ⟨-, hrun⟩ | ⟨e, -, hrun⟩
  · rw [hrun]
    exact hb
  · rw [hrun, ← hb]
    exact userByte_congr (Function.update_of_ne (Ne.symm hvirt) _ _) rfl

theorem mayStore_stays : MayStore (Stays a) {va | va ≠ a} := by
  intro m va phys b hva hphys hsafe
  refine ⟨hsafe, fun c hc => ?_⟩
  rw [userByte_writePhys hsafe hphys, if_neg (Ne.symm hva), hc]

end

/-! ## Memory programs -/

/-- What `execve` unmaps: the pages from the text base up to the end of the image. -/
def oldImage (m : Mem) : Set ℕ := {a | pageOf a ∈ oldPages m}

def fileBytes (image : List UInt8) : Set ℕ :=
  {a | ∃ ph ∈ loadHeaders image, ∃ j < ph.filesz, signExtend (ph.vaddr + j) = a}

def stackPage : Set ℕ := Set.Ico (userStackTop - pageSize) userStackTop

/-- Where `fork` copies what the caller has in use of its stack. -/
def stackCopy (saved : SyscallFrame.SyscallSaved) : Set ℕ :=
  let start := childStackLo + (saved.userRsp.toNat - (userStackTop - pageSize))
  Set.Ico start (start + (userStackTop - saved.userRsp.toNat))

section
variable {a : ℕ}

theorem storeBytes_stays {va : ℕ} (bytes : List UInt8) {len : ℕ} (hlen : bytes.length ≤ len)
    (ha : a ∉ Set.Ico va (va + len)) : Within (Stays a) (storeBytes va bytes) := by
  refine storeBytes_within mayStore_stays bytes fun j hj => ?_
  rintro rfl
  exact ha ⟨by omega, by omega⟩

theorem mapChildStackAndCopy_stays (w : Walker) {saved : SyscallFrame.SyscallSaved}
    (ha : a ∉ stackCopy saved) : Within (Stays a) (mapChildStackAndCopy w saved) := by
  refine mapChildStackAndCopy_within mayMap_stays mayStore_stays w saved trivial fun j hj => ?_
  rintro rfl
  exact ha ⟨Nat.le_add_right _ _, by omega⟩

/-- The new image may be mapped anywhere: a page that is there already is an error. -/
theorem loadElfExec_stays (w : Walker) (image : List UInt8) (argv envp : List (List UInt8))
    {m : Mem} (ha : a ∉ oldImage m ∪ fileBytes image ∪ stackPage) :
    Stays a m (final (loadElfExec w image 0 argv envp m)) := by
  simp only [Set.mem_union, not_or] at ha
  have hunmap : Stays a m (final (unmapOldImageBestEffort m)) :=
    unmapOldImage_within mayUnmap_stays fun page hpage heq => ha.1.1
      (show pageOf a ∈ oldPages m from heq ▸ hpage)
  have hload : Within (Stays a) (loadElfMapped w image 0) := by
    exact loadElfMapped_within mayMap_stays mayStore_stays w fun ph hph =>
      ⟨fun _ _ => trivial, fun j hj heq => ha.1.2 ⟨ph, hph, j, hj, heq⟩⟩
  have hstack : ∀ md, Within (Stays a) (buildExecStack md argv envp) := fun md =>
    buildExecStack_within mayStore_stays md argv envp fun va hva heq => ha.2 (heq ▸ hva)
  have hrest : Within (Stays a) (do
      let r ← loadElfMapped w image 0
      modify (applyUserMeta r.2)
      let rsp ← buildExecStack r.2 argv envp
      pure (r.1, rsp)) := by
    refine within_bind hload fun r => ?_
    refine within_bind (within_modify _ fun m hsafe => ⟨hsafe, fun b hb => hb⟩) fun _ => ?_
    exact within_bind (hstack r.2) fun _ => within_pure _
  exact within_bind_at hunmap fun _ => hrest

end

/-! ## System calls -/

/-- The addresses at which the call may unmap a page or store a byte. -/
def touched (cfg : Config) (t : Trap) (k : Kernel) : Set ℕ :=
  let arg (r : StackMachine.Reg) := (t.reg r).toNat
  match sysno (t.reg .rax) with
  | some .read => Set.Ico (arg .rsi) (arg .rsi + arg .rdx)
  | some .wait4 => Set.Ico (arg .rsi) (arg .rsi + 4)
  | some .brk => {a | ∃ p, k.current = some p ∧ arg .rdi < p.brkEnd ∧
      pageOf a ∈ pagesOf (alignUp (arg .rdi) pageSize) (p.brkEnd - 1)}
  | some .munmap => {a | pageOf a ∈ steppedPages (arg .rdi) (arg .rsi / pageSize)}
  | some .fork => stackCopy (forkSave cfg t k)
  | some .execve => oldImage k.mem ∪ fileBytes cfg.initElf ∪ stackPage
  | _ => ∅

/-- The same for the memory of a kernel. -/
def KernelStays (a : ℕ) (k k' : Kernel) : Prop := Stays a k.mem k'.mem

section
variable {a : ℕ} {cfg : Config} {t : Trap} {k k₁ : Kernel} {v : UInt64}

instance : IsPreorder Kernel (KernelStays a) where
  refl k := refl k.mem
  trans _ _ _ h h' := IsTrans.trans (r := Stays a) _ _ _ h h'

theorem kernelStays_of_mem (h : k₁.mem = k.mem) : KernelStays a k k₁ := by
  rw [KernelStays, h]
  exact refl k.mem

theorem onMem_stays {α : Type} {x : MemM α} (h : Within (Stays a) x) :
    Within (KernelStays a) (onMem x) :=
  within_zoom h fun _ _ ht => ht

theorem permits_stays (e : Edit) (hbytes : e ≠ .bytes) (hmem : e ≠ .memory) :
    Permits (KernelStays a) e := by
  cases e with
  | bytes => exact absurd rfl hbytes
  | memory => exact absurd rfl hmem
  | irqs => exact fun k irqs rest => kernelStays_of_mem (takeIrqs_mem irqs { k with waits := rest })
  | own => exact fun _ _ _ => kernelStays_of_mem rfl
  | heap => exact fun _ _ _ _ => kernelStays_of_mem rfl
  | placement => exact fun _ _ _ => kernelStays_of_mem rfl
  | files => exact fun _ _ _ => kernelStays_of_mem rfl
  | descriptor => exact fun _ _ => kernelStays_of_mem rfl
  | terminal => exact fun _ _ => kernelStays_of_mem rfl
  | resched => exact fun _ => kernelStays_of_mem rfl
  | table => exact fun _ _ => kernelStays_of_mem rfl
  | queue => exact fun _ _ => kernelStays_of_mem rfl

theorem mayDeliver_stays {buf len : ℕ} (ha : a ∉ Set.Ico buf (buf + len)) :
    MayDeliver (KernelStays a) buf len :=
  fun bytes hlen => onMem_stays (storeBytes_stays bytes hlen ha)

theorem editThen_stays {edit : MemM Unit} {books : Kernel → Kernel} {u : UInt64}
    (h : editThen edit books u k = .ok v k₁) (hedit : Within (Stays a) edit)
    (hbooks : ∀ k, (books k).mem = k.mem) : KernelStays a k k₁ := by
  rcases editThen_cases h with ⟨m, hrun, -, rfl⟩ | ⟨reason, m, hrun, -, rfl⟩
  · rw [KernelStays, hbooks]
    exact hedit.ok hrun
  · exact hedit.error hrun

theorem sysBrk_stays {p : Process} {addr : ℕ} (hp : k.current = some p)
    (ha : ¬(addr < p.brkEnd ∧ pageOf a ∈ pagesOf (alignUp addr pageSize) (p.brkEnd - 1)))
    (h : sysBrk cfg.walker addr k = .ok v k₁) : KernelStays a k k₁ := by
  cases sysBrk_returns hp h with
  | same _ hk _ => exact kernelStays_of_mem (by rw [hk])
  | refused _ hk _ => exact kernelStays_of_mem (by rw [hk])
  | shrink _ _ hlt h =>
      exact editThen_stays h (mapBrkShrink_within mayUnmap_stays fun page hpage heq =>
        ha ⟨hlt, heq ▸ hpage⟩) fun _ => rfl
  | grow _ _ _ h =>
      exact editThen_stays h (mapBrkGrow_within mayMap_stays _ _ fun _ _ => trivial) fun _ => rfl

theorem mmapAt_stays {addr n prot : ℕ} (h : mmapAt cfg.walker addr n prot k = .ok v k₁) :
    KernelStays a k k₁ := by
  rw [mmapAt] at h
  exact editThen_stays h (mapUserAnonPages_within mayMap_stays _ _ fun _ _ => trivial) fun _ => rfl

theorem sysMmap_stays {addr len prot : ℕ} (h : sysMmap cfg.walker addr len prot k = .ok v k₁) :
    KernelStays a k k₁ := by
  cases sysMmap_returns h with
  | refused _ hk _ => exact kernelStays_of_mem (by rw [hk])
  | full _ hk _ _ => exact kernelStays_of_mem (by rw [hk]; rfl)
  | bumped _ _ _ h => exact mmapAt_stays (k := bumpMmap len k) h
  | fixed _ _ _ _ _ h => exact mmapAt_stays h

theorem sysMunmap_stays {p : Process} {addr len : ℕ} (hp : k.current = some p)
    (ha : pageOf a ∉ steppedPages addr (len / pageSize)) (h : sysMunmap addr len k = .ok v k₁) :
    KernelStays a k k₁ := by
  cases sysMunmap_returns hp h with
  | refused _ hk _ => exact kernelStays_of_mem (by rw [hk])
  | unknown _ hk _ => exact kernelStays_of_mem (by rw [hk]; rfl)
  | edit _ _ _ _ _ m hk h =>
      have hedit : Within (Stays a) (unmapUserRange addr (len / pageSize)) :=
        unmapUserRange_within mayUnmap_stays fun page hpage heq => ha (heq ▸ hpage)
      rw [hk]
      rcases h with ⟨hrun, -⟩ | ⟨⟨reason, hrun⟩, -⟩
      · exact hedit.ok hrun
      · exact hedit.error hrun

theorem sysFork_stays {mem : UInt64 → UInt64} {rsp top : UInt64}
    (ha : a ∉ stackCopy (SyscallFrame.saveFromDispatchRsp mem rsp))
    (h : sysFork cfg.walker mem rsp top k = .ok v k₁) : KernelStays a k k₁ := by
  have hmem := ForkStacks.sysFork_mem cfg.walker mem rsp top k
  rw [h, final_ok] at hmem
  rcases hmem with hsame | hcopied
  · exact kernelStays_of_mem hsame
  · rw [KernelStays, hcopied]
    exact mapChildStackAndCopy_stays cfg.walker ha k.mem

theorem sysExecve_stays {pathU argvU envpU : ℕ}
    (ha : a ∉ oldImage k.mem ∪ fileBytes cfg.initElf ∪ stackPage)
    (h : sysExecve cfg.walker cfg.initElf pathU argvU envpU k = .ok v k₁) :
    KernelStays a k k₁ := by
  rw [sysExecve] at h
  obtain ⟨r, -, h⟩ := inspect_bind_ok h
  cases r with
  | error e =>
      cases h
      exact refl k
  | ok args =>
      obtain ⟨r, k₂, hload, h⟩ := bind_ok h
      have hstays : KernelStays a k k₂ := by
        have hexec := loadElfExec_stays cfg.walker cfg.initElf args.argv args.envp ha
        rcases onMem_attempt_cases (loadElfExec cfg.walker cfg.initElf 0 args.argv args.envp) k with
          ⟨_, m, hx, ho⟩ | ⟨reason, m, hx, ho⟩ | ⟨e, m, hx, ho⟩
        · rw [ho] at hload
          cases hload
          rwa [hx] at hexec
        · rw [ho] at hload
          cases hload
          rwa [hx] at hexec
        · rw [ho] at hload
          cases hload
      cases r with
      | none =>
          cases h
          exact hstays
      | some r =>
          cases h
          exact hstays

/-- A call leaves alone what it does not touch. -/
theorem dispatch_stays (hready : Ready k) (ha : a ∉ touched cfg t k)
    (hcall : dispatch cfg t k = .ok (.returned v) k₁) : KernelStays a (trapState t k) k₁ := by
  obtain ⟨p, hp, -⟩ := hready.alive
  have hcurrent : (trapState t k).current = some p := hp
  have hfootprint := fun hpermits => dispatch_footprint (R := KernelStays a) hcall hpermits
  have hexit := (dispatch_outcome hcall).1
  unfold touched at ha
  rw [dispatch_eq, syscallDispatch] at hcall
  cases hc : sysno (t.reg .rax) with
  | none => exact hfootprint fun c hc' => by rw [hc] at hc'; cases hc'
  | some c =>
      -- the calls that leave memory alone by their footprint
      have hquiet : .bytes ∉ footprint c → .memory ∉ footprint c →
          KernelStays a (trapState t k) k₁ := by
        intro hbytes hmem
        refine hfootprint fun c' hc' e he => permits_stays e ?_ ?_
        · rintro rfl
          rw [hc] at hc'
          cases hc'
          exact hbytes he
        · rintro rfl
          rw [hc] at hc'
          cases hc'
          exact hmem he
      rw [hc] at ha hcall
      cases c with
      | exit => exact absurd hc hexit
      | write | openFile | close | schedYield | nanosleep | getpid | getppid =>
          exact hquiet (by decide) (by decide)
      | read =>
          exact (sysRead_footprint (mayDeliver_stays ha) (permits_stays _ (by decide) (by decide))
            (permits_stays _ (by decide) (by decide)) _).ok (returning_run hcall)
      | wait4 =>
          exact (sysWait4_footprint (mayDeliver_stays ha) (permits_stays _ (by decide) (by decide))
            _).ok (returning_run hcall)
      | mmap => exact sysMmap_stays (returning_run hcall)
      | munmap => exact sysMunmap_stays hcurrent ha (returning_run hcall)
      | brk =>
          exact sysBrk_stays hcurrent (fun hin => ha ⟨p, hp, hin⟩) (returning_run hcall)
      | fork => exact sysFork_stays ha (returning_run hcall)
      | execve =>
          have himage : (trapState t k).mem.image = k.mem.image := userStores_image t.stores k.mem
          refine sysExecve_stays ?_ (returning_run hcall)
          rwa [oldImage, oldPages, imagePages, himage]

theorem trapState_stays (ha : a ∉ t.stores.map Prod.fst) : KernelStays a k (trapState t k) := by
  have hall : ∀ (stores : List (ℕ × UInt8)) m, a ∉ stores.map Prod.fst →
      Stays a m (stores.foldl userStore m) := by
    intro stores
    induction stores with
    | nil => exact fun m _ => refl m
    | cons s stores ih =>
        intro m hnot
        rw [List.map_cons, List.mem_cons, not_or] at hnot
        refine IsTrans.trans _ (userStore m s) _ ?_ (ih _ hnot.2)
        unfold userStore
        cases he : m.pt.entries (pageOf s.1) with
        | none => exact refl m
        | some e =>
            have hphys : translateAddr m s.1 = some (e.frame * pageSize + s.1 % pageSize) := by
              rw [translateAddr, he, Option.map_some]
            simp only
            split_ifs
            · exact mayStore_stays s.2 (Ne.symm hnot.1) hphys
            · exact refl m
  exact hall t.stores k.mem ha

theorem tailState_mem (slot : ℕ) : (tailState slot t k v k₁).mem = k₁.mem := by
  obtain ⟨top, sched, due, htail⟩ := tailState_eq slot t k v k₁
  rw [htail]
  rfl

/-! ## Runs -/

/-- What user code stores before it enters the kernel, and what the call touches. -/
def stepTouches (cfg : Config) : Event → Kernel → Set ℕ
  | .irq _, _ => ∅
  | .syscall t, k => {a | a ∈ t.stores.map Prod.fst} ∪ touched cfg t k

theorem step_stays {e : Event} {k' : Kernel} {o : Option Resumed} (hready : Ready k)
    (ha : a ∉ stepTouches cfg e k) (hstep : step cfg e k = some (o, k')) : KernelStays a k k' := by
  cases e with
  | irq i =>
      obtain ⟨-, rfl⟩ := step_irq_ok hstep
      exact kernelStays_of_mem (takeIrqs_mem [i] k)
  | syscall t =>
      obtain ⟨r, -, hrun⟩ := step_syscall_ok hstep
      rw [stepTouches, Set.mem_union, not_or] at ha
      have htrap : KernelStays a k (trapState t k) := trapState_stays ha.1
      cases syscall_after hready hrun with
      | returned v k₁ call final =>
          refine IsTrans.trans _ _ _ htrap ?_
          refine IsTrans.trans _ _ _ (dispatch_stays hready ha.2 call) ?_
          rw [final]
          exact kernelStays_of_mem (tailState_mem _)
      | exited call final =>
          refine IsTrans.trans _ _ _ htrap ?_
          rw [final]
          exact kernelStays_of_mem rfl

end

end Rockos.MemoryWrites
