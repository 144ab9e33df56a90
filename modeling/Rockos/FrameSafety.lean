import Rockos.ProcessCalls

/-!
# No frame has two uses

Every frame has at most one owner: a page that is mapped to it, or the page
table that it holds. The page table and the bitmap are explained by an
ownership map that the code does not have; that such a map exists is the
invariant. Allocation hands out a frame without an owner, mapping and linking
give it one, and unmapping takes the owner away before the bit is cleared.

The states that matter include those after a failed or a panicking call, so the
invariant is shown for both exits of every call.
-/
namespace Rockos.FrameSafety
open FallibleState PhysMemory Paging ElfLoader SyscallFrame KernelState AddressSpace ProcessCalls

inductive Owner where
  | page (p : ℕ)
  | table
  deriving DecidableEq, Repr

/-- `owner` explains the page table, and owned frames are not free. -/
structure Explains (owner : ℕ → Option Owner) (fa : BitmapFrameAllocator) (pt : PageTable) :
    Prop where
  page : ∀ p e, pt.entries p = some e → owner e.frame = some (.page p)
  table : ∀ t ∈ pt.tables, owner t.2 = some .table
  marked : ∀ f, owner f ≠ none → used fa f = true

def FrameSafe (m : Mem) : Prop := ∃ owner, Explains owner m.fa m.pt

/-- A frame that was handed out and is not in use yet. -/
def Holding (f : ℕ) (m : Mem) : Prop :=
  ∃ owner, Explains owner m.fa m.pt ∧ owner f = none ∧ used m.fa f = true

theorem Holding.safe {f : ℕ} {m : Mem} (h : Holding f m) : FrameSafe m := by
  obtain ⟨owner, hex, -⟩ := h
  exact ⟨owner, hex⟩

section Explains
variable {owner : ℕ → Option Owner} {fa fa' : BitmapFrameAllocator} {pt : PageTable} {f : ℕ}

theorem Explains.allocate (h : Explains owner fa pt) (ha : allocateFrame fa = some (f, fa')) :
    Explains owner fa' pt ∧ owner f = none ∧ used fa' f = true := by
  refine ⟨⟨h.page, h.table, ?_⟩, ?_, ?_⟩
  · intro g hg
    rw [allocateFrame_used ha, h.marked g hg, Bool.true_or]
  · by_contra hown
    exact absurd (h.marked f hown) (by simp [allocateFrame_unused ha])
  · simp [allocateFrame_used ha]

theorem Explains.give (h : Explains owner fa pt) (hf : owner f = none) (hused : used fa f = true)
    (o : Owner) {pt' : PageTable}
    (hpage : ∀ p e, pt'.entries p = some e →
      pt.entries p = some e ∨ (e.frame = f ∧ o = .page p))
    (htable : ∀ t ∈ pt'.tables, t ∈ pt.tables ∨ (t.2 = f ∧ o = .table)) :
    Explains (Function.update owner f (some o)) fa pt' := by
  have hne : ∀ g a, owner g = some a → g ≠ f := by
    rintro g a hg rfl
    simp [hf] at hg
  refine ⟨?_, ?_, ?_⟩
  · intro p e hp
    rcases hpage p e hp with hold | ⟨rfl, rfl⟩
    · have hown := h.page p e hold
      rwa [Function.update_of_ne (hne _ _ hown)]
    · exact Function.update_self ..
  · intro t ht
    rcases htable t ht with hold | ⟨rfl, rfl⟩
    · have hown := h.table t hold
      rwa [Function.update_of_ne (hne _ _ hown)]
    · exact Function.update_self ..
  · intro g hg
    by_cases hgf : g = f
    · rwa [hgf]
    · exact h.marked g (by rwa [Function.update_of_ne hgf] at hg)

theorem Explains.unmap (h : Explains owner fa pt) {p : ℕ} {e : Entry}
    (hp : pt.entries p = some e) :
    Explains (Function.update owner e.frame none) (deallocateFrame fa e.frame)
      { pt with entries := Function.update pt.entries p none } := by
  have hown := h.page p e hp
  refine ⟨?_, ?_, ?_⟩
  · intro q e' hq
    have hqp : q ≠ p := by
      rintro rfl
      simp at hq
    have hq' : pt.entries q = some e' := by simpa [Function.update_of_ne hqp] using hq
    have hq'' := h.page q e' hq'
    -- two pages of one frame would give it two owners
    have hne : e'.frame ≠ e.frame := by
      intro heq
      rw [heq, hown] at hq''
      simp only [Option.some.injEq, Owner.page.injEq] at hq''
      exact hqp hq''.symm
    rwa [Function.update_of_ne hne]
  · intro t ht
    have ht' := h.table t ht
    have hne : t.2 ≠ e.frame := by
      intro heq
      rw [heq, hown] at ht'
      simp at ht'
    rwa [Function.update_of_ne hne]
  · intro g hg
    have hge : g ≠ e.frame := by
      rintro rfl
      simp at hg
    rw [Function.update_of_ne hge] at hg
    simp [deallocateFrame_used, h.marked g hg, hge]

end Explains

/-! ## The memory operations -/

theorem takeFrame_safe (otherwise : Stop) :
    Meets FrameSafe (takeFrame otherwise) Holding (fun _ => FrameSafe) := by
  rintro m ⟨owner, hex⟩
  unfold takeFrame
  cases ha : allocateFrame m.fa with
  | none => exact ⟨owner, hex⟩
  | some r => exact ⟨owner, hex.allocate ha⟩

theorem linkTable_holding (page f : ℕ) :
    Meets (Holding f) (linkTable page) (fun _ => Holding f) (fun _ => Holding f) := by
  rintro m ⟨owner, hex, hf, hused⟩
  rw [linkTable, bind_run]
  unfold takeFrame
  cases ha : allocateFrame m.fa with
  | none => exact ⟨owner, hex, hf, hused⟩
  | some r =>
      obtain ⟨hex', hg, hgused⟩ := hex.allocate ha
      have hgf : f ≠ r.1 := by
        rintro rfl
        simp [allocateFrame_unused ha] at hused
      refine ⟨Function.update owner r.1 (some .table), ?_, ?_, ?_⟩
      · refine hex'.give hg hgused .table (fun p e hp => .inl hp) ?_
        intro t ht
        rcases List.mem_cons.mp ht with rfl | ht
        · exact .inr ⟨rfl, rfl⟩
        · exact .inl ht
      · rwa [Function.update_of_ne hgf]
      · simp [allocateFrame_used ha, hused]

theorem linkMissing_holding (w : Walker) (page f : ℕ) :
    Meets (Holding f) (linkMissing w page) (fun _ => Holding f) (fun _ => Holding f) :=
  meets_bind (Q := fun _ => Holding f) (meets_get fun _ h => h) fun _ =>
    meets_countLoop (fun _ _ => Holding f) _ _ _ fun _ _ _ _ => linkTable_holding page f

theorem writeLeaf_safe (w : Walker) (page f : ℕ) (flags : PageTableFlags) :
    Meets (Holding f) (writeLeaf w page f flags) (fun _ => FrameSafe) (fun _ => FrameSafe) := by
  intro m hm
  obtain ⟨owner, hex, hf, hused⟩ := hm
  rcases writeLeaf_cases w page f flags m with ⟨reason, hrun⟩ | ⟨-, hrun⟩
  · rw [hrun]
    exact ⟨owner, hex⟩
  · rw [hrun]
    refine ⟨Function.update owner f (some (.page page)),
      hex.give hf hused _ ?_ (fun t ht => .inl ht)⟩
    intro p e hp
    by_cases hpage : p = page
    · subst hpage
      simp only [setEntry, Function.update_self, Option.some.injEq] at hp
      exact .inr ⟨by rw [← hp], rfl⟩
    · exact .inl (by simpa [setEntry, Function.update_of_ne hpage] using hp)

theorem mapTo_safe (w : Walker) (page f : ℕ) (flags : PageTableFlags) :
    Meets (Holding f) (mapTo w page f flags) (fun _ => FrameSafe) (fun _ => FrameSafe) :=
  meets_bind ((linkMissing_holding w page f).mono (fun _ h => h) (fun _ _ h => h)
    (fun _ _ h => h.safe)) fun _ => writeLeaf_safe w page f flags

theorem unmap4kAndFreeBitmap_safe (virt : ℕ) :
    Within (Keeps FrameSafe) (unmap4kAndFreeBitmap virt) := by
  intro m hm
  obtain ⟨owner, hex⟩ := hm
  rcases unmap4kAndFreeBitmap_cases virt m with ⟨-, hrun⟩ | ⟨e, he, hrun⟩
  · rw [hrun]
    exact ⟨owner, hex⟩
  · rw [hrun]
    exact ⟨_, hex.unmap he⟩

theorem releasePage_safe (virt : ℕ) : Within (Keeps FrameSafe) (releasePage virt) :=
  within_bind (within_attempt (unmap4kAndFreeBitmap_safe virt)) fun _ => within_pure _

/-- Take a frame and put it to use. -/
theorem useFrame_safe (otherwise : Stop) {g : ℕ → MemM Unit}
    (hg : ∀ f, Meets (Holding f) (g f) (fun _ => FrameSafe) (fun _ => FrameSafe)) :
    Within (Keeps FrameSafe) (takeFrame otherwise >>= g) :=
  within_keeps_of_meets (meets_bind (takeFrame_safe otherwise) hg)

theorem mapNewPage_safe (w : Walker) (page : ℕ) (flags : PageTableFlags) :
    Within (Keeps FrameSafe) (mapNewPage w page flags) :=
  useFrame_safe _ fun f => meets_mapErr (mapTo_safe w page f flags)

/-- A change of memory contents and image bounds moves no frame. -/
theorem modify_safe {f : Mem → Mem} (hfa : ∀ m, (f m).fa = m.fa) (hpt : ∀ m, (f m).pt = m.pt) :
    Within (Keeps FrameSafe) (modify f : MemM Unit) := by
  refine within_modify f fun m hm => ?_
  rwa [FrameSafe, hfa, hpt]

/-! ## Boot mappings and the loader -/

theorem heapInit_safe (w : Walker) : Within (Keeps FrameSafe) (heapInit w) :=
  within_countLoop (fun _ _ => within_bind (within_virtAddr _) fun _ =>
    useFrame_safe _ fun f => meets_expect (mapTo_safe w _ f _)) _ _ _

theorem mapUserStack_safe (w : Walker) : Within (Keeps FrameSafe) (mapUserStack w) :=
  useFrame_safe _ fun f => meets_bind (meets_virtAddr _ fun _ h => h.safe) fun _ =>
    meets_expect (mapTo_safe w _ f _)

theorem mapUserBlob_safe (w : Walker) : Within (Keeps FrameSafe) (mapUserBlob w) :=
  useFrame_safe _ fun f => meets_bind (Q := fun _ => Holding f) (meets_modify _ fun _ h => h)
    fun _ => meets_bind (meets_virtAddr _ fun _ h => h.safe) fun _ =>
      meets_expect (mapTo_safe w _ f _)

theorem zeroedPage_safe (w : Walker) (page : ℕ) (flags : PageTableFlags) :
    Within (Keeps FrameSafe) (zeroedPage w page flags) :=
  useFrame_safe _ fun f => meets_bind (Q := fun _ => Holding f) (meets_modify _ fun _ h => h)
    fun _ => meets_mapErr (mapTo_safe w page f flags)

theorem mapSegment_safe (w : Walker) (first last : ℕ) (flags : PageTableFlags) :
    Within (Keeps FrameSafe) (mapSegment w first last flags) :=
  within_forPages _ _ fun page => zeroedPage_safe w page flags

theorem copySegment_safe (image : List UInt8) (seg pOffset pFilesz : ℕ) :
    Within (Keeps FrameSafe) (copySegment image seg pOffset pFilesz) := by
  refine within_countLoop (fun j _ => ?_) _ _ _
  refine within_bind (within_addU64 _ _) fun fileOff => within_ite (within_throw _) ?_
  refine within_bind (within_addU64 _ _) fun va => within_bind (within_virtAddr _) fun v => ?_
  refine within_bind within_get fun m => ?_
  split
  · exact within_throw _
  · exact modify_safe (fun _ => rfl) (fun _ => rfl)

theorem phdrAddress_safe (phoff : ℕ) (ph : ProgramHeader) (seg : ℕ) (old : Option ℕ) :
    Within (Keeps FrameSafe) (phdrAddress phoff ph seg old) :=
  within_ite (within_bind (within_addU64 _ _) fun _ => within_pure _) (within_pure _)

theorem loadSegment_safe (w : Walker) (image : List UInt8) (bias phoff : ℕ) (ph : ProgramHeader)
    (acc : LoadAcc) : Within (Keeps FrameSafe) (loadSegment w image bias phoff ph acc) := by
  refine within_bind (phdrAddress_safe _ _ _ _) fun _ => within_bind (within_virtAddr _) fun _ => ?_
  refine within_bind (within_addU64 _ _) fun _ => within_bind (within_virtAddr _) fun _ => ?_
  refine within_bind (within_virtAddr _) fun _ => within_bind (mapSegment_safe w _ _ _) fun _ => ?_
  exact within_bind (copySegment_safe _ _ _ _) fun _ => within_pure _

theorem loadPhdr_safe (w : Walker) (image : List UInt8) (bias : ℕ) (h : FileHeader) (i : ℕ)
    (acc : LoadAcc) : Within (Keeps FrameSafe) (loadPhdr w image bias h i acc) := by
  refine within_bind (within_addU64 _ _) fun _ => within_bind (within_addU64 _ _) fun _ => ?_
  refine within_ite (within_throw _) (within_ite (within_pure _) ?_)
  exact within_ite (within_throw _) (within_ite (within_pure _) (loadSegment_safe w _ _ _ _ _))

theorem loadElfMapped_safe (w : Walker) (image : List UInt8) (bias : ℕ) :
    Within (Keeps FrameSafe) (loadElfMapped w image bias) := by
  unfold loadElfMapped
  cases fileHeader image with
  | error reason => exact within_throw _
  | ok h =>
      refine within_bind (within_countLoop (loadPhdr_safe w image bias h) _ _ _) fun acc => ?_
      cases acc.phdrVa with
      | none => exact within_throw _
      | some phdr => exact within_pure _

theorem loadElf_safe (w : Walker) (image : List UInt8) (bias : ℕ) :
    Within (Keeps FrameSafe) (loadElf w image bias) :=
  within_bind (loadElfMapped_safe w image bias) fun _ =>
    within_bind (modify_safe (fun _ => rfl) fun _ => rfl) fun _ => within_pure _

theorem unmapOldImage_safe : Within (Keeps FrameSafe) unmapOldImageBestEffort :=
  within_bind within_get fun _ => within_countLoop (fun _ _ =>
    within_bind (within_virtAddr _) fun _ => within_bind within_get fun _ =>
      within_ite (releasePage_safe _) (within_pure _)) _ _ _

theorem writeUserBytes_safe (va : ℕ) (bytes : List UInt8) :
    Within (Keeps FrameSafe) (writeUserBytes va bytes) := by
  induction bytes generalizing va with
  | nil => exact within_pure _
  | cons b bs ih =>
      refine within_bind ?_ fun _ => ih (va + 1)
      refine within_bind (within_virtAddr _) fun v => within_bind within_get fun m => ?_
      split
      · exact within_throw _
      · exact modify_safe (fun _ => rfl) (fun _ => rfl)

theorem buildExecStack_safe (md : ElfLoadedMeta) (argv envp : List (List UInt8)) :
    Within (Keeps FrameSafe) (buildExecStack md argv envp) := by
  unfold buildExecStack
  cases execStackBlock md argv envp with
  | error reason => exact within_throw _
  | ok v => exact within_bind (writeUserBytes_safe _ _) fun _ => within_pure _

theorem loadElfExec_safe (w : Walker) (image : List UInt8) (bias : ℕ)
    (argv envp : List (List UInt8)) :
    Within (Keeps FrameSafe) (loadElfExec w image bias argv envp) :=
  within_bind unmapOldImage_safe fun _ => within_bind (loadElfMapped_safe w image bias) fun _ =>
    within_bind (modify_safe (fun _ => rfl) fun _ => rfl) fun _ =>
      within_bind (buildExecStack_safe _ _ _) fun _ => within_pure _

/-! ## Process memory -/

theorem storeBytes_safe (va : ℕ) (bytes : List UInt8) :
    Within (Keeps FrameSafe) (storeBytes va bytes) := by
  induction bytes generalizing va with
  | nil => exact within_pure _
  | cons b bs ih =>
      refine within_bind ?_ fun _ => ih (va + 1)
      refine within_bind within_get fun m => ?_
      split
      · exact within_throw _
      · exact within_ite (modify_safe (fun _ => rfl) fun _ => rfl) (within_throw _)

theorem mapBrkShrink_safe (newEnd oldEnd : ℕ) :
    Within (Keeps FrameSafe) (mapBrkShrink newEnd oldEnd) := by
  refine within_ite (within_pure _) (within_ite (within_pure _) ?_)
  refine within_bind (within_virtAddr _) fun _ => within_bind (within_virtAddr _) fun _ => ?_
  exact within_forPages _ _ fun page => within_bind within_get fun _ =>
    within_ite (within_pure _) (releasePage_safe _)

theorem mapBrkGrow_safe (w : Walker) (oldEnd newEnd : ℕ) (flags : PageTableFlags) :
    Within (Keeps FrameSafe) (mapBrkGrow w oldEnd newEnd flags) := by
  refine within_bind (within_virtAddr _) fun _ => within_bind (within_virtAddr _) fun _ => ?_
  exact within_forPages _ _ fun page => within_bind within_get fun _ =>
    within_ite (within_pure _) (mapNewPage_safe w page flags)

theorem mapUserAnonPages_safe (w : Walker) (start count : ℕ) (flags : PageTableFlags) :
    Within (Keeps FrameSafe) (mapUserAnonPages w start count flags) :=
  within_countLoop (fun _ _ => within_bind (within_virtAddr _) fun _ =>
    mapNewPage_safe w _ flags) _ _ _

theorem unmapUserRange_safe (start count : ℕ) :
    Within (Keeps FrameSafe) (unmapUserRange start count) :=
  within_countLoop (fun _ _ => within_bind (within_virtAddr _) fun _ => releasePage_safe _) _ _ _

theorem copyUserPages_safe (src dst len : ℕ) :
    Within (Keeps FrameSafe) (copyUserPages src dst len) :=
  within_copyUserPages (fun _ _ _ h => h) src dst len

theorem mapChildStack_safe (w : Walker) : Within (Keeps FrameSafe) (mapChildStack w) :=
  within_bind (within_virtAddr _) fun _ => within_bind within_get fun _ =>
    within_ite (mapNewPage_safe w _ _) (within_pure _)

theorem mapChildStackAndCopy_safe (w : Walker) (saved : SyscallSaved) :
    Within (Keeps FrameSafe) (mapChildStackAndCopy w saved) :=
  within_bind (mapChildStack_safe w) fun _ =>
    within_ite (within_throw _) (copyUserPages_safe _ _ _)

/-! ## The calls -/

def KernelSafe (k : Kernel) : Prop := FrameSafe k.mem

theorem onMem_safe {α : Type} {x : MemM α} (h : Within (Keeps FrameSafe) x) :
    Within (Keeps KernelSafe) (onMem x) :=
  within_zoom h fun _ _ ht => ht

/-- The edits of `brk`, `mmap` and `munmap` are permitted: those of memory, of the
two counters, and of the books of the caller. -/
structure AllowsBooks (R : Kernel → Kernel → Prop) : Prop where
  mem : ∀ k m, Keeps FrameSafe k.mem m → R k (setMem m k)
  counters : ∀ k next id, R k { k with nextMmap := next, vmAreaNextId := id }
  books : ∀ k (brkEnd : Process → ℕ) (areas : Process → List VmArea),
    R k (k.updateCurrent fun p => { p with brkEnd := brkEnd p, vmAreas := areas p })

theorem allowsBooks_kernelSafe : AllowsBooks (Keeps KernelSafe) where
  mem _ _ h hk := h hk
  counters _ _ _ hk := hk
  books _ _ _ hk := hk

section Calls
variable {R : Kernel → Kernel → Prop} [IsPreorder Kernel R]

theorem editThen_within (hR : AllowsBooks R) {edit : MemM Unit}
    (hedit : Within (Keeps FrameSafe) edit) {books : Kernel → Kernel}
    (hbooks : ∀ k, R k (books k)) (v : UInt64) : Within R (editThen edit books v) := by
  refine within_bind (within_zoom (within_attempt hedit) fun k m hm => hR.mem k m hm) fun r => ?_
  cases r with
  | none => exact within_pure _
  | some _ => exact within_bind (within_modify _ hbooks) fun _ => within_pure _

theorem sysBrk_within (hR : AllowsBooks R) (w : Walker) (addr : ℕ) :
    Within R (sysBrk w addr) := by
  have hcommit : ∀ {edit : MemM Unit}, Within (Keeps FrameSafe) edit →
      Within R (commitBrk addr edit) := fun hedit => by
    rw [commitBrk]
    exact editThen_within hR hedit (fun k => hR.books k _ _) _
  refine within_bind within_get fun k => ?_
  cases k.current with
  | none => exact within_pure _
  | some proc =>
      refine within_ite (within_pure _) (within_ite (within_pure _) ?_)
      refine within_ite (hcommit (mapBrkShrink_safe _ _)) ?_
      exact within_ite (within_pure _) (hcommit (mapBrkGrow_safe w _ _ _))

theorem mmapAt_within (hR : AllowsBooks R) (w : Walker) (addr nPages prot : ℕ) :
    Within R (mmapAt w addr nPages prot) := by
  rw [mmapAt]
  refine editThen_within hR (mapUserAnonPages_safe w _ _ _) (fun k => ?_) _
  have hid : R k { k with vmAreaNextId := (k.vmAreaNextId + 1) % 2 ^ 64 } := hR.counters k _ _
  exact IsTrans.trans _ _ _ hid (hR.books _ _ _)

theorem sysMmap_within (hR : AllowsBooks R) (w : Walker) (addr len prot : ℕ) :
    Within R (sysMmap w addr len prot) := by
  refine within_ite (within_pure _) (within_ite ?_ (within_ite (within_pure _)
    (within_ite (within_pure _) (mmapAt_within hR w _ _ _))))
  refine within_bind within_get fun _ =>
    within_bind (within_modify _ fun k => hR.counters k _ _) fun _ => ?_
  exact within_ite (within_pure _) (mmapAt_within hR w _ _ _)

theorem sysMunmap_within (hR : AllowsBooks R) (addr len : ℕ) :
    Within R (sysMunmap addr len) := by
  refine within_ite (within_pure _) (within_bind within_get fun k => ?_)
  refine within_bind (within_modify _ fun k => hR.books k _ _) fun _ =>
    within_ite (within_pure _) ?_
  refine within_bind (within_zoom (within_attempt (unmapUserRange_safe _ _))
    fun k m hm => hR.mem k m hm) fun r => ?_
  cases r with
  | none => exact within_pure _
  | some _ => exact within_pure _

end Calls

/-- Everything that maps or unmaps pages. -/
inductive FrameOp where
  | heapInit
  | mapUserStack
  | mapUserBlob
  | loadElf (image : List UInt8) (bias : ℕ)
  | loadElfExec (image : List UInt8) (bias : ℕ) (argv envp : List (List UInt8))
  | brk (addr : ℕ)
  | mmap (addr len prot : ℕ)
  | munmap (addr len : ℕ)
  | forkStack (saved : SyscallSaved)

def FrameOp.run (w : Walker) : FrameOp → Kernel → Kernel
  | .heapInit, k => final (onMem (Paging.heapInit w) k)
  | .mapUserStack, k => final (onMem (Paging.mapUserStack w) k)
  | .mapUserBlob, k => final (onMem (Paging.mapUserBlob w) k)
  | .loadElf image bias, k => final (onMem (ElfLoader.loadElf w image bias) k)
  | .loadElfExec image bias argv envp, k =>
      final (onMem (ElfLoader.loadElfExec w image bias argv envp) k)
  | .brk addr, k => final (sysBrk w addr k)
  | .mmap addr len prot, k => final (sysMmap w addr len prot k)
  | .munmap addr len, k => final (sysMunmap addr len k)
  | .forkStack saved, k => final (onMem (mapChildStackAndCopy w saved) k)

theorem FrameOp.run_safe (w : Walker) (op : FrameOp) {k : Kernel} (h : KernelSafe k) :
    KernelSafe (op.run w k) := by
  cases op with
  | heapInit => exact onMem_safe (heapInit_safe w) k h
  | mapUserStack => exact onMem_safe (mapUserStack_safe w) k h
  | mapUserBlob => exact onMem_safe (mapUserBlob_safe w) k h
  | loadElf image bias => exact onMem_safe (loadElf_safe w image bias) k h
  | loadElfExec image bias argv envp =>
      exact onMem_safe (loadElfExec_safe w image bias argv envp) k h
  | brk addr => exact sysBrk_within allowsBooks_kernelSafe w addr k h
  | mmap addr len prot => exact sysMmap_within allowsBooks_kernelSafe w addr len prot k h
  | munmap addr len => exact sysMunmap_within allowsBooks_kernelSafe addr len k h
  | forkStack saved => exact onMem_safe (mapChildStackAndCopy_safe w saved) k h

theorem runOps_safe (w : Walker) (ops : List FrameOp) {k : Kernel} (h : KernelSafe k) :
    KernelSafe (ops.foldl (fun k op => op.run w k) k) := by
  induction ops generalizing k with
  | nil => exact h
  | cons op ops ih => exact ih (op.run_safe w h)

/-- No page of the kernel's making is mapped, and the tables that the
bootloader left are not free. -/
structure Pristine (k : Kernel) : Prop where
  entries : ∀ p, k.mem.pt.entries p = none
  tables : ∀ t ∈ k.mem.pt.tables, used k.mem.fa t.2 = true

theorem Pristine.safe {k : Kernel} (h : Pristine k) : KernelSafe k := by
  refine ⟨fun f => if f ∈ k.mem.pt.tables.map Prod.snd then some .table else none, ?_, ?_, ?_⟩
  · intro p e hp
    simp [h.entries p] at hp
  · intro t ht
    rw [if_pos (List.mem_map_of_mem ht)]
  · intro f hf
    have hmem : f ∈ k.mem.pt.tables.map Prod.snd := by
      by_contra hnot
      simp [hnot] at hf
    obtain ⟨t, ht, rfl⟩ := List.mem_map.mp hmem
    exact h.tables t ht

/-- A memory without page tables is safe. -/
theorem memInit_safe (memoryMap : List MemoryRegion) : FrameSafe (memInit memoryMap) :=
  Pristine.safe (k := KernelState.statics (memInit memoryMap))
    ⟨fun _ => rfl, by simp [KernelState.statics, memInit]⟩

structure Exclusive (m : Mem) : Prop where
  one_page : ∀ p q e e', m.pt.entries p = some e → m.pt.entries q = some e' →
    e.frame = e'.frame → p = q
  not_table : ∀ p e t, m.pt.entries p = some e → t ∈ m.pt.tables → e.frame ≠ t.2
  marked : ∀ p e, m.pt.entries p = some e → used m.fa e.frame = true
  not_reissued : ∀ f fa, allocateFrame m.fa = some (f, fa) →
    (∀ p e, m.pt.entries p = some e → e.frame ≠ f) ∧ ∀ t ∈ m.pt.tables, t.2 ≠ f

theorem FrameSafe.exclusive {m : Mem} (h : FrameSafe m) : Exclusive m := by
  obtain ⟨owner, hex⟩ := h
  have hmarked : ∀ p e, m.pt.entries p = some e → used m.fa e.frame = true := fun p e hp =>
    hex.marked _ (by simp [hex.page p e hp])
  refine ⟨?_, ?_, hmarked, ?_⟩
  · intro p q e e' hp hq heq
    have howner := hex.page p e hp
    rw [heq, hex.page q e' hq] at howner
    simpa using howner.symm
  · intro p e t hp ht heq
    have howner := hex.page p e hp
    rw [heq, hex.table t ht] at howner
    simp at howner
  · intro f fa hf
    have hfree := allocateFrame_unused hf
    constructor
    · rintro p e hp rfl
      simp [hmarked p e hp] at hfree
    · rintro t ht rfl
      simp [hex.marked t.2 (by simp [hex.table t ht])] at hfree

/-- Whatever is mapped and unmapped, in whatever order and with whatever
failures, no frame is used twice and no used frame is handed out again. -/
theorem frames_exclusive (w : Walker) (ops : List FrameOp) (k : Kernel) (h : Pristine k) :
    Exclusive (ops.foldl (fun k op => op.run w k) k).mem :=
  (runOps_safe w ops h.safe).exclusive

theorem frames_exclusive_boot :
    Pristine (processInit 0 0 (statics (memInit [⟨1, 64, .usable⟩]))) ∧
    Exclusive ([FrameOp.mapUserStack, .loadElf [] 0, .mapUserBlob, .brk 0x405000].foldl
      (fun k op => op.run ⟨fun _ _ => 1, fun _ _ => false⟩ k)
      (processInit 0 0 (statics (memInit [⟨1, 64, .usable⟩])))).mem := by
  have hstart : Pristine (processInit 0 0 (statics (memInit [⟨1, 64, .usable⟩]))) :=
    ⟨fun _ => rfl, by simp [processInit, statics, memInit]⟩
  exact ⟨hstart, frames_exclusive _ _ _ hstart⟩

end Rockos.FrameSafety
