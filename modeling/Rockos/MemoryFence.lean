import Rockos.MemoryFootprints

/-!
# What user memory cannot reach

The page table is shared by the kernel and all processes. A fence separates the
pages below `bound`, among which all user pages are, from those of the kernel.
No function that edits the page table or copies to user memory reaches across
it, whichever way it ends: an entry above the fence stays as it is, a frame that
is in use and belongs to no page below stays in use and gets no such page, and
its bytes are not written.

The bytes here are those that go through the page table or the physical memory
window on behalf of a user program. What the kernel stores in its own heap and
in its page tables is not part of the model.
-/
namespace Rockos.MemoryFence
open FallibleState PhysMemory Paging ElfLoader KernelState AddressSpace ProcessCalls
open PageEdits LoadedImage LoaderWrites MemoryFootprints

/-- In `m` everything above the fence is as in `m₀`, and frame `g` is out of
reach of the pages below. -/
structure Fenced (bound : ℕ) (m₀ : Mem) (g : ℕ) (m : Mem) : Prop where
  entries : ∀ p, bound ≤ p → m.pt.entries p = m₀.pt.entries p
  used : used m.fa g = true
  apart : ∀ p e, p < bound → m.pt.entries p = some e → e.frame ≠ g
  bytes : ∀ pa, pa / pageSize = g → m.ram pa = m₀.ram pa
  image : m.image.imageEnd ≤ max m₀.image.imageEnd (bound * pageSize)

section
variable {bound g : ℕ} {m₀ m : Mem}

theorem pageOf_lt {a : ℕ} (h : a < bound * pageSize) : pageOf a < bound :=
  Nat.div_lt_of_lt_mul (by rwa [Nat.mul_comm])

/-! ## Single edits -/

theorem Fenced.allocate (h : Fenced bound m₀ g m) {f : ℕ} {fa : BitmapFrameAllocator}
    (ha : allocateFrame m.fa = some (f, fa)) :
    Fenced bound m₀ g { m with fa := fa } ∧ f ≠ g := by
  have hne : f ≠ g := by
    rintro rfl
    have hused := h.used
    rw [allocateFrame_unused ha] at hused
    cases hused
  refine ⟨⟨h.entries, ?_, h.apart, h.bytes, h.image⟩, hne⟩
  rw [allocateFrame_used ha, h.used, Bool.true_or]

theorem Fenced.setEntry (h : Fenced bound m₀ g m) {page : ℕ} (hpage : page < bound)
    {o : Option Entry} (ho : ∀ e, o = some e → e.frame ≠ g) :
    Fenced bound m₀ g (setEntry page o m) := by
  refine ⟨fun p hp => ?_, h.used, fun p e hp he => ?_, h.bytes, h.image⟩
  · have hne : p ≠ page := by omega
    exact (Function.update_of_ne hne _ _).trans (h.entries p hp)
  · by_cases hp' : p = page
    · subst hp'
      exact ho e (by simpa [Paging.setEntry] using he)
    · exact h.apart p e hp (by simpa [Paging.setEntry, Function.update_of_ne hp'] using he)

theorem Fenced.release (h : Fenced bound m₀ g m) {page : ℕ} {e : Entry} (hpage : page < bound)
    (he : m.pt.entries page = some e) :
    Fenced bound m₀ g { Paging.setEntry page none m with fa := deallocateFrame m.fa e.frame } := by
  have hne := h.apart page e hpage he
  have hclear := h.setEntry hpage (o := none) (by simp)
  refine ⟨hclear.entries, ?_, hclear.apart, hclear.bytes, hclear.image⟩
  have hkeep : ¬(g = e.frame ∧ e.frame ≠ 0 ∧ e.frame < frameBitmapBits) := fun hg => hne hg.1.symm
  rw [deallocateFrame_used, h.used, Bool.true_and]
  exact decide_eq_true hkeep

/-- A byte stored through a page below the fence. -/
theorem Fenced.write (h : Fenced bound m₀ g m) {va : ℕ} {e : Entry} (hva : pageOf va < bound)
    (he : m.pt.entries (pageOf va) = some e) (b : UInt8) :
    Fenced bound m₀ g (writePhys (e.frame * pageSize + va % pageSize) b m) := by
  refine ⟨h.entries, h.used, h.apart, fun pa hpa => ?_, h.image⟩
  have hne : pa ≠ e.frame * pageSize + va % pageSize := by
    rintro rfl
    rw [frame_of_addr] at hpa
    exact h.apart _ e hva he hpa
  exact (Function.update_of_ne hne _ _).trans (h.bytes pa hpa)

theorem Fenced.zero (h : Fenced bound m₀ g m) {f : ℕ} (hf : f ≠ g) :
    Fenced bound m₀ g (zeroFrame f m) := by
  refine ⟨h.entries, h.used, h.apart, fun pa hpa => ?_, h.image⟩
  rw [← h.bytes pa hpa]
  exact if_neg fun heq => hf (heq.symm.trans hpa)

theorem Fenced.setImage (h : Fenced bound m₀ g m) (image : UserImage)
    (himage : image.imageEnd ≤ bound * pageSize) : Fenced bound m₀ g { m with image := image } :=
  ⟨h.entries, h.used, h.apart, h.bytes, le_max_of_le_right himage⟩

theorem Fenced.applyUserMeta (h : Fenced bound m₀ g m) {md : ElfLoadedMeta}
    (htext : userTextBase + pageSize ≤ bound * pageSize)
    (hmd : md.imageEnd ≤ bound * pageSize) : Fenced bound m₀ g (applyUserMeta md m) :=
  h.setImage _ (max_le hmd htext)

/-! ## Pages -/

theorem useFrame_fenced {α : Type} (otherwise : Stop) {k : ℕ → MemM α}
    (hk : ∀ f, f ≠ g → Within (Keeps (Fenced bound m₀ g)) (k f)) :
    Within (Keeps (Fenced bound m₀ g)) (takeFrame otherwise >>= k) := by
  intro m h
  rw [bind_run]
  unfold takeFrame
  cases ha : allocateFrame m.fa with
  | none => exact h
  | some r =>
      obtain ⟨htaken, hne⟩ := h.allocate ha
      exact hk r.1 hne _ htaken

theorem mapTo_fenced (w : Walker) {page frame : ℕ} (flags : PageTableFlags) (hpage : page < bound)
    (hframe : frame ≠ g) : Within (Keeps (Fenced bound m₀ g)) (mapTo w page frame flags) := by
  have hlink : Within (Keeps (Fenced bound m₀ g)) (linkTable page) :=
    useFrame_fenced _ fun _ _ => within_modify _ fun _ h =>
      ⟨h.entries, h.used, h.apart, h.bytes, h.image⟩
  refine within_bind (within_bind within_get fun _ =>
    within_countLoop (fun _ _ => hlink) _ _ _) fun _ => ?_
  intro m h
  rcases writeLeaf_cases w page frame flags m with ⟨reason, hrun⟩ | ⟨-, hrun⟩
  · rw [hrun]
    exact h
  · rw [hrun]
    refine h.setEntry hpage fun e he => ?_
    rw [← Option.some.inj he]
    exact hframe

theorem mapNewPage_fenced (w : Walker) {page : ℕ} (flags : PageTableFlags) (hpage : page < bound) :
    Within (Keeps (Fenced bound m₀ g)) (mapNewPage w page flags) :=
  useFrame_fenced _ fun _ hf => within_mapErr (mapTo_fenced w flags hpage hf)

theorem releasePage_fenced {virt : ℕ} (hvirt : pageOf virt < bound) :
    Within (Keeps (Fenced bound m₀ g)) (releasePage virt) := by
  refine within_bind (within_attempt ?_) fun _ => within_pure _
  intro m h
  rcases unmap4kAndFreeBitmap_cases virt m with ⟨-, hrun⟩ | ⟨e, he, hrun⟩
  · rw [hrun]
    exact h
  · rw [hrun]
    exact h.release hvirt he

theorem zeroedPage_fenced (w : Walker) {page : ℕ} (flags : PageTableFlags) (hpage : page < bound) :
    Within (Keeps (Fenced bound m₀ g)) (zeroedPage w page flags) :=
  useFrame_fenced _ fun _ hf => within_bind (within_modify _ fun _ h => h.zero hf) fun _ =>
    within_mapErr (mapTo_fenced w flags hpage hf)

/-! ## What is permitted below the fence -/

theorem mayMap_fenced : MayMap (Keeps (Fenced bound m₀ g)) (Set.Iio bound) where
  plain w _ flags hpage := mapNewPage_fenced w flags hpage
  zeroed w _ flags hpage := zeroedPage_fenced w flags hpage

theorem mayUnmap_fenced : MayUnmap (Keeps (Fenced bound m₀ g)) (Set.Iio bound) :=
  fun hvirt => releasePage_fenced hvirt

theorem mayStore_fenced : MayStore (Keeps (Fenced bound m₀ g)) (Set.Iio (bound * pageSize)) := by
  intro m va phys b hva hphys h
  obtain ⟨e, he, rfl⟩ := Option.map_eq_some_iff.mp hphys
  exact h.write (pageOf_lt hva) he b

/-- The pages of a range that ends below the fence, where no address is sign-extended. -/
theorem pages_below {start count : ℕ} (hlow : start + count * pageSize ≤ 2 ^ 47)
    (hend : start + count * pageSize ≤ bound * pageSize) :
    ∀ page ∈ steppedPages start count, page ∈ Set.Iio bound := by
  intro page hpage
  obtain ⟨i, hi, rfl⟩ := mem_steppedPages.mp hpage
  rw [signExtend_of_lt (step_lt hi hlow)]
  exact pageOf_lt (step_lt hi hend)

/-! ## The loader -/

/-- Both what a segment maps and what it copies ends below the fence. -/
def Below (bound : ℕ) (image : List UInt8) : Prop :=
  ∀ ph ∈ loadHeaders image, ph.vaddr + max ph.filesz ph.memsz ≤ bound * pageSize

instance (bound : ℕ) (image : List UInt8) : Decidable (Below bound image) :=
  inferInstanceAs (Decidable (∀ ph ∈ loadHeaders image, _))

theorem Below.covers {image : List UInt8} (hlow : bound * pageSize < 2 ^ 47)
    (himage : Below bound image) :
    ∀ ph ∈ loadHeaders image, Covers (Set.Iio bound) (Set.Iio (bound * pageSize)) ph := by
  intro ph hph
  have hend := himage ph hph
  have hfile : ph.filesz ≤ max ph.filesz ph.memsz := le_max_left _ _
  have hmem : ph.memsz ≤ max ph.filesz ph.memsz := le_max_right _ _
  have hmemsz : ph.memsz ≠ 0 := (LoadedPages.segment_of_mem hph).2
  refine ⟨fun page hpage => ?_, fun j hj => ?_⟩
  · have hlast := ((mem_pages_of_lt (by omega)).mp hpage).2
    exact hlast.trans_lt (pageOf_lt (by omega))
  · rw [signExtend_of_lt (by omega)]
    exact Set.mem_Iio.mpr (by omega)

/-- The image of an accepted program ends below the fence. -/
theorem imageEnd_below {w : Walker} {image : List UInt8} (himage : Below bound image) {m m' : Mem}
    {entry : ℕ} {md : ElfLoadedMeta} (h : loadElfMapped w image 0 m = .ok (entry, md) m') :
    md.imageEnd ≤ bound * pageSize := by
  obtain ⟨-, hgreatest, -⟩ := LoadedPages.loadElfMapped_pages h
  obtain ⟨ph, hph, hend⟩ := hgreatest.1
  have hbelow := himage ph hph
  have hmem : ph.memsz ≤ max ph.filesz ph.memsz := le_max_right _ _
  omega

theorem loadElf_fenced (w : Walker) {image : List UInt8} (himage : Below bound image)
    (hlow : bound * pageSize < 2 ^ 47) (htext : userTextBase + pageSize ≤ bound * pageSize) :
    Within (Keeps (Fenced bound m₀ g)) (loadElf w image 0) := by
  intro m h
  have hmapped := loadElfMapped_within mayMap_fenced mayStore_fenced w (himage.covers hlow) m h
  rw [loadElf, bind_run]
  cases hload : loadElfMapped w image 0 m with
  | error e t =>
      rw [hload] at hmapped
      exact hmapped
  | ok r t =>
      rw [hload] at hmapped
      exact Fenced.applyUserMeta hmapped htext (imageEnd_below himage hload)

/-- The old image is unmapped up to its end, which is below the fence. -/
theorem unmapOldImage_fenced (hlow : bound * pageSize < 2 ^ 47)
    (hold : m₀.image.imageEnd ≤ bound * pageSize) :
    Within (Keeps (Fenced bound m₀ g)) unmapOldImageBestEffort := by
  intro m h
  refine unmapOldImage_within mayUnmap_fenced (fun page hpage => ?_) h
  have hend := h.image
  rw [max_eq_right hold] at hend
  obtain ⟨i, hi, rfl⟩ := OldImage.mem_oldPages.mp hpage
  have hlt := hi.trans_le hend
  rw [signExtend_of_lt (hlt.trans hlow)]
  exact pageOf_lt hlt

theorem loadElfExec_fenced (w : Walker) {image : List UInt8} (himage : Below bound image)
    (hlow : bound * pageSize < 2 ^ 47) (hstack : userStackTop ≤ bound * pageSize)
    (hold : m₀.image.imageEnd ≤ bound * pageSize) (argv envp : List (List UInt8)) :
    Within (Keeps (Fenced bound m₀ g)) (loadElfExec w image 0 argv envp) := by
  have htext : userTextBase + pageSize ≤ bound * pageSize := hstack.trans' (by decide)
  refine within_bind (unmapOldImage_fenced hlow hold) fun _ => ?_
  intro m h
  have hmapped := loadElfMapped_within mayMap_fenced mayStore_fenced w (himage.covers hlow) m h
  rw [bind_run]
  cases hload : loadElfMapped w image 0 m with
  | error e t =>
      rw [hload] at hmapped
      exact hmapped
  | ok r t =>
      rw [hload] at hmapped
      have happlied := Fenced.applyUserMeta hmapped htext (imageEnd_below himage hload)
      have hbuilt : Within (Keeps (Fenced bound m₀ g)) (do
          let rsp ← buildExecStack r.2 argv envp
          pure (r.1, rsp)) :=
        within_bind (buildExecStack_within mayStore_fenced r.2 argv envp fun va hva =>
          hva.2.trans_le hstack) fun _ => within_pure _
      exact hbuilt _ happlied

/-- Wherever the caller's stack pointer is, the copy ends below `0x804000`. -/
theorem mapChildStackAndCopy_fenced (w : Walker) (saved : SyscallFrame.SyscallSaved)
    (hbound : 0x804000 ≤ bound * pageSize) :
    Within (Keeps (Fenced bound m₀ g)) (mapChildStackAndCopy w saved) := by
  have hchild : childStackLo = 0x402000 := rfl
  have htop : userStackTop = 0x402000 := rfl
  have hsize : pageSize = 4096 := rfl
  refine mapChildStackAndCopy_within mayMap_fenced mayStore_fenced w saved
    (pageOf_lt (by omega)) fun j hj => Set.mem_Iio.mpr ?_
  omega

end

end Rockos.MemoryFence
