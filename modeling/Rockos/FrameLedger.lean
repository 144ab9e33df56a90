import Rockos.CallFootprints
import Rockos.FrameUse
import Rockos.FreeSet

/-!
# The frames that are lost

A frame that is in use is a page table or stands behind a page. The exceptions
are the frames that were never handed out, and those that were taken for a page
which then could not be mapped: nobody gives these back. A call that fails in
this way stops at once, so each failed call loses one frame at most, and a call
that succeeds loses none.
-/
namespace Rockos.FrameLedger
open FallibleState PhysMemory Paging ElfLoader KernelState AddressSpace ProcessCalls PageEdits
open SyscallFrame FrameUse Runs RunQueue SyscallEffects Turns CallFootprints Syscall

/-- In use, but neither a page table nor behind a page. -/
structure Stray (m : Mem) (f : ℕ) : Prop where
  used : used m.fa f = true
  unmapped : ∀ q e, m.pt.entries q = some e → e.frame ≠ f
  table : ∀ t ∈ m.pt.tables, t.2 ≠ f

/-- The stray frames are those of `S` and some of `L`. Frames behind pages can be
given back, and frame 0, which cannot, is not handed out. -/
structure Accounted (S : Set ℕ) (L : Finset ℕ) (m : Mem) : Prop where
  reserved : PhysMemory.used m.fa 0 = true
  proper : ∀ q e, m.pt.entries q = some e → Proper e.frame
  strays : ∀ f, Stray m f → f ∈ S ∨ f ∈ L

/-- The same with one more stray frame. -/
def Short (S : Set ℕ) (L : Finset ℕ) (m : Mem) : Prop := ∃ f, Accounted S (insert f L) m

section
variable {S : Set ℕ} {L : Finset ℕ} {m m' : Mem}

theorem Accounted.mono {L' : Finset ℕ} (h : Accounted S L m) (hsub : L ⊆ L') : Accounted S L' m :=
  ⟨h.reserved, h.proper, fun f hf => (h.strays f hf).imp_right fun hL => hsub hL⟩

theorem Accounted.short (h : Accounted S L m) : Short S L m :=
  ⟨0, h.mono (Finset.subset_insert 0 L)⟩

theorem Accounted.of_eq (h : Accounted S L m) (hfa : m'.fa = m.fa) (hpt : m'.pt = m.pt) :
    Accounted S L m' := by
  refine ⟨hfa ▸ h.reserved, hpt ▸ h.proper, fun f hf => h.strays f ?_⟩
  exact ⟨hfa ▸ hf.used, hpt ▸ hf.unmapped, hpt ▸ hf.table⟩

/-- A frame that is taken is stray until it is put to use. -/
theorem Accounted.allocate (h : Accounted S L m) {f : ℕ} {fa : BitmapFrameAllocator}
    (ha : allocateFrame m.fa = some (f, fa)) :
    Proper f ∧ Accounted S (insert f L) { m with fa := fa } := by
  have hmarked : ∀ g, PhysMemory.used fa g = (PhysMemory.used m.fa g || decide (g = f)) :=
    allocateFrame_used ha
  refine ⟨⟨?_, allocateFrame_lt ha⟩, ?_, h.proper, fun g hg => ?_⟩
  · intro hzero
    have hfree := allocateFrame_unused ha
    rw [hzero, h.reserved] at hfree
    cases hfree
  · rw [hmarked, h.reserved, Bool.true_or]
  · by_cases hgf : g = f
    · exact .inr (hgf ▸ Finset.mem_insert_self f L)
    · have hused := hg.used
      rw [hmarked, decide_eq_false hgf, Bool.or_false] at hused
      exact (h.strays g ⟨hused, hg.unmapped, hg.table⟩).imp_right Finset.mem_insert_of_mem

/-- A stray frame that becomes a table or gets behind a page is stray no more. -/
theorem Accounted.settle {f : ℕ} (h : Accounted S (insert f L) m) (hf : ¬ Stray m f) :
    Accounted S L m := by
  refine ⟨h.reserved, h.proper, fun g hg => (h.strays g hg).imp_right fun hmem => ?_⟩
  rcases Finset.mem_insert.mp hmem with rfl | hL
  · exact absurd hg hf
  · exact hL

theorem Accounted.link (h : Accounted S L m) (page f : ℕ) :
    Accounted S L { m with pt := { m.pt with tables := (page, f) :: m.pt.tables } } := by
  refine ⟨h.reserved, h.proper, fun g hg => h.strays g ⟨hg.used, hg.unmapped, fun t ht => ?_⟩⟩
  exact hg.table t (List.mem_cons_of_mem _ ht)

theorem Accounted.enter (h : Accounted S L m) {page : ℕ} {e : Entry}
    (hfree : m.pt.entries page = none) (he : Proper e.frame) :
    Accounted S L (setEntry page (some e) m) := by
  have hentry : ∀ q, (setEntry page (some e) m).pt.entries q =
      Function.update m.pt.entries page (some e) q := fun _ => rfl
  refine ⟨h.reserved, fun q x hx => ?_,
    fun g hg => h.strays g ⟨hg.used, fun q x hx => ?_, hg.table⟩⟩
  · rw [hentry] at hx
    by_cases hq : q = page
    · rw [hq, Function.update_self, Option.some.injEq] at hx
      exact hx ▸ he
    · rw [Function.update_of_ne hq] at hx
      exact h.proper q x hx
  · have hq : q ≠ page := by
      rintro rfl
      rw [hfree] at hx
      cases hx
    apply hg.unmapped q x
    rw [hentry, Function.update_of_ne hq, hx]

/-- Unmapping a page gives its frame back. -/
theorem Accounted.release (h : Accounted S L m) {page : ℕ} {e : Entry}
    (he : m.pt.entries page = some e) :
    Accounted S L { setEntry page none m with fa := deallocateFrame m.fa e.frame } := by
  obtain ⟨hne, hlt⟩ := h.proper page e he
  have hcleared : ∀ g, PhysMemory.used (deallocateFrame m.fa e.frame) g =
      (PhysMemory.used m.fa g && decide (g ≠ e.frame)) := by
    intro g
    rw [deallocateFrame_used]
    simp [hne, hlt]
  refine ⟨?_, fun q x hx => ?_, fun g hg => h.strays g ?_⟩
  · show PhysMemory.used (deallocateFrame m.fa e.frame) 0 = true
    rw [hcleared, h.reserved, decide_eq_true hne.symm]
    rfl
  · have hx' : Function.update m.pt.entries page none q = some x := hx
    by_cases hq : q = page
    · rw [hq, Function.update_self] at hx'
      cases hx'
    · rw [Function.update_of_ne hq] at hx'
      exact h.proper q x hx'
  · have hused : PhysMemory.used (deallocateFrame m.fa e.frame) g = true := hg.used
    rw [hcleared, Bool.and_eq_true, decide_eq_true_iff] at hused
    refine ⟨hused.1, fun q x hx => ?_, hg.table⟩
    by_cases hq : q = page
    · rw [hq, he, Option.some.injEq] at hx
      exact hx ▸ hused.2.symm
    · apply hg.unmapped q x
      show Function.update m.pt.entries page none q = some x
      rw [Function.update_of_ne hq, hx]

end

/-! ## Memory operations -/

/-- Success loses no frame, failure at most one. -/
def Thrifty (S : Set ℕ) (L : Finset ℕ) {α : Type} (x : MemM α) : Prop :=
  Meets (Accounted S L) x (fun _ => Accounted S L) fun _ => Short S L

section
variable {S : Set ℕ} {L : Finset ℕ} {α β : Type}

theorem thrifty_of_keeps {x : MemM α} (h : Within (Keeps (Accounted S L)) x) : Thrifty S L x :=
  h.meets.mono (fun _ hm => hm) (fun _ _ hm => hm) fun _ _ hm => hm.short

theorem thrifty_of_sameMaps {x : MemM α} (h : Within SameMaps x) : Thrifty S L x :=
  thrifty_of_keeps (h.mono fun _ _ hsame hm => hm.of_eq hsame.fa hsame.pt)

theorem thrifty_pure (a : α) : Thrifty S L (pure a : MemM α) :=
  thrifty_of_sameMaps (within_pure a)

theorem thrifty_throw (e : Stop) : Thrifty S L (throw e : MemM α) :=
  thrifty_of_sameMaps (within_throw e)

theorem thrifty_bind {x : MemM α} {f : α → MemM β} (hx : Thrifty S L x)
    (hf : ∀ a, Thrifty S L (f a)) : Thrifty S L (x >>= f) := meets_bind hx hf

theorem thrifty_ite {c : Prop} [Decidable c] {x y : MemM α} (hx : Thrifty S L x)
    (hy : Thrifty S L y) : Thrifty S L (if c then x else y) :=
  meets_ite (fun _ => hx) fun _ => hy

theorem thrifty_countLoop {body : ℕ → β → MemM β} (h : ∀ i c, Thrifty S L (body i c))
    (start count : ℕ) (b : β) : Thrifty S L (countLoop body start count b) :=
  meets_countLoop (fun _ _ => Accounted S L) start count b fun i c _ _ => h i c

theorem thrifty_virtAddr (a : ℕ) : Thrifty S L (virtAddr a) :=
  thrifty_of_sameMaps (within_virtAddr a)

theorem thrifty_addU64 (a b : ℕ) : Thrifty S L (addU64 a b) :=
  thrifty_of_sameMaps (within_addU64 a b)

theorem thrifty_get : Thrifty S L (get : MemM Mem) := thrifty_of_sameMaps within_get

theorem thrifty_forPages (first last : ℕ) {body : ℕ → MemM Unit}
    (h : ∀ page, Thrifty S L (body page)) : Thrifty S L (forPages first last body) :=
  thrifty_bind (thrifty_countLoop (fun _ page =>
    thrifty_ite (thrifty_bind (h page) fun _ => thrifty_pure _) (thrifty_pure _)) _ _ _)
    fun _ => thrifty_pure _

/-- Take a frame and map it: a failure leaves it stray. -/
theorem thrifty_useFrame (otherwise : Stop) {g : ℕ → MemM Unit}
    (hg : ∀ f, Proper f → Meets (Accounted S (insert f L)) (g f) (fun _ => Accounted S L)
      fun _ => Accounted S (insert f L)) : Thrifty S L (takeFrame otherwise >>= g) := by
  intro m h
  rw [bind_run]
  unfold takeFrame
  cases ha : allocateFrame m.fa with
  | none => exact h.short
  | some r =>
      obtain ⟨hproper, htaken⟩ := h.allocate ha
      have hrest := hg r.1 hproper _ htaken
      simp only
      cases hrun : g r.1 { m with fa := r.2 } with
      | ok u t =>
          rw [hrun] at hrest
          exact hrest
      | error e t =>
          rw [hrun] at hrest
          exact ⟨r.1, hrest⟩

theorem linkTable_accounted (page : ℕ) :
    Within (Keeps (Accounted S L)) (linkTable page) := by
  intro m h
  rw [linkTable, bind_run]
  unfold takeFrame
  cases ha : allocateFrame m.fa with
  | none => exact h
  | some r =>
      have hlinked := (h.allocate ha).2.link page r.1
      exact hlinked.settle fun hstray => hstray.table _ List.mem_cons_self rfl

/-- Once mapped, the frame is no longer stray. -/
theorem mapTo_accounted (w : Walker) (page : ℕ) {f : ℕ} (flags : PageTableFlags) (hf : Proper f) :
    Meets (Accounted S (insert f L)) (mapTo w page f flags) (fun _ => Accounted S L)
      fun _ => Accounted S (insert f L) := by
  have hlink : Within (Keeps (Accounted S (insert f L))) (linkMissing w page) :=
    within_bind within_get fun _ => within_countLoop (fun _ _ => linkTable_accounted page) _ _ _
  refine meets_bind hlink.meets fun _ m h => ?_
  rcases writeLeaf_cases w page f flags m with ⟨reason, hrun⟩ | ⟨hfree, hrun⟩
  · rw [hrun]
    exact h
  · rw [hrun]
    have hentered := h.enter (e := ⟨f, flags⟩) hfree hf
    refine hentered.settle fun hstray => ?_
    exact hstray.unmapped page ⟨f, flags⟩ (Function.update_self ..) rfl

theorem mapNewPage_thrifty (w : Walker) (page : ℕ) (flags : PageTableFlags) :
    Thrifty S L (mapNewPage w page flags) :=
  thrifty_useFrame _ fun _ hf => meets_mapErr (mapTo_accounted w page flags hf)

theorem releasePage_accounted (virt : ℕ) : Within (Keeps (Accounted S L)) (releasePage virt) := by
  refine within_bind (within_attempt ?_) fun _ => within_pure _
  intro m h
  rcases unmap4kAndFreeBitmap_cases virt m with ⟨-, hrun⟩ | ⟨e, he, hrun⟩
  · rw [hrun]
    exact h
  · rw [hrun]
    exact h.release he

theorem releasePage_thrifty (virt : ℕ) : Thrifty S L (releasePage virt) :=
  thrifty_of_keeps (releasePage_accounted virt)

theorem modify_thrifty {f : Mem → Mem} (hfa : ∀ m, (f m).fa = m.fa) (hpt : ∀ m, (f m).pt = m.pt) :
    Thrifty S L (modify f : MemM Unit) :=
  thrifty_of_keeps (within_modify f fun m h => h.of_eq (hfa m) (hpt m))

/-! ## The loader -/

theorem zeroedPage_thrifty (w : Walker) (page : ℕ) (flags : PageTableFlags) :
    Thrifty S L (zeroedPage w page flags) := by
  refine thrifty_useFrame _ fun f hf => ?_
  refine meets_bind (Q := fun _ => Accounted S (insert f L))
    (meets_modify _ fun _ h => h.of_eq rfl rfl) fun _ => ?_
  exact meets_mapErr (mapTo_accounted w page flags hf)

theorem copySegment_sameMaps (image : List UInt8) (seg pOffset pFilesz : ℕ) :
    Within SameMaps (copySegment image seg pOffset pFilesz) := by
  refine within_countLoop (fun j _ => ?_) _ _ _
  refine within_bind (within_addU64 _ _) fun fileOff => within_ite (within_throw _) ?_
  refine within_bind (within_addU64 _ _) fun va => within_bind (within_virtAddr _) fun v => ?_
  refine within_bind within_get fun m => ?_
  split
  · exact within_throw _
  · exact within_modify _ fun _ => ⟨rfl, rfl, rfl⟩

theorem phdrAddress_sameMaps (phoff : ℕ) (ph : ProgramHeader) (seg : ℕ) (old : Option ℕ) :
    Within SameMaps (phdrAddress phoff ph seg old) :=
  within_ite (within_bind (within_addU64 _ _) fun _ => within_pure _) (within_pure _)

theorem loadSegment_thrifty (w : Walker) (image : List UInt8) (bias phoff : ℕ)
    (ph : ProgramHeader) (acc : LoadAcc) :
    Thrifty S L (loadSegment w image bias phoff ph acc) := by
  refine thrifty_bind (thrifty_of_sameMaps (phdrAddress_sameMaps _ _ _ _)) fun _ => ?_
  refine thrifty_bind (thrifty_virtAddr _) fun _ => thrifty_bind (thrifty_addU64 _ _) fun _ => ?_
  refine thrifty_bind (thrifty_virtAddr _) fun _ => thrifty_bind (thrifty_virtAddr _) fun _ => ?_
  refine thrifty_bind (thrifty_forPages _ _ fun page => zeroedPage_thrifty w page _) fun _ => ?_
  exact thrifty_bind (thrifty_of_sameMaps (copySegment_sameMaps _ _ _ _)) fun _ => thrifty_pure _

theorem loadPhdr_thrifty (w : Walker) (image : List UInt8) (bias : ℕ) (h : FileHeader) (i : ℕ)
    (acc : LoadAcc) : Thrifty S L (loadPhdr w image bias h i acc) := by
  refine thrifty_bind (thrifty_addU64 _ _) fun _ => thrifty_bind (thrifty_addU64 _ _) fun _ => ?_
  refine thrifty_ite (thrifty_throw _) (thrifty_ite (thrifty_pure _) ?_)
  refine thrifty_ite (thrifty_throw _) (thrifty_ite (thrifty_pure _) ?_)
  exact loadSegment_thrifty w _ _ _ _ _

theorem loadElfMapped_thrifty (w : Walker) (image : List UInt8) (bias : ℕ) :
    Thrifty S L (loadElfMapped w image bias) := by
  unfold loadElfMapped
  cases fileHeader image with
  | error reason => exact thrifty_throw _
  | ok h =>
      refine thrifty_bind (thrifty_countLoop (loadPhdr_thrifty w image bias h) _ _ _) fun acc => ?_
      cases acc.phdrVa with
      | none => exact thrifty_throw _
      | some phdr => exact thrifty_pure _

theorem loadElf_thrifty (w : Walker) (image : List UInt8) (bias : ℕ) :
    Thrifty S L (loadElf w image bias) :=
  thrifty_bind (loadElfMapped_thrifty w image bias) fun _ =>
    thrifty_bind (modify_thrifty (fun _ => rfl) fun _ => rfl) fun _ => thrifty_pure _

theorem unmapOldImage_thrifty : Thrifty S L unmapOldImageBestEffort :=
  thrifty_bind thrifty_get fun _ => thrifty_countLoop (fun _ _ =>
    thrifty_bind (thrifty_virtAddr _) fun _ => thrifty_bind thrifty_get fun _ =>
      thrifty_ite (releasePage_thrifty _) (thrifty_pure _)) _ _ _

theorem writeUserBytes_sameMaps (va : ℕ) (bytes : List UInt8) :
    Within SameMaps (writeUserBytes va bytes) := by
  induction bytes generalizing va with
  | nil => exact within_pure _
  | cons b bytes ih =>
      refine within_bind ?_ fun _ => ih (va + 1)
      refine within_bind (within_virtAddr _) fun v => within_bind within_get fun m => ?_
      split
      · exact within_throw _
      · exact within_modify _ fun _ => ⟨rfl, rfl, rfl⟩

theorem buildExecStack_sameMaps (md : ElfLoadedMeta) (argv envp : List (List UInt8)) :
    Within SameMaps (buildExecStack md argv envp) := by
  unfold buildExecStack
  cases execStackBlock md argv envp with
  | error reason => exact within_throw _
  | ok v => exact within_bind (writeUserBytes_sameMaps _ _) fun _ => within_pure _

theorem loadElfExec_thrifty (w : Walker) (image : List UInt8) (bias : ℕ)
    (argv envp : List (List UInt8)) : Thrifty S L (loadElfExec w image bias argv envp) := by
  refine thrifty_bind unmapOldImage_thrifty fun _ => ?_
  refine thrifty_bind (loadElfMapped_thrifty w image bias) fun _ => ?_
  refine thrifty_bind (modify_thrifty (fun _ => rfl) fun _ => rfl) fun _ => ?_
  exact thrifty_bind (thrifty_of_sameMaps (buildExecStack_sameMaps _ _ _)) fun _ => thrifty_pure _

/-! ## Boot -/

theorem heapInit_thrifty (w : Walker) : Thrifty S L (heapInit w) :=
  thrifty_countLoop (fun _ _ => thrifty_bind (thrifty_virtAddr _) fun _ =>
    thrifty_useFrame _ fun _ hf => meets_expect (mapTo_accounted w _ _ hf)) _ _ _

theorem mapUserStack_thrifty (w : Walker) : Thrifty S L (mapUserStack w) :=
  thrifty_useFrame _ fun _ hf => meets_bind (meets_virtAddr _ fun _ h => h) fun _ =>
    meets_expect (mapTo_accounted w _ _ hf)

theorem mapUserBlob_thrifty (w : Walker) : Thrifty S L (mapUserBlob w) :=
  thrifty_useFrame _ fun f hf => meets_bind (Q := fun _ => Accounted S (insert f L))
    (meets_modify _ fun _ h => h.of_eq rfl rfl) fun _ =>
      meets_bind (meets_virtAddr _ fun _ h => h) fun _ => meets_expect (mapTo_accounted w _ _ hf)

/-- A program that the loader refuses may cost one frame. -/
theorem kernelMain_short {w : Walker} {initElf : List UInt8} {m m' : Mem} {u : Unit}
    (h : Accounted S L m) (hmain : kernelMain w initElf m = .ok u m') : Short S L m' := by
  rw [kernelMain] at hmain
  obtain ⟨_, m₁, hheap, hmain⟩ := bind_ok hmain
  obtain ⟨_, m₂, hstack, hmain⟩ := bind_ok hmain
  obtain ⟨r, m₃, hload, hmain⟩ := bind_ok hmain
  have h₁ : Accounted S L m₁ := Meets.ok (heapInit_thrifty w) h hheap
  have h₂ : Accounted S L m₂ := Meets.ok (mapUserStack_thrifty w) h₁ hstack
  unfold attempt at hload
  cases hrun : loadElf w initElf 0 m₂ with
  | ok entry t =>
      rw [hrun] at hload
      cases hload
      have h₃ : Accounted S L m₃ := Meets.ok (loadElf_thrifty w initElf 0) h₂ hrun
      cases hmain
      have hset : Accounted S L (setUserEntry entry m₃) := h₃.of_eq rfl rfl
      exact hset.short
  | error e t =>
      obtain ⟨f, hshort⟩ : Short S L t := Meets.error (loadElf_thrifty w initElf 0) h₂ hrun
      simp only [hrun] at hload
      split_ifs at hload
      cases hload
      obtain ⟨_, m₄, hblob, hmain⟩ := bind_ok hmain
      have h₄ : Accounted S (insert f L) m₄ := Meets.ok (mapUserBlob_thrifty w) hshort hblob
      cases hmain
      exact ⟨f, h₄.of_eq rfl rfl⟩

/-! ## Memory calls -/

theorem mapBrkShrink_thrifty (newEnd oldEnd : ℕ) : Thrifty S L (mapBrkShrink newEnd oldEnd) := by
  refine thrifty_ite (thrifty_pure _) (thrifty_ite (thrifty_pure _) ?_)
  refine thrifty_bind (thrifty_virtAddr _) fun _ => thrifty_bind (thrifty_virtAddr _) fun _ => ?_
  exact thrifty_forPages _ _ fun page => thrifty_bind thrifty_get fun _ =>
    thrifty_ite (thrifty_pure _) (releasePage_thrifty _)

theorem mapBrkGrow_thrifty (w : Walker) (oldEnd newEnd : ℕ) (flags : PageTableFlags) :
    Thrifty S L (mapBrkGrow w oldEnd newEnd flags) := by
  refine thrifty_bind (thrifty_virtAddr _) fun _ => thrifty_bind (thrifty_virtAddr _) fun _ => ?_
  exact thrifty_forPages _ _ fun page => thrifty_bind thrifty_get fun _ =>
    thrifty_ite (thrifty_pure _) (mapNewPage_thrifty w page flags)

theorem mapUserAnonPages_thrifty (w : Walker) (start count : ℕ) (flags : PageTableFlags) :
    Thrifty S L (mapUserAnonPages w start count flags) :=
  thrifty_countLoop (fun _ _ => thrifty_bind (thrifty_virtAddr _) fun _ =>
    mapNewPage_thrifty w _ flags) _ _ _

theorem unmapUserRange_accounted (start count : ℕ) :
    Within (Keeps (Accounted S L)) (unmapUserRange start count) :=
  within_countLoop (fun _ _ => within_bind (within_virtAddr _) fun _ =>
    releasePage_accounted _) _ _ _

theorem mapChildStackAndCopy_thrifty (w : Walker) (saved : SyscallSaved) :
    Thrifty S L (mapChildStackAndCopy w saved) := by
  refine thrifty_bind ?_ fun _ => thrifty_ite (thrifty_throw _) ?_
  · exact thrifty_bind (thrifty_virtAddr _) fun _ => thrifty_bind thrifty_get fun _ =>
      thrifty_ite (mapNewPage_thrifty w _ _) (thrifty_pure _)
  · exact thrifty_of_sameMaps (within_copyUserPages (fun _ _ _ => ⟨rfl, rfl, rfl⟩) _ _ _)

/-- The result of a system call is an error number. -/
def Refusal (v : UInt64) : Prop := 2 ^ 64 - 4096 ≤ v.toNat

instance (v : UInt64) : Decidable (Refusal v) := inferInstanceAs (Decidable (_ ≤ _))

def KernelAccounted (S : Set ℕ) (L : Finset ℕ) (k : Kernel) : Prop := Accounted S L k.mem

/-- After a memory call that returned `v`. -/
def Settled (S : Set ℕ) (L : Finset ℕ) (v : UInt64) (k : Kernel) : Prop :=
  KernelAccounted S L k ∨ Refusal v ∧ Short S L k.mem

/-- After an attempt at a memory operation. -/
def Attempted (S : Set ℕ) (L : Finset ℕ) (r : Option α) (k : Kernel) : Prop :=
  if r.isSome then KernelAccounted S L k else Short S L k.mem

theorem attempt_accounted {edit : MemM α} (h : Thrifty S L edit) :
    Meets (KernelAccounted S L) (onMem (attempt Stop.isErr edit)) (Attempted S L)
      fun _ _ => True := by
  intro k hk
  rcases onMem_attempt_cases edit k with ⟨a, m, hx, ho⟩ | ⟨reason, m, hx, ho⟩ | ⟨e, m, hx, ho⟩
  · rw [ho]
    exact Meets.ok h hk hx
  · rw [ho]
    exact Meets.error h hk hx
  · rw [ho]
    trivial

theorem settled_pure (v : UInt64) : Meets (KernelAccounted S L) (pure v) (Settled S L)
    fun (_ : Stop) _ => True := meets_pure v fun _ hk => .inl hk

theorem editThen_settled {edit : MemM Unit} {books : Kernel → Kernel} {v : UInt64}
    (h : Thrifty S L edit) (hbooks : ∀ k, (books k).mem = k.mem) :
    Meets (KernelAccounted S L) (editThen edit books v) (Settled S L)
      fun _ _ => True := by
  refine meets_bind (attempt_accounted h) fun r => ?_
  cases r with
  | none => exact meets_pure _ fun _ hk => .inr ⟨by decide, hk⟩
  | some u =>
      refine meets_bind (Q := fun _ => KernelAccounted S L) (meets_modify _ fun k hk => ?_)
        fun _ => settled_pure _
      rw [KernelAccounted, hbooks]
      exact hk

theorem meets_kernel_get {f : Kernel → KernelM UInt64}
    (h : ∀ k, Meets (KernelAccounted S L) (f k) (Settled S L) fun _ _ => True) :
    Meets (KernelAccounted S L) (get >>= f) (Settled S L) fun _ _ => True :=
  meets_bind (meets_get fun _ hk => hk) h

theorem sysBrk_settled (w : Walker) (addr : ℕ) : Meets (KernelAccounted S L)
    (sysBrk w addr) (Settled S L) fun _ _ => True := by
  refine meets_kernel_get fun k => ?_
  cases k.current with
  | none => exact settled_pure _
  | some p =>
      refine meets_ite (fun _ => settled_pure _) fun _ => meets_ite (fun _ => settled_pure _) ?_
      intro _
      refine meets_ite (fun _ => ?_) fun _ => meets_ite (fun _ => settled_pure _) fun _ => ?_
      · exact editThen_settled (mapBrkShrink_thrifty _ _) fun _ => rfl
      · exact editThen_settled (mapBrkGrow_thrifty w _ _ _) fun _ => rfl

theorem sysMmap_settled (w : Walker) (addr len prot : ℕ) : Meets (KernelAccounted S L)
    (sysMmap w addr len prot) (Settled S L) fun _ _ => True := by
  have hat : ∀ a n, Meets (KernelAccounted S L) (mmapAt w a n prot) (Settled S L)
      fun _ _ => True := by
    intro a n
    rw [mmapAt]
    exact editThen_settled (mapUserAnonPages_thrifty w _ _ _) fun _ => rfl
  refine meets_ite (fun _ => settled_pure _) fun _ => meets_ite (fun _ => ?_) fun _ => ?_
  · refine meets_kernel_get fun k => ?_
    refine meets_bind (Q := fun _ => KernelAccounted S L) (meets_modify _ fun _ hk => hk) ?_
    intro _
    exact meets_ite (fun _ => settled_pure _) fun _ => hat _ _
  · exact meets_ite (fun _ => settled_pure _) fun _ =>
      meets_ite (fun _ => settled_pure _) fun _ => hat _ _

theorem sysFork_settled (w : Walker) (mem : UInt64 → UInt64) (rsp top : UInt64) :
    Meets (KernelAccounted S L) (sysFork w mem rsp top) (Settled S L)
      fun _ _ => True := by
  refine meets_kernel_get fun k => ?_
  cases allocPid k.procs with
  | none => exact settled_pure _
  | some pid =>
      refine meets_bind (attempt_accounted (mapChildStackAndCopy_thrifty w _)) fun r => ?_
      cases r with
      | none => exact meets_pure _ fun _ hk => .inr ⟨by decide, hk⟩
      | some u =>
          cases k.current with
          | none => exact meets_throw _ fun _ _ => trivial
          | some parent =>
              have hspawn : Within (Keeps (KernelAccounted S L))
                  (spawn pid (currentPid k) parent
                    (childSave (saveFromDispatchRsp mem rsp)) top) := by
                refine within_bind within_get fun k => ?_
                cases allocSlot k.procs with
                | none => exact within_throw _
                | some x =>
                    refine within_bind (within_modify _ fun _ hk => hk) fun _ => ?_
                    refine within_bind (within_modify _ fun _ hk => hk) fun _ => ?_
                    refine within_bind (within_modify _ fun _ hk => hk) fun _ => ?_
                    exact within_bind (within_modify _ fun _ hk => hk) fun _ => within_pure _
              exact hspawn.meets.mono (fun _ hk => hk) (fun _ _ hk => .inl hk) fun _ _ _ => trivial

theorem sysExecve_settled (w : Walker) (bin : List UInt8) (pathU argvU envpU : ℕ) :
    Meets (KernelAccounted S L) (sysExecve w bin pathU argvU envpU) (Settled S L)
      fun _ _ => True := by
  have hread : Within (Keeps (KernelAccounted S L)) (inspect (execArgs pathU argvU envpU)) :=
    within_inspect _
  refine meets_bind (hread.meets.mono (fun _ hk => hk) (fun _ _ hk => hk) fun _ _ _ => trivial) ?_
  intro r
  cases r with
  | error e => exact settled_pure _
  | ok args =>
      refine meets_bind (attempt_accounted (loadElfExec_thrifty w bin 0 _ _)) fun r => ?_
      cases r with
      | none => exact meets_pure _ fun _ hk => .inr ⟨by decide, hk⟩
      | some x =>
          refine meets_bind (Q := fun _ => KernelAccounted S L) (meets_modify _ fun _ hk => hk) ?_
          intro _
          refine meets_bind (Q := fun _ => KernelAccounted S L) (meets_modify _ fun _ hk => ?_)
            fun _ => settled_pure _
          exact Accounted.of_eq hk rfl rfl

theorem sysMunmap_accounted (addr len : ℕ) :
    Within (Keeps (KernelAccounted S L)) (sysMunmap addr len) := by
  refine within_ite (within_pure _) (within_bind within_get fun k => ?_)
  refine within_bind (within_modify _ fun _ hk => hk) fun _ => within_ite (within_pure _) ?_
  refine within_bind (within_zoom (within_attempt (unmapUserRange_accounted _ _))
    fun _ _ h hk => h hk) fun r => ?_
  cases r with
  | none => exact within_pure _
  | some u => exact within_pure _

/-! ## Whole calls -/

/-- The calls that take frames. -/
def DrawsFrames (t : Trap) : Prop :=
  sysno (t.reg .rax) ∈ [some .brk, some .mmap, some .fork, some .execve]

instance (t : Trap) : Decidable (DrawsFrames t) := inferInstanceAs (Decidable (_ ∈ _))

theorem accounted_permits {e : Edit} (he : e ≠ .memory) :
    Permits (Keeps (KernelAccounted S L)) e := by
  cases e with
  | memory => exact absurd rfl he
  | bytes => exact fun _ _ hsame hk => Accounted.of_eq hk hsame.fa hsame.pt
  | irqs =>
      intro k irqs rest hk
      obtain ⟨_, _, _, hsame⟩ := takeIrqs_eq irqs { k with waits := rest }
      rw [hsame]
      exact hk
  | own => exact fun _ _ _ hk => hk
  | heap => exact fun _ _ _ _ hk => hk
  | placement => exact fun _ _ _ hk => hk
  | files => exact fun _ _ _ hk => hk
  | descriptor => exact fun _ _ hk => hk
  | terminal => exact fun _ _ hk => hk
  | resched => exact fun _ hk => hk
  | table => exact fun _ _ hk => hk
  | queue => exact fun _ _ hk => hk

theorem userStores_sameMaps (stores : List (ℕ × UInt8)) (m : Mem) :
    SameMaps m (stores.foldl userStore m) := by
  obtain ⟨ram, heq⟩ := userStores_eq stores m
  rw [heq]
  exact ⟨rfl, rfl, rfl⟩

variable {cfg : Config} {t : Trap} {k k₁ k' : Kernel} {v : UInt64}

theorem dispatch_settled (h : KernelAccounted S L k)
    (hcall : dispatch cfg t k = .ok (.returned v) k₁) :
    KernelAccounted S L k₁ ∨ DrawsFrames t ∧ Refusal v ∧ Short S L k₁.mem := by
  have htrap : KernelAccounted S L (trapState t k) := by
    have hsame := userStores_sameMaps t.stores k.mem
    exact Accounted.of_eq h hsame.fa hsame.pt
  by_cases hmunmap : sysno (t.reg .rax) = some .munmap
  · rw [dispatch_eq, syscallDispatch, hmunmap] at hcall
    obtain ⟨v', -, hrun⟩ := returning_ok hcall
    exact .inl ((sysMunmap_accounted _ _).ok hrun htrap)
  by_cases htakes : DrawsFrames t
  · have hsettled : Settled S L v k₁ := by
      rw [dispatch_eq, syscallDispatch] at hcall
      simp only [DrawsFrames, List.mem_cons, List.not_mem_nil, or_false] at htakes
      rcases htakes with hn | hn | hn | hn
      all_goals
        rw [hn] at hcall
        obtain ⟨v', hv, hrun⟩ := returning_ok hcall
        cases hv
      · exact Meets.ok (sysBrk_settled _ _) htrap hrun
      · exact Meets.ok (sysMmap_settled _ _ _ _) htrap hrun
      · exact Meets.ok (sysFork_settled _ _ _ _) htrap hrun
      · exact Meets.ok (sysExecve_settled _ _ _ _ _) htrap hrun
    exact hsettled.imp_right fun hshort => ⟨htakes, hshort⟩
  · have hkept : Keeps (KernelAccounted S L) (trapState t k) k₁ := by
      refine dispatch_footprint hcall fun c hc e he => accounted_permits ?_
      rintro rfl
      cases c <;> simp_all [footprint, DrawsFrames]
    exact .inl (hkept htrap)

/-! ## Whole runs -/

/-- A call that takes frames was answered with an error number. -/
def refusedStep : Event → Kernel → Kernel → Bool
  | .irq _, _, _ => false
  | .syscall t, k, k' => decide (DrawsFrames t ∧ Refusal (pendingRaxForSlot k' k.currentSlot))

def countFailed (e : Event) (k k' : Kernel) (n : ℕ) : ℕ := if refusedStep e k k' then n + 1 else n

/-- At most `n` frames are lost. -/
def Lost (S : Set ℕ) (n : ℕ) (m : Mem) : Prop := ∃ L : Finset ℕ, L.card ≤ n ∧ Accounted S L m

theorem Short.lost {m : Mem} {n : ℕ} (h : Short S L m) (hL : L.card ≤ n) : Lost S (n + 1) m := by
  obtain ⟨f, h⟩ := h
  exact ⟨insert f L, (Finset.card_insert_le f L).trans (Nat.succ_le_succ hL), h⟩

theorem Lost.of_mem {m m' : Mem} {n : ℕ} (h : Lost S n m) (hsame : m' = m) : Lost S n m' :=
  hsame ▸ h

theorem Lost.le {m : Mem} {n n' : ℕ} (h : Lost S n m) (hle : n ≤ n') : Lost S n' m := by
  obtain ⟨L, hcard, h⟩ := h
  exact ⟨L, hcard.trans hle, h⟩

theorem step_lost {e : Event} {o : Option Resumed} {n : ℕ} (hready : Ready k)
    (h : Lost S n k.mem) (hstep : step cfg e k = some (o, k')) :
    Lost S (countFailed e k k' n) k'.mem := by
  have hle : n ≤ countFailed e k k' n := by
    unfold countFailed
    split_ifs <;> omega
  cases e with
  | irq i =>
      obtain ⟨-, rfl⟩ := step_irq_ok hstep
      obtain ⟨_, _, _, hsame⟩ := takeIrqs_eq [i] k
      have hmem : (takeIrq i k).mem = k.mem := by
        rw [show takeIrq i k = takeIrqs [i] k from rfl, hsame]
      exact (h.of_mem hmem).le hle
  | syscall t =>
      obtain ⟨r, -, hrun⟩ := step_syscall_ok hstep
      obtain ⟨L, hcard, hL⟩ := h
      cases syscall_after hready hrun with
      | returned v k₁ hcall hfinal =>
          have hrax : pendingRaxForSlot k' k.currentSlot = v := by
            rw [hfinal]
            exact pendingRax_tailState hready hcall
          have hmem : k'.mem = k₁.mem := by
            obtain ⟨_, _, _, htail⟩ := tailState_eq r.slot t k v k₁
            rw [hfinal, htail]
            rfl
          rcases dispatch_settled (k := k) hL hcall with hkept | ⟨htakes, hrefused, hshort⟩
          · exact (Lost.of_mem ⟨L, hcard, hkept⟩ hmem).le hle
          · have hcount : countFailed (.syscall t) k k' n = n + 1 := by
              rw [countFailed, refusedStep, hrax, if_pos (by simp [htakes, hrefused])]
            rw [hcount]
            exact (hshort.lost hcard).of_mem hmem
      | exited hexit hfinal =>
          have hsame := userStores_sameMaps t.stores k.mem
          have hmem : k'.mem = t.stores.foldl userStore k.mem := by
            rw [hfinal]
            rfl
          exact (Lost.of_mem ⟨L, hcard, hL.of_eq hsame.fa hsame.pt⟩ hmem).le hle

theorem run_lost {tr : List (Event × Option Resumed)} {n₀ n : ℕ} (hready : Ready k)
    (h : Lost S n₀ k.mem) (hrun : Run (observed (step cfg) countFailed) (k, 0) tr (k', n)) :
    Lost S (n₀ + n) k'.mem := by
  have hall := hrun.invariant (I := fun x : Kernel × ℕ => Ready x.1 ∧ Lost S (n₀ + x.2) x.1.mem)
    ?_ ⟨hready, h⟩
  · exact hall.2
  · intro e x o y hstep hx
    obtain ⟨hstep, hnote⟩ := observed_eq_some.mp hstep
    refine ⟨step_ready e x.1 o y.1 hstep hx.1, ?_⟩
    have hlost := step_lost hx.1 hx.2 hstep
    have hcount : countFailed e x.1 y.1 (n₀ + x.2) = n₀ + y.2 := by
      rw [hnote]
      unfold countFailed
      split_ifs <;> omega
    rwa [hcount] at hlost

theorem used_new (memoryMap : List MemoryRegion) (f : ℕ) :
    PhysMemory.used (.new memoryMap) f = true ↔ ¬ Eligible memoryMap f := by
  by_cases hf : f < frameBitmapBits
  · simp [PhysMemory.used, hf, ← new_testBit memoryMap hf]
  · exact ⟨fun _ h => hf h.lt, fun _ => by simp [PhysMemory.used, Nat.le_of_not_lt hf]⟩

theorem memInit_accounted (memoryMap : List MemoryRegion) :
    Accounted { f | ¬ Eligible memoryMap f } ∅ (memInit memoryMap) where
  reserved := (used_new memoryMap 0).mpr fun h => h.ne_zero rfl
  proper := fun _ _ h => by cases h
  strays := fun f hf => .inl ((used_new memoryMap f).mp hf.used)

end

/-- Every frame that the memory map offers is free, a page table, behind a page,
or one of those that were lost: one at most for each call that failed, and one
if the program was refused at boot. -/
theorem lost_frames_bounded (cfg : Config) (memoryMap : List MemoryRegion)
    (staleTop boxedTop : UInt64) (k₀ k₁ k : Kernel) (tr : List (Event × Option Resumed)) (n : ℕ)
    (hmem : k₀.mem = memInit memoryMap)
    (hmain : onMem (kernelMain cfg.walker cfg.initElf) k₀ = .ok () k₁)
    (hrun : Run (observed (step cfg) countFailed) (boot staleTop boxedTop k₁, 0) tr (k, n)) :
    ∃ L : Finset ℕ, L.card ≤ n + 1 ∧ ∀ f, Eligible memoryMap f → used k.mem.fa f = true →
      f ∈ L ∨ (∃ t ∈ k.mem.pt.tables, t.2 = f) ∨
        ∃ q e, k.mem.pt.entries q = some e ∧ e.frame = f := by
  have hboot : Short { f | ¬ Eligible memoryMap f } ∅ k₁.mem := by
    unfold onMem zoom at hmain
    cases hrun : kernelMain cfg.walker cfg.initElf k₀.mem with
    | error e m => simp [hrun] at hmain
    | ok u m =>
        simp only [hrun, EStateM.Result.ok.injEq, true_and] at hmain
        rw [← hmain]
        exact kernelMain_short (hmem ▸ memInit_accounted memoryMap) hrun
  have hlost : Lost { f | ¬ Eligible memoryMap f } 1 (boot staleTop boxedTop k₁).mem :=
    hboot.lost (Nat.le_of_eq Finset.card_empty)
  obtain ⟨L, hcard, hL⟩ := run_lost (boot_ready staleTop boxedTop k₁) hlost hrun
  refine ⟨L, hcard.trans (Nat.add_comm 1 n).le, fun f heligible hused => ?_⟩
  by_contra hnot
  push Not at hnot
  obtain ⟨hnotL, htable, hmapped⟩ := hnot
  rcases hL.strays f ⟨hused, hmapped, htable⟩ with hS | hmem
  · exact hS heligible
  · exact hnotL hmem

/-- `mmap(0x410000, 1, PROT_READ | PROT_WRITE)`. -/
def fixedTrap : Trap := trapWith
  (fun | .rax => 9 | .rdi => 0x410000 | .rsi => 1 | .rdx => 3 | .rsp => 0x401FF8
       | .rcx => 0x400078 | .r11 => 0x202 | _ => 0) []

theorem started_main : onMem (kernelMain machine.walker machine.initElf)
    (statics (memInit [⟨1, 128, .usable⟩])) = .ok () (statics
      (final (kernelMain flatWalker spinElf (memInit [⟨1, 128, .usable⟩])))) := by
  have hok : (returned (kernelMain flatWalker spinElf (memInit [⟨1, 128, .usable⟩]))).map
      (fun _ => ()) = some () := by decide +kernel
  obtain ⟨_, m, hmain, -⟩ := ok_of_returned hok
  have hmem : (statics (memInit [⟨1, 128, .usable⟩])).mem = memInit [⟨1, 128, .usable⟩] := rfl
  rw [onMem, zoom, hmem]
  simp only [machine, hmain]
  rfl

/-- The second request for the same page fails after it has taken a frame. -/
theorem lost_frames_bounded_twice : ∃ tr k, ∃ L : Finset ℕ,
    replay (observed (step machine) countFailed) [.syscall fixedTrap, .syscall fixedTrap]
      (started, 0) = some (tr, k, 1) ∧ L.card ≤ 2 ∧
    ∀ f, Eligible [⟨1, 128, .usable⟩] f → used k.mem.fa f = true →
      f ∈ L ∨ (∃ t ∈ k.mem.pt.tables, t.2 = f) ∨
        ∃ q e, k.mem.pt.entries q = some e ∧ e.frame = f := by
  have hcount : (replay (observed (step machine) countFailed)
      [.syscall fixedTrap, .syscall fixedTrap] (started, 0)).map (fun x => x.2.2) = some 1 := by
    decide +kernel
  obtain ⟨⟨tr, k, n⟩, hreplay, hn⟩ := Option.map_eq_some_iff.mp hcount
  obtain rfl : n = 1 := hn
  have hrun := Run.of_replay hreplay
  rw [started] at hrun
  obtain ⟨L, hcard, hL⟩ := lost_frames_bounded machine [⟨1, 128, .usable⟩] 0x10000204000
    0x444444448000 (statics (memInit [⟨1, 128, .usable⟩])) _ k tr 1 rfl started_main hrun
  exact ⟨tr, k, L, hreplay, hcard, hL⟩

end Rockos.FrameLedger
