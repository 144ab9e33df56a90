import Rockos.PhysMemory

/-!
# The frame allocator as a set of free frames

`allocate_frame_inner` edits its bytes in place and names frames by address. It
is written out that way here and then related to an abstract allocator whose
state is the finite set of free frame numbers. The counter `FREE_COUNT` is
followed along runs in which callers may free anything at any time.
-/
namespace Rockos.FreeSet
open ByteBitmap Runs PhysMemory

/-! ## Editing the bytes in place -/

/-- A frame of physical memory, named by the address where it starts. -/
structure PhysFrame where
  startAddress : ℕ
  aligned : pageSize ∣ startAddress

def PhysFrame.containingAddress (addr : ℕ) : PhysFrame :=
  ⟨addr / pageSize * pageSize, Dvd.intro_left _ rfl⟩

def PhysFrame.index (frame : PhysFrame) : ℕ := frame.startAddress / pageSize

/-- The loop of `allocate_frame_inner` from byte `i` on. -/
def scanBytes : (i count : ℕ) → BitmapFrameAllocator → Option PhysFrame × BitmapFrameAllocator
  | _, 0, fa => (none, fa)
  | i, count + 1, fa =>
      let byte := byteAt fa.bitmap i
      if byte = 0xFF then scanBytes (i + 1) count fa else
        let bit := trailingZeros (~~~byte)
        if bit ≥ 8 then scanBytes (i + 1) count fa else
          let mask : UInt8 := 1 <<< UInt8.ofNat bit
          let marked := fa.bitmap.setIfInBounds i (byte ||| mask)
          let frameIdx := i * 8 + bit
          if frameIdx ≥ frameBitmapBits then
            scanBytes (i + 1) count { fa with
              bitmap := marked.setIfInBounds i ((byte ||| mask) &&& ~~~mask) }
          else
            (some (.containingAddress (frameIdx * pageSize)),
              { fa with bitmap := marked, freeCount := fa.freeCount - 1 })

def allocateFrameInner (fa : BitmapFrameAllocator) : Option PhysFrame × BitmapFrameAllocator :=
  scanBytes 0 bitmapBytes fa

def deallocateFrameInner (fa : BitmapFrameAllocator) (frame : PhysFrame) : BitmapFrameAllocator :=
  deallocateFrame fa frame.index

theorem index_containingAddress (f : ℕ) :
    (PhysFrame.containingAddress (f * pageSize)).index = f := by
  have hpos : 0 < pageSize := by decide
  simp [PhysFrame.index, PhysFrame.containingAddress, Nat.mul_div_cancel _ hpos]

theorem startAddress_eq (frame : PhysFrame) : frame.startAddress = frame.index * pageSize :=
  (Nat.div_mul_cancel frame.aligned).symm

/-- The in-place loop finds what the pure scan finds, and leaves the bytes alone
when there is nothing to find. -/
theorem scanBytes_eq (fa : BitmapFrameAllocator) (i count : ℕ) (hcount : i + count = bitmapBytes) :
    scanBytes i count fa = (allocateScan fa i count).elim (none, fa)
      fun r => (some (.containingAddress (r.1 * pageSize)), r.2) := by
  induction count generalizing i with
  | zero => rfl
  | succ count ih =>
      have hrest := ih (i + 1) (by omega)
      simp only [scanBytes, allocateScan]
      split_ifs with hfull hbit hidx
      · exact hrest
      · exact hrest
      · -- byte and bit are in range, so the frame index is too
        simp only [frameBitmapBits] at hidx
        omega
      · have hdiv : (i * 8 + trailingZeros (~~~byteAt fa.bitmap i)) / 8 = i := by omega
        have hmod : (i * 8 + trailingZeros (~~~byteAt fa.bitmap i)) % 8 =
            trailingZeros (~~~byteAt fa.bitmap i) := by omega
        simp only [Option.elim_some, setBit, mask, hdiv, hmod]

theorem allocateFrameInner_eq (fa : BitmapFrameAllocator) :
    allocateFrameInner fa = (allocateFrame fa).elim (none, fa)
      fun r => (some (.containingAddress (r.1 * pageSize)), r.2) :=
  scanBytes_eq fa 0 bitmapBytes (Nat.zero_add _)

/-! ## The abstract allocator -/

/-- The frames that are free after start-up. -/
def eligibleFrames (map : List MemoryRegion) : Finset ℕ :=
  (Finset.range frameBitmapBits).filter fun i =>
    (∃ r ∈ map, r.Offers i) ∧ i ≠ 0 ∧ i ∉ Finset.Ico 0xA0 0xC0

def takeLeast (free : Finset ℕ) : Option ℕ × Finset ℕ :=
  if h : free.Nonempty then (some (free.min' h), free.erase (free.min' h)) else (none, free)

def giveBack (free : Finset ℕ) (i : ℕ) : Finset ℕ :=
  if 0 < i ∧ i < frameBitmapBits then insert i free else free

theorem freeFrames_new (map : List MemoryRegion) :
    freeFrames (.new map) = eligibleFrames map := by
  ext i
  simp only [freeFrames, eligibleFrames, Finset.mem_filter, Finset.mem_range, Finset.mem_Ico]
  apply and_congr_right
  intro hi
  have hvideo : isaVideoLo ≤ i * pageSize ∧ i * pageSize < isaVideoHi ↔ 0xA0 ≤ i ∧ i < 0xC0 := by
    simp only [isaVideoLo, isaVideoHi, pageSize]
    omega
  have hbit : used (.new map) i = false ↔ Eligible map i := by
    simp [used, hi, ← new_testBit map hi]
  rw [hbit, ← hvideo]
  exact ⟨fun h => ⟨h.offered, h.ne_zero, h.not_video⟩, fun h => ⟨hi, h.1, h.2.1, h.2.2⟩⟩

/-- First fit takes the least free frame. -/
theorem isLeast_allocate {fa fa' : BitmapFrameAllocator} {f : ℕ}
    (h : allocateFrame fa = some (f, fa')) : IsLeast (freeFrames fa : Set ℕ) f := by
  have hleast := (allocateFrame_some h).1
  constructor
  · exact mem_freeFrames.mpr (allocateFrame_unused h)
  · intro g hg
    have hfree : used fa g = false := mem_freeFrames.mp hg
    simp only [used, Bool.or_eq_false_iff] at hfree
    by_contra hlt
    rw [hleast.least g (Nat.lt_of_not_le hlt)] at hfree
    cases hfree.2

theorem deallocateFrame_of_not_proper (fa : BitmapFrameAllocator) {f : ℕ}
    (h : ¬ (0 < f ∧ f < frameBitmapBits)) : deallocateFrame fa f = fa := by
  have hout : f ≥ frameBitmapBits ∨ f = 0 := by omega
  rw [deallocateFrame, if_pos hout]

/-- Either the least free frame is taken, or none is left and nothing changes. -/
theorem allocateFrameInner_cases (fa : BitmapFrameAllocator) :
    (∃ frame fa', allocateFrameInner fa = (some frame, fa') ∧
      IsLeast (freeFrames fa : Set ℕ) frame.index ∧
      freeFrames fa' = (freeFrames fa).erase frame.index) ∨
    (allocateFrameInner fa = (none, fa) ∧ freeFrames fa = ∅) := by
  rw [allocateFrameInner_eq]
  cases h : allocateFrame fa with
  | none =>
      have hcount := allocateFrame_eq_none.mp h
      rw [countFree_eq_card] at hcount
      exact .inr ⟨rfl, Finset.card_eq_zero.mp hcount⟩
  | some r =>
      refine .inl ⟨_, r.2, rfl, ?_, ?_⟩
      · rw [index_containingAddress]
        exact isLeast_allocate h
      · rw [index_containingAddress]
        exact freeFrames_allocate h

/-- The bitmap is the set of its clear bits: start-up leaves exactly the covered
frames outside frame 0 and the video window free, however the regions are listed;
allocation takes the least free frame or, when there is none, changes nothing; and
release adds a proper frame and ignores every other. -/
theorem bitmap_refines_free_set :
    (∀ map, freeFrames (.new map) = eligibleFrames map) ∧
    (∀ map map' : List MemoryRegion,
      (∀ i, (∃ r ∈ map, r.Offers i) ↔ ∃ r ∈ map', r.Offers i) →
      freeFrames (.new map) = freeFrames (.new map')) ∧
    (∀ fa, (∃ frame fa', allocateFrameInner fa = (some frame, fa') ∧
        IsLeast (freeFrames fa : Set ℕ) frame.index ∧
        frame.startAddress = frame.index * 4096 ∧
        freeFrames fa' = (freeFrames fa).erase frame.index) ∨
      (allocateFrameInner fa = (none, fa) ∧ freeFrames fa = ∅)) ∧
    ∀ fa frame,
      (0 < frame.index ∧ frame.index < frameBitmapBits →
        freeFrames (deallocateFrameInner fa frame) = insert frame.index (freeFrames fa)) ∧
      (¬ (0 < frame.index ∧ frame.index < frameBitmapBits) →
        deallocateFrameInner fa frame = fa) := by
  refine ⟨freeFrames_new, ?_, ?_, ?_⟩
  · intro map map' hcover
    simp only [freeFrames_new, eligibleFrames, hcover]
  · intro fa
    cases allocateFrameInner_cases fa with
    | inl h =>
        obtain ⟨frame, fa', heq, hleast, hfree⟩ := h
        exact .inl ⟨frame, fa', heq, hleast, startAddress_eq frame, hfree⟩
    | inr h => exact .inr h
  · intro fa frame
    constructor
    · intro hrange
      exact freeFrames_deallocate fa (by omega) hrange.2
    · intro hrange
      exact deallocateFrame_of_not_proper fa hrange

/-! ## Whole runs -/

inductive AllocatorOp where
  | allocate
  | deallocate (frame : PhysFrame)

/-- Any frame may be passed back, also one that was never handed out. -/
def frameStep :
    AllocatorOp → BitmapFrameAllocator → Option (Option PhysFrame × BitmapFrameAllocator)
  | .allocate, fa => some (allocateFrameInner fa)
  | .deallocate frame, fa => some (none, deallocateFrameInner fa frame)

def setStep : AllocatorOp → Finset ℕ → Option (Option ℕ × Finset ℕ)
  | .allocate, free => some (takeLeast free)
  | .deallocate frame, free => some (none, giveBack free frame.index)

theorem frameStep_refines {op : AllocatorOp} {fa fa' : BitmapFrameAllocator} {o : Option PhysFrame}
    (h : frameStep op fa = some (o, fa')) :
    setStep op (freeFrames fa) = some (o.map PhysFrame.index, freeFrames fa') := by
  cases op with
  | allocate =>
      simp only [frameStep, Option.some.injEq] at h
      cases allocateFrameInner_cases fa with
      | inl hsome =>
          obtain ⟨frame, fa₁, heq, hleast, hfree⟩ := hsome
          have hmem : frame.index ∈ freeFrames fa := hleast.1
          have hmin : (freeFrames fa).min' ⟨_, hmem⟩ = frame.index :=
            (Finset.isLeast_min' _ _).unique hleast
          rw [h] at heq
          cases heq
          rw [setStep, takeLeast, dif_pos ⟨_, hmem⟩, hmin, hfree]
          rfl
      | inr hnone =>
          obtain ⟨heq, hempty⟩ := hnone
          rw [h] at heq
          cases heq
          rw [setStep, takeLeast, hempty]
          rfl
  | deallocate frame =>
      simp only [frameStep, Option.some.injEq, Prod.mk.injEq] at h
      obtain ⟨rfl, rfl⟩ := h
      rw [setStep, giveBack]
      split_ifs with hrange
      · rw [deallocateFrameInner, freeFrames_deallocate fa (by omega) hrange.2]
        rfl
      · rw [deallocateFrameInner, deallocateFrame_of_not_proper fa hrange]
        rfl

/-- Every run of the allocator is a run of the set, with the same answers. -/
theorem run_refines {fa fa' : BitmapFrameAllocator} {tr : List (AllocatorOp × Option PhysFrame)}
    (h : Run frameStep fa tr fa') :
    Run setStep (freeFrames fa) (tr.map fun x => (x.1, x.2.map PhysFrame.index))
      (freeFrames fa') := by
  induction h with
  | done fa => exact .done _
  | step hstep _ ih => exact .step (frameStep_refines hstep) ih

/-! ## The counter of free frames -/

def CountExact (fa : BitmapFrameAllocator) : Prop := fa.freeCount.toNat = countFree fa.bitmap

theorem countFree_le (bm : Vector UInt8 bitmapBytes) : countFree bm ≤ frameBitmapBits := by
  rw [countFree]
  refine List.countP_le_length.trans ?_
  rw [List.length_range]

theorem bits_lt : frameBitmapBits < 2 ^ 64 := by decide

theorem new_countExact (map : List MemoryRegion) : CountExact (.new map) := by
  have hle := countFree_le (BitmapFrameAllocator.new map).bitmap
  exact UInt64.toNat_ofNat_of_lt' (hle.trans_lt bits_lt)

/-- The counter is not zero when a frame is handed out, so it does not wrap. -/
theorem CountExact.allocate {fa fa' : BitmapFrameAllocator} {f : ℕ} (h : CountExact fa)
    (hf : allocateFrame fa = some (f, fa')) :
    fa'.freeCount.toNat + 1 = fa.freeCount.toNat ∧ CountExact fa' := by
  have hcount := allocateFrame_countFree hf
  have hfield : fa'.freeCount = fa.freeCount - 1 := by rw [(allocateFrame_some hf).2]
  have hone : (1 : UInt64) ≤ fa.freeCount := by
    rw [UInt64.le_iff_toNat_le, h]
    change 1 ≤ _
    omega
  have hsub : fa'.freeCount.toNat = fa.freeCount.toNat - 1 := by
    rw [hfield, UInt64.toNat_sub_of_le _ _ hone]
    rfl
  unfold CountExact at h ⊢
  omega

/-- A release that changes a bit changes the counter, and no other does. -/
theorem CountExact.deallocate {fa : BitmapFrameAllocator} (h : CountExact fa) (f : ℕ) :
    CountExact (deallocateFrame fa f) := by
  unfold CountExact at h ⊢
  by_cases hout : f ≥ frameBitmapBits ∨ f = 0
  · rwa [deallocateFrame, if_pos hout]
  cases hbit : testBit fa.bitmap f with
  | false => rwa [deallocateFrame, if_neg hout, if_pos hbit]
  | true =>
      have hcount : countFree (deallocateFrame fa f).bitmap = countFree fa.bitmap + 1 :=
        deallocateFrame_countFree (by simp [used, hbit]) (by omega) (by omega)
      have hfield : (deallocateFrame fa f).freeCount = fa.freeCount + 1 := by
        rw [deallocateFrame, if_neg hout, if_neg (by simp [hbit])]
      have hle := countFree_le (deallocateFrame fa f).bitmap
      have hlt := bits_lt
      rw [hfield, UInt64.toNat_add, h, hcount]
      exact Nat.mod_eq_of_lt (show countFree fa.bitmap + 1 < 2 ^ 64 by omega)

theorem frameStep_countExact (op : AllocatorOp) (fa : BitmapFrameAllocator) (o : Option PhysFrame)
    (fa' : BitmapFrameAllocator) (hstep : frameStep op fa = some (o, fa')) (h : CountExact fa) :
    CountExact fa' := by
  cases op with
  | allocate =>
      simp only [frameStep, Option.some.injEq, allocateFrameInner_eq] at hstep
      cases hf : allocateFrame fa with
      | none =>
          rw [hf] at hstep
          cases hstep
          exact h
      | some r =>
          rw [hf] at hstep
          cases hstep
          exact (h.allocate hf).2
  | deallocate frame =>
      simp only [frameStep, Option.some.injEq, Prod.mk.injEq] at hstep
      rw [← hstep.2]
      exact h.deallocate frame.index

/-! ## Free and held frames together -/

theorem countFree_markFree (bm : Vector UInt8 bitmapBytes) (i : ℕ) :
    countFree (markFree bm i) ≤ countFree bm + 1 := by
  by_cases hi : i < frameBitmapBits
  · have hsub : freeFrames ⟨markFree bm i, 0, 0⟩ ⊆ insert i (freeFrames ⟨bm, 0, 0⟩) := by
      intro g hg
      rw [mem_freeFrames] at hg
      simp only [used, testBit_markFree bm hi, Bool.or_eq_false_iff, Bool.and_eq_false_iff] at hg
      rw [Finset.mem_insert, mem_freeFrames]
      by_cases hgi : g = i
      · exact .inl hgi
      · exact .inr (by simpa [used, hgi] using hg)
    have hcard := (Finset.card_le_card hsub).trans (Finset.card_insert_le _ _)
    rwa [← countFree_eq_card, ← countFree_eq_card] at hcard
  · rw [markFree, if_pos (by omega)]
    exact Nat.le_succ _

theorem countFree_markUsed (bm : Vector UInt8 bitmapBytes) (i : ℕ) :
    countFree (markUsed bm i) ≤ countFree bm := by
  by_cases hi : i < frameBitmapBits
  · refine List.countP_mono_left ?_
    intro g _ hg
    simp only [testBit_markUsed bm hi, Bool.not_eq_true', Bool.or_eq_false_iff] at hg
    rw [hg.1]
    rfl
  · rw [markUsed, if_pos (by omega)]

/-- The running total counts every visit, so it bounds the clear bits. -/
theorem freeFrames_total (idxs : List ℕ) {acc : Vector UInt8 bitmapBytes × ℕ}
    (h : countFree acc.1 ≤ acc.2) :
    countFree (idxs.foldl freeFrame acc).1 ≤ (idxs.foldl freeFrame acc).2 := by
  induction idxs generalizing acc with
  | nil => exact h
  | cons i idxs ih =>
      rw [List.foldl_cons]
      apply ih
      unfold freeFrame
      split_ifs with hi
      · exact h
      · exact (countFree_markFree acc.1 i).trans (Nat.succ_le_succ h)

theorem freeRegions_total (map : List MemoryRegion) {acc : Vector UInt8 bitmapBytes × ℕ}
    (h : countFree acc.1 ≤ acc.2) :
    countFree (map.foldl freeRegion acc).1 ≤ (map.foldl freeRegion acc).2 := by
  induction map generalizing acc with
  | nil => exact h
  | cons r map ih =>
      rw [List.foldl_cons]
      apply ih
      unfold freeRegion
      split_ifs with hr
      · exact h
      · exact freeFrames_total _ h

theorem markUsed_total (idxs : List ℕ) (bm : Vector UInt8 bitmapBytes) :
    countFree (idxs.foldl markUsed bm) ≤ countFree bm := by
  induction idxs generalizing bm with
  | nil => exact le_rfl
  | cons i idxs ih => exact (ih _).trans (countFree_markUsed bm i)

theorem countFree_full : countFree (Vector.replicate bitmapBytes 0xFF) = 0 := by
  rw [countFree, List.countP_eq_zero]
  intro i hi
  have hlt : i < 8 * bitmapBytes := by
    rw [← bits_eq]
    exact List.mem_range.mp hi
  simp [testBit_replicate_full hlt]

theorem countFree_new_le (map : List MemoryRegion) :
    countFree (BitmapFrameAllocator.new map).bitmap ≤ (BitmapFrameAllocator.new map).totalUsable :=
  calc countFree (BitmapFrameAllocator.new map).bitmap
      ≤ countFree (markUsed (map.foldl freeRegion (Vector.replicate bitmapBytes 0xFF, 0)).1 0) :=
        markUsed_total _ _
    _ ≤ countFree (map.foldl freeRegion (Vector.replicate bitmapBytes 0xFF, 0)).1 :=
        countFree_markUsed _ _
    _ ≤ (BitmapFrameAllocator.new map).totalUsable :=
        freeRegions_total map (Nat.le_of_eq countFree_full)

/-- Frames only move between the free set and the callers. -/
structure Balanced (map : List MemoryRegion) (s : Custody) : Prop where
  sound : s.Sound map
  exact : CountExact s.fa
  sum : s.fa.freeCount.toNat + s.held.length = (BitmapFrameAllocator.new map).freeCount.toNat
  total : s.fa.totalUsable = (BitmapFrameAllocator.new map).totalUsable

theorem start_balanced (map : List MemoryRegion) : Balanced map (.start map) where
  sound := Custody.start_sound map
  exact := new_countExact map
  sum := Nat.add_zero _
  total := rfl

theorem Balanced.allocate {map : List MemoryRegion} {s : Custody} (h : Balanced map s) {f : ℕ}
    {fa : BitmapFrameAllocator} (hf : allocateFrame s.fa = some (f, fa)) :
    Balanced map ⟨fa, f :: s.held⟩ := by
  have hcount := h.exact.allocate hf
  have hsum := h.sum
  refine ⟨(h.sound.allocate hf).2.2, hcount.2, ?_, ?_⟩
  · simp only [List.length_cons]
    omega
  · rw [← h.total, (allocateFrame_some hf).2]

theorem Balanced.deallocate {map : List MemoryRegion} {s : Custody} (h : Balanced map s) {f : ℕ}
    (hf : f ∈ s.held) : Balanced map ⟨deallocateFrame s.fa f, s.held.erase f⟩ := by
  have hel := h.sound.eligible f hf
  have hbit := h.sound.used f hf
  have hused : used s.fa f = true := by simp [used, hbit]
  have hcount := deallocateFrame_countFree hused hel.ne_zero hel.lt
  have hexact := h.exact.deallocate f
  have hold := h.exact
  have hlen := List.length_pos_of_mem hf
  have hsum := h.sum
  unfold CountExact at hexact hold
  refine ⟨h.sound.deallocate hf, h.exact.deallocate f, ?_, ?_⟩
  · simp only [List.length_erase_of_mem hf]
    omega
  · rw [← h.total, deallocateFrame, if_neg (by have := hel.lt; have := hel.ne_zero; omega),
      if_neg (by simp [hbit])]

theorem custodyStep_balanced {map : List MemoryRegion} (op : AllocOp) (s : Custody)
    (o : Option ℕ) (t : Custody) (hstep : custodyStep op s = some (o, t)) (h : Balanced map s) :
    Balanced map t := by
  cases op with
  | allocate =>
      simp only [custodyStep] at hstep
      cases hf : allocateFrame s.fa with
      | none =>
          rw [hf] at hstep
          cases hstep
          exact h
      | some r =>
          rw [hf] at hstep
          cases hstep
          exact h.allocate hf
  | deallocate f =>
      simp only [custodyStep] at hstep
      split_ifs at hstep with hf
      cases hstep
      exact h.deallocate hf

/-- `FREE_COUNT` is the number of clear bits in every state of every run, also
with double frees and frames that were never handed out, and it is positive
whenever it is decremented. As long as only held frames are freed, free and held
frames together are as many as at the start, and no more than `TOTAL_USABLE`. -/
theorem free_count_exact (map : List MemoryRegion) :
    (∀ tr fa, Run frameStep (.new map) tr fa →
      fa.freeCount.toNat = countFree fa.bitmap ∧
      ∀ frame fa', allocateFrameInner fa = (some frame, fa') →
        0 < fa.freeCount.toNat ∧ fa'.freeCount.toNat = fa.freeCount.toNat - 1) ∧
    (∀ tr s, Run custodyStep (.start map) tr s →
      s.fa.freeCount.toNat + s.held.length = (BitmapFrameAllocator.new map).freeCount.toNat ∧
      s.fa.freeCount.toNat + s.held.length ≤ s.fa.totalUsable) := by
  constructor
  · intro tr fa hrun
    have hexact : CountExact fa := hrun.invariant frameStep_countExact (new_countExact map)
    refine ⟨hexact, ?_⟩
    intro frame fa' hsome
    rw [allocateFrameInner_eq] at hsome
    cases hf : allocateFrame fa with
    | none =>
        rw [hf] at hsome
        cases hsome
    | some r =>
        rw [hf] at hsome
        cases hsome
        have hcount := (hexact.allocate hf).1
        omega
  · intro tr s hrun
    have hbalanced : Balanced map s := hrun.invariant custodyStep_balanced (start_balanced map)
    refine ⟨hbalanced.sum, ?_⟩
    rw [hbalanced.sum, hbalanced.total, new_countExact map]
    exact countFree_new_le map

end Rockos.FreeSet
