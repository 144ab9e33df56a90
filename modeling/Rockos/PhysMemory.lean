import Rockos.ByteBitmap
import Rockos.Runs

/-!
# The physical frame allocator (memory.rs)

Frames are named by their number, `start_address / 4096`. The allocator owns
8192 bytes of bitmap, one bit per frame, with a set bit for a used frame; the
two counters beside it are the statics `FREE_COUNT` and `TOTAL_USABLE`.

The specification of every operation is stated on the set of clear bits. The
last section follows the frames that callers hold along a run and proves that
no frame is handed out twice and that only eligible frames are handed out.
-/
namespace Rockos.PhysMemory
open ByteBitmap Runs

/-- `Size4KiB::SIZE`. -/
def pageSize : ℕ := 4096

def bitmapBytes : ℕ := 8192

def frameBitmapBits : ℕ := bitmapBytes * 8

/-- The allocator distinguishes `Usable` from every other region type only. -/
inductive MemoryRegionType where
  | usable | unusable
  deriving DecidableEq, Repr

/-- Half-open range of frame numbers. -/
structure MemoryRegion where
  startFrame : ℕ
  endFrame : ℕ
  regionType : MemoryRegionType
  deriving DecidableEq, Repr

structure BitmapFrameAllocator where
  bitmap : Vector UInt8 bitmapBytes
  freeCount : UInt64
  totalUsable : ℕ

def markFree (bitmap : Vector UInt8 bitmapBytes) (idx : ℕ) : Vector UInt8 bitmapBytes :=
  if idx ≥ frameBitmapBits then bitmap else clearBit bitmap idx

def markUsed (bitmap : Vector UInt8 bitmapBytes) (idx : ℕ) : Vector UInt8 bitmapBytes :=
  if idx ≥ frameBitmapBits then bitmap else setBit bitmap idx

def countFree (bitmap : Vector UInt8 bitmapBytes) : ℕ :=
  (List.range frameBitmapBits).countP (fun idx => !testBit bitmap idx)

/-- One iteration of the frame loop: bitmap and running total. -/
def freeFrame (acc : Vector UInt8 bitmapBytes × ℕ) (idx : ℕ) : Vector UInt8 bitmapBytes × ℕ :=
  if idx ≥ frameBitmapBits then acc else (markFree acc.1 idx, acc.2 + 1)

def freeRegion (acc : Vector UInt8 bitmapBytes × ℕ) (region : MemoryRegion) :
    Vector UInt8 bitmapBytes × ℕ :=
  if region.regionType ≠ .usable then acc else
    (List.range' region.startFrame (region.endFrame - region.startFrame)).foldl freeFrame acc

def isaVideoLo : ℕ := 0xA0000

def isaVideoHi : ℕ := 0xC0000

def vgaFirst : ℕ := isaVideoLo / pageSize

def vgaEnd : ℕ := isaVideoHi / pageSize

/-- `BitmapFrameAllocator::new`: free the usable regions, then take frame 0 and
the legacy video window back. -/
def BitmapFrameAllocator.new (memoryMap : List MemoryRegion) : BitmapFrameAllocator :=
  let acc := memoryMap.foldl freeRegion (Vector.replicate bitmapBytes 0xFF, 0)
  let bitmap := markUsed acc.1 0
  let bitmap := (List.range' vgaFirst (vgaEnd - vgaFirst)).foldl markUsed bitmap
  ⟨bitmap, UInt64.ofNat (countFree bitmap), acc.2⟩

/-- The byte loop of `allocate_frame_inner` from byte `i` on. A frame index past
the bitmap is set and cleared again by the source, so it is skipped here. -/
def allocateScan (fa : BitmapFrameAllocator) : (i count : ℕ) → Option (ℕ × BitmapFrameAllocator)
  | _, 0 => none
  | i, count + 1 =>
      let byte := byteAt fa.bitmap i
      if byte = 0xFF then allocateScan fa (i + 1) count else
        let bit := trailingZeros (~~~byte)
        if bit ≥ 8 then allocateScan fa (i + 1) count else
          let frameIdx := i * 8 + bit
          if frameIdx ≥ frameBitmapBits then allocateScan fa (i + 1) count else
            some (frameIdx, { fa with
              bitmap := setBit fa.bitmap frameIdx, freeCount := fa.freeCount - 1 })

def allocateFrame (fa : BitmapFrameAllocator) : Option (ℕ × BitmapFrameAllocator) :=
  allocateScan fa 0 bitmapBytes

def deallocateFrame (fa : BitmapFrameAllocator) (idx : ℕ) : BitmapFrameAllocator :=
  if idx ≥ frameBitmapBits ∨ idx = 0 then fa else
    if testBit fa.bitmap idx = false then fa else
      { fa with bitmap := clearBit fa.bitmap idx, freeCount := fa.freeCount + 1 }

/-- The bit of a frame: `true` is used. Frames past the bitmap count as used,
since no operation ever returns one. -/
def used (fa : BitmapFrameAllocator) (f : ℕ) : Bool :=
  decide (frameBitmapBits ≤ f) || testBit fa.bitmap f

/-! ## Initialisation -/

theorem bits_eq : frameBitmapBits = 8 * bitmapBytes := Nat.mul_comm _ _

theorem testBit_markFree (bm : Vector UInt8 bitmapBytes) {i : ℕ} (hi : i < frameBitmapBits)
    (j : ℕ) : testBit (markFree bm i) j = (testBit bm j && decide (j ≠ i)) := by
  rw [markFree, if_neg (by omega)]
  exact testBit_clearBit bm (by rwa [← bits_eq]) j

theorem testBit_markUsed (bm : Vector UInt8 bitmapBytes) {i : ℕ} (hi : i < frameBitmapBits)
    (j : ℕ) : testBit (markUsed bm i) j = (testBit bm j || decide (j = i)) := by
  rw [markUsed, if_neg (by omega)]
  exact testBit_setBit bm (by rwa [← bits_eq]) j

theorem freeFrame_testBit (acc : Vector UInt8 bitmapBytes × ℕ) (i : ℕ) {j : ℕ}
    (hj : j < frameBitmapBits) :
    testBit (freeFrame acc i).1 j = (testBit acc.1 j && decide (j ≠ i)) := by
  unfold freeFrame
  split_ifs with h
  · have hne : j ≠ i := by omega
    simp [hne]
  · exact testBit_markFree acc.1 (by omega) j

theorem freeFrames_testBit (idxs : List ℕ) (acc : Vector UInt8 bitmapBytes × ℕ) {j : ℕ}
    (hj : j < frameBitmapBits) :
    testBit (idxs.foldl freeFrame acc).1 j = (testBit acc.1 j && decide (j ∉ idxs)) := by
  induction idxs generalizing acc with
  | nil => simp
  | cons i idxs ih =>
      rw [List.foldl_cons, ih, freeFrame_testBit acc i hj]
      by_cases h : j = i <;> simp [h]

/-- A region contributes frame `i`. -/
def MemoryRegion.Offers (r : MemoryRegion) (i : ℕ) : Prop :=
  r.regionType = .usable ∧ r.startFrame ≤ i ∧ i < r.endFrame

instance (r : MemoryRegion) (i : ℕ) : Decidable (r.Offers i) :=
  inferInstanceAs (Decidable (_ ∧ _ ∧ _))

theorem freeRegion_testBit (acc : Vector UInt8 bitmapBytes × ℕ) (r : MemoryRegion) {j : ℕ}
    (hj : j < frameBitmapBits) :
    testBit (freeRegion acc r).1 j = (testBit acc.1 j && decide (¬ r.Offers j)) := by
  unfold freeRegion
  split_ifs with h
  · simp [MemoryRegion.Offers, h]
  · rw [freeFrames_testBit _ _ hj]
    have hu : r.regionType = .usable := not_not.mp h
    have hmem : j ∈ List.range' r.startFrame (r.endFrame - r.startFrame) ↔ r.Offers j := by
      simp only [List.mem_range'_1, MemoryRegion.Offers, hu, true_and]
      omega
    simp only [hmem]

theorem freeRegions_testBit (map : List MemoryRegion) (acc : Vector UInt8 bitmapBytes × ℕ)
    {j : ℕ} (hj : j < frameBitmapBits) :
    testBit (map.foldl freeRegion acc).1 j =
      (testBit acc.1 j && decide (∀ r ∈ map, ¬ r.Offers j)) := by
  induction map generalizing acc with
  | nil => simp
  | cons r map ih =>
      rw [List.foldl_cons, ih, freeRegion_testBit acc r hj]
      by_cases h : r.Offers j <;> simp [h]

theorem markUsed_foldl_testBit (idxs : List ℕ) (bm : Vector UInt8 bitmapBytes)
    (hidxs : ∀ i ∈ idxs, i < frameBitmapBits) (j : ℕ) :
    testBit (idxs.foldl markUsed bm) j = (testBit bm j || decide (j ∈ idxs)) := by
  induction idxs generalizing bm with
  | nil => simp
  | cons i idxs ih =>
      have hi : i < frameBitmapBits := hidxs i (by simp)
      rw [List.foldl_cons, ih _ (fun k hk => hidxs k (by simp [hk])), testBit_markUsed bm hi j]
      simp only [List.mem_cons, Bool.or_assoc]
      by_cases h : j = i <;> simp [h]

/-- The frames the allocator may ever hand out. -/
structure Eligible (map : List MemoryRegion) (i : ℕ) : Prop where
  lt : i < frameBitmapBits
  offered : ∃ r ∈ map, r.Offers i
  ne_zero : i ≠ 0
  not_video : ¬ (isaVideoLo ≤ i * pageSize ∧ i * pageSize < isaVideoHi)

/-- A freshly built bitmap has a clear bit exactly at the eligible frames,
whatever the order and overlap of the regions. -/
theorem new_testBit (map : List MemoryRegion) {i : ℕ} (hi : i < frameBitmapBits) :
    testBit (BitmapFrameAllocator.new map).bitmap i = false ↔ Eligible map i := by
  have hvga : ∀ k ∈ List.range' vgaFirst (vgaEnd - vgaFirst), k < frameBitmapBits := by
    intro k hk
    simp only [List.mem_range'_1, vgaFirst, vgaEnd, isaVideoLo, isaVideoHi, pageSize] at hk
    simp only [frameBitmapBits, bitmapBytes]
    omega
  have hfull : testBit (Vector.replicate bitmapBytes (0xFF : UInt8)) i = true :=
    testBit_replicate_full (by rwa [← bits_eq])
  have hwindow : i ∈ List.range' vgaFirst (vgaEnd - vgaFirst) ↔
      isaVideoLo ≤ i * pageSize ∧ i * pageSize < isaVideoHi := by
    simp only [List.mem_range'_1, vgaFirst, vgaEnd, isaVideoLo, isaVideoHi, pageSize]
    omega
  unfold BitmapFrameAllocator.new
  have hzero : 0 < frameBitmapBits := by decide
  simp only [markUsed_foldl_testBit _ _ hvga, testBit_markUsed _ hzero,
    freeRegions_testBit _ _ hi, hfull, Bool.true_and, Bool.or_eq_false_iff,
    decide_eq_false_iff_not, hwindow]
  constructor
  · intro h
    obtain ⟨⟨ho, hz⟩, hv⟩ := h
    push Not at ho
    exact ⟨hi, ho, hz, hv⟩
  · intro h
    obtain ⟨r, hr, ho⟩ := h.offered
    exact ⟨⟨fun hn => hn r hr ho, h.ne_zero⟩, h.not_video⟩

/-! ## Allocation and release -/

/-- The byte scan from byte `i` on, when all earlier bytes are full. -/
theorem allocateScan_spec (fa : BitmapFrameAllocator) (i count : ℕ)
    (hcount : i + count = bitmapBytes) (hfull : FullBelow fa.bitmap i) :
    match allocateScan fa i count with
    | none => FullBelow fa.bitmap bitmapBytes
    | some (f, fa') => LeastClear fa.bitmap f ∧
        fa' = { fa with bitmap := setBit fa.bitmap f, freeCount := fa.freeCount - 1 } := by
  induction count generalizing i with
  | zero =>
      rw [Nat.add_zero] at hcount
      subst hcount
      exact hfull
  | succ count ih =>
      simp only [allocateScan]
      split_ifs with hff hbit hidx
      · exact ih (i + 1) (by omega) (hfull.succ hff)
      · -- `trailing_zeros` of a nonzero byte is below eight
        exact absurd (trailingZeros_not hff).1 (by omega)
      · have hlt := (trailingZeros_not hff).1
        simp only [frameBitmapBits] at hidx
        omega
      · have hleast := hfull.leastClear (by omega) hff
        rw [Nat.mul_comm i 8]
        exact ⟨hleast, rfl⟩

theorem allocateFrame_some {fa fa' : BitmapFrameAllocator} {f : ℕ}
    (h : allocateFrame fa = some (f, fa')) : LeastClear fa.bitmap f ∧
      fa' = { fa with bitmap := setBit fa.bitmap f, freeCount := fa.freeCount - 1 } := by
  have hspec := allocateScan_spec fa 0 bitmapBytes (Nat.zero_add _) (fun l hl => by omega)
  rw [show allocateScan fa 0 bitmapBytes = some (f, fa') from h] at hspec
  exact hspec

theorem allocateFrame_none {fa : BitmapFrameAllocator} (h : allocateFrame fa = none) :
    ∀ i < frameBitmapBits, testBit fa.bitmap i = true := by
  have hspec := allocateScan_spec fa 0 bitmapBytes (Nat.zero_add _) (fun l hl => by omega)
  rw [show allocateScan fa 0 bitmapBytes = none from h] at hspec
  intro i hi
  exact hspec.testBit (by rwa [← bits_eq])

/-- First fit succeeds whenever some bit is clear. -/
theorem allocateFrame_of_clear {fa : BitmapFrameAllocator} {i : ℕ} (hi : i < frameBitmapBits)
    (hclear : testBit fa.bitmap i = false) : ∃ f fa', allocateFrame fa = some (f, fa') := by
  cases h : allocateFrame fa with
  | none => exact absurd (allocateFrame_none h i hi) (by simp [hclear])
  | some r => exact ⟨r.1, r.2, rfl⟩

/-- A bitmap of `0xFF` has no frame left. -/
theorem allocateFrame_of_full {fa : BitmapFrameAllocator}
    (hfull : fa.bitmap.toList.all (· == 0xFF) = true) : allocateFrame fa = none := by
  cases h : allocateFrame fa with
  | none => rfl
  | some r =>
      have hleast := (allocateFrame_some h).1
      have hbytes : FullBelow fa.bitmap bitmapBytes := by
        intro l hl
        have hmem : fa.bitmap[l] ∈ fa.bitmap.toList := by simp
        have hff := List.all_eq_true.mp hfull _ hmem
        simpa [byteAt, hl] using hff
      have hset := hbytes.testBit hleast.lt
      rw [hleast.clear] at hset
      cases hset

theorem allocateFrame_lt {fa fa' : BitmapFrameAllocator} {f : ℕ}
    (h : allocateFrame fa = some (f, fa')) : f < frameBitmapBits := by
  rw [bits_eq]
  exact (allocateFrame_some h).1.lt

theorem allocateFrame_unused {fa fa' : BitmapFrameAllocator} {f : ℕ}
    (h : allocateFrame fa = some (f, fa')) : used fa f = false := by
  simp [used, (allocateFrame_some h).1.clear, allocateFrame_lt h]

/-- Allocation sets the bit of the frame it returns and no other bit. -/
theorem allocateFrame_used {fa fa' : BitmapFrameAllocator} {f : ℕ}
    (h : allocateFrame fa = some (f, fa')) (g : ℕ) :
    used fa' g = (used fa g || decide (g = f)) := by
  obtain ⟨hleast, rfl⟩ := allocateFrame_some h
  simp only [used, testBit_setBit _ hleast.lt, Bool.or_assoc]

/-- Release clears the bit of a proper frame and no other bit. -/
theorem deallocateFrame_used (fa : BitmapFrameAllocator) (f g : ℕ) :
    used (deallocateFrame fa f) g =
      (used fa g && decide ¬(g = f ∧ f ≠ 0 ∧ f < frameBitmapBits)) := by
  unfold deallocateFrame
  split_ifs with hrange hclear
  · have hn : ¬(g = f ∧ f ≠ 0 ∧ f < frameBitmapBits) := by omega
    simp [hn]
  · by_cases h : g = f
    · subst h
      have hlt : g < frameBitmapBits := by omega
      simp [used, hclear, hlt]
    · simp [h]
  · have hf : f < frameBitmapBits := by omega
    simp only [used, testBit_clearBit _ (show f < 8 * bitmapBytes by rwa [← bits_eq])]
    by_cases h : g = f
    · subst h
      have hn : g ≠ 0 := by omega
      simp [hf, hn]
    · simp [h]

/-! ## Counting the free frames -/

/-- The frames that can still be handed out. -/
def freeFrames (fa : BitmapFrameAllocator) : Finset ℕ :=
  (Finset.range frameBitmapBits).filter fun f => used fa f = false

theorem mem_freeFrames {fa : BitmapFrameAllocator} {f : ℕ} :
    f ∈ freeFrames fa ↔ used fa f = false := by
  simp only [freeFrames, Finset.mem_filter, Finset.mem_range, and_iff_right_iff_imp]
  intro h
  by_contra hge
  simp [used, not_lt.mp hge] at h

theorem countFree_eq_card (fa : BitmapFrameAllocator) :
    countFree fa.bitmap = (freeFrames fa).card := by
  have hperm : freeFrames fa = ((List.range frameBitmapBits).filter
      fun idx => !testBit fa.bitmap idx).toFinset := by
    ext f
    simp [mem_freeFrames, used]
  rw [hperm, List.toFinset_card_of_nodup (List.nodup_range.filter _), countFree,
    List.countP_eq_length_filter]

theorem allocateFrame_eq_none {fa : BitmapFrameAllocator} :
    allocateFrame fa = none ↔ countFree fa.bitmap = 0 := by
  rw [countFree_eq_card, Finset.card_eq_zero]
  constructor
  · intro h
    ext f
    simp only [mem_freeFrames, Finset.notMem_empty, iff_false, Bool.not_eq_false, used,
      Bool.or_eq_true, decide_eq_true_eq]
    by_cases hf : f < frameBitmapBits
    · exact .inr (allocateFrame_none h f hf)
    · exact .inl (not_lt.mp hf)
  · intro hempty
    cases h : allocateFrame fa with
    | none => rfl
    | some r =>
        have hmem : r.1 ∈ freeFrames fa := mem_freeFrames.mpr (allocateFrame_unused h)
        rw [hempty] at hmem
        exact absurd hmem (Finset.notMem_empty _)

theorem freeFrames_allocate {fa fa' : BitmapFrameAllocator} {f : ℕ}
    (h : allocateFrame fa = some (f, fa')) : freeFrames fa' = (freeFrames fa).erase f := by
  ext g
  simp only [mem_freeFrames, allocateFrame_used h, Bool.or_eq_false_iff, decide_eq_false_iff_not,
    Finset.mem_erase]
  exact and_comm

theorem allocateFrame_countFree {fa fa' : BitmapFrameAllocator} {f : ℕ}
    (h : allocateFrame fa = some (f, fa')) : countFree fa'.bitmap + 1 = countFree fa.bitmap := by
  rw [countFree_eq_card, countFree_eq_card, freeFrames_allocate h]
  exact Finset.card_erase_add_one (mem_freeFrames.mpr (allocateFrame_unused h))

theorem freeFrames_deallocate (fa : BitmapFrameAllocator) {f : ℕ} (hne : f ≠ 0)
    (hlt : f < frameBitmapBits) :
    freeFrames (deallocateFrame fa f) = insert f (freeFrames fa) := by
  ext g
  simp only [mem_freeFrames, deallocateFrame_used, Bool.and_eq_false_iff, decide_eq_false_iff_not,
    not_not, Finset.mem_insert]
  tauto

theorem deallocateFrame_countFree {fa : BitmapFrameAllocator} {f : ℕ} (hf : used fa f = true)
    (hne : f ≠ 0) (hlt : f < frameBitmapBits) :
    countFree (deallocateFrame fa f).bitmap = countFree fa.bitmap + 1 := by
  rw [countFree_eq_card, countFree_eq_card, freeFrames_deallocate fa hne hlt]
  exact Finset.card_insert_of_notMem (by simp [mem_freeFrames, hf])

theorem countFree_le_deallocateFrame (fa : BitmapFrameAllocator) (f : ℕ) :
    countFree fa.bitmap ≤ countFree (deallocateFrame fa f).bitmap := by
  rw [countFree_eq_card, countFree_eq_card]
  apply Finset.card_le_card
  intro g hg
  rw [mem_freeFrames] at hg ⊢
  rw [deallocateFrame_used, hg, Bool.false_and]

/-! ## Custody of frames along a run -/

inductive AllocOp where
  | allocate
  | deallocate (frame : ℕ)
  deriving DecidableEq, Repr

/-- The allocator together with the frames that were returned and not freed. -/
structure Custody where
  fa : BitmapFrameAllocator
  held : List ℕ

/-- `deallocate_frame` is offered for a held frame only; that is the contract
stated at the function. -/
def custodyStep : AllocOp → Custody → Option (Option ℕ × Custody)
  | .allocate, s =>
      match allocateFrame s.fa with
      | none => some (none, s)
      | some (f, fa) => some (some f, ⟨fa, f :: s.held⟩)
  | .deallocate f, s =>
      if f ∈ s.held then some (none, ⟨deallocateFrame s.fa f, s.held.erase f⟩) else none

def Custody.start (map : List MemoryRegion) : Custody := ⟨.new map, []⟩

/-- Held frames are used and listed once; free frames are eligible. -/
structure Custody.Sound (map : List MemoryRegion) (s : Custody) : Prop where
  nodup : s.held.Nodup
  used : ∀ f ∈ s.held, testBit s.fa.bitmap f = true
  eligible : ∀ f ∈ s.held, Eligible map f
  free : ∀ f < frameBitmapBits, testBit s.fa.bitmap f = false → Eligible map f

theorem Custody.start_sound (map : List MemoryRegion) : (Custody.start map).Sound map where
  nodup := List.nodup_nil
  used := by simp [Custody.start]
  eligible := by simp [Custody.start]
  free := fun _ hf hclear => (new_testBit map hf).mp hclear

theorem Custody.Sound.allocate {map : List MemoryRegion} {s : Custody} (h : s.Sound map)
    {f : ℕ} {fa : BitmapFrameAllocator} (hf : allocateFrame s.fa = some (f, fa)) :
    f ∉ s.held ∧ Eligible map f ∧ Custody.Sound map ⟨fa, f :: s.held⟩ := by
  obtain ⟨hleast, rfl⟩ := allocateFrame_some hf
  have hnot : f ∉ s.held := fun hm => by simpa [hleast.clear] using h.used f hm
  have hel : Eligible map f := h.free f (allocateFrame_lt hf) hleast.clear
  refine ⟨hnot, hel, List.nodup_cons.mpr ⟨hnot, h.nodup⟩, ?_, ?_, ?_⟩
  · intro g hg
    rw [testBit_setBit _ hleast.lt]
    rcases List.mem_cons.mp hg with rfl | hg
    · simp
    · simp [h.used g hg]
  · intro g hg
    rcases List.mem_cons.mp hg with rfl | hg
    · exact hel
    · exact h.eligible g hg
  · intro g hg hclear
    rw [testBit_setBit _ hleast.lt] at hclear
    exact h.free g hg (Bool.or_eq_false_iff.mp hclear).1

theorem Custody.Sound.deallocate {map : List MemoryRegion} {s : Custody} (h : s.Sound map)
    {f : ℕ} (hf : f ∈ s.held) :
    Custody.Sound map ⟨deallocateFrame s.fa f, s.held.erase f⟩ := by
  have hel := h.eligible f hf
  have hclear : (deallocateFrame s.fa f).bitmap = clearBit s.fa.bitmap f := by
    rw [deallocateFrame, if_neg (by have := hel.lt; have := hel.ne_zero; omega),
      if_neg (by simp [h.used f hf])]
  have hlt : f < 8 * bitmapBytes := by rw [← bits_eq]; exact hel.lt
  refine ⟨h.nodup.erase f, ?_, fun g hg => h.eligible g (List.mem_of_mem_erase hg), ?_⟩
  · intro g hg
    have hne : g ≠ f := fun he => (h.nodup.not_mem_erase) (he ▸ hg)
    rw [hclear, testBit_clearBit _ hlt]
    simp [hne, h.used g (List.mem_of_mem_erase hg)]
  · intro g hg hc
    rw [hclear, testBit_clearBit _ hlt] at hc
    by_cases he : g = f
    · exact he ▸ hel
    · exact h.free g hg (by simpa [he] using hc)

theorem custodyStep_sound {map : List MemoryRegion} (op : AllocOp) (s : Custody)
    (o : Option ℕ) (t : Custody) (hstep : custodyStep op s = some (o, t)) (h : s.Sound map) :
    t.Sound map := by
  cases op with
  | allocate =>
      simp only [custodyStep] at hstep
      cases hf : allocateFrame s.fa with
      | none =>
          simp only [hf, Option.some.injEq, Prod.mk.injEq] at hstep
          exact hstep.2 ▸ h
      | some r =>
          simp only [hf, Option.some.injEq, Prod.mk.injEq] at hstep
          exact hstep.2 ▸ (h.allocate hf).2.2
  | deallocate f =>
      simp only [custodyStep] at hstep
      split_ifs at hstep with hf
      simp only [Option.some.injEq, Prod.mk.injEq] at hstep
      exact hstep.2 ▸ h.deallocate hf

/-- At every point of every run, the frame an allocation returns is not held by
anyone, comes from a usable region, is tracked by the bitmap, and is neither
frame 0 nor part of the legacy video window. -/
theorem allocate_exclusive (map : List MemoryRegion) (tr : List (AllocOp × Option ℕ))
    (s t : Custody) (f : ℕ) (hrun : Run custodyStep (Custody.start map) tr s)
    (hstep : custodyStep .allocate s = some (some f, t)) :
    f ∉ s.held ∧ (∃ r ∈ map, r.Offers f) ∧ f < frameBitmapBits ∧ f ≠ 0 ∧
      ¬ (isaVideoLo ≤ f * pageSize ∧ f * pageSize < isaVideoHi) := by
  have hsound : s.Sound map := hrun.invariant custodyStep_sound (Custody.start_sound map)
  simp only [custodyStep] at hstep
  cases hf : allocateFrame s.fa with
  | none => simp [hf] at hstep
  | some r =>
      simp only [hf, Option.some.injEq, Prod.mk.injEq] at hstep
      obtain ⟨hnot, hel, -⟩ := hsound.allocate hf
      rw [hstep.1] at hnot hel
      exact ⟨hnot, hel.offered, hel.lt, hel.ne_zero, hel.not_video⟩

/-- Two usable frames: the first allocation takes one of them, and while it is
held the second allocation is served too, from the other. -/
theorem allocate_exclusive_two_frames :
    ∃ f s t, custodyStep .allocate (Custody.start [⟨1, 3, .usable⟩]) = some (some f, s) ∧
      ∃ g, custodyStep .allocate s = some (some g, t) ∧ g ∉ s.held ∧ s.held = [f] := by
  have hoffer : ∀ i, i = 1 ∨ i = 2 → Eligible [⟨1, 3, .usable⟩] i := by
    intro i hi
    refine ⟨?_, ⟨_, List.mem_singleton.mpr rfl, rfl, ?_, ?_⟩, by omega, ?_⟩
    · simp only [frameBitmapBits, bitmapBytes]; omega
    · change 1 ≤ i; omega
    · change i < 3; omega
    · simp only [isaVideoLo, pageSize]; omega
  have hclear : ∀ i, i = 1 ∨ i = 2 →
      testBit (Custody.start [⟨1, 3, .usable⟩]).fa.bitmap i = false := fun i hi =>
    (new_testBit _ (hoffer i hi).lt).mpr (hoffer i hi)
  obtain ⟨f, fa, hf⟩ := allocateFrame_of_clear (hoffer 1 (.inl rfl)).lt (hclear 1 (.inl rfl))
  have h₁ : custodyStep .allocate (Custody.start [⟨1, 3, .usable⟩]) = some (some f, ⟨fa, [f]⟩) := by
    simp only [custodyStep, hf]
    rfl
  -- whichever of the two frames was taken, the other bit is still clear
  obtain ⟨i, hi, hne⟩ : ∃ i, (i = 1 ∨ i = 2) ∧ i ≠ f := by
    by_cases h : f = 1
    · exact ⟨2, .inr rfl, by omega⟩
    · exact ⟨1, .inl rfl, Ne.symm h⟩
  have hrest : testBit fa.bitmap i = false := by
    obtain ⟨hleast, rfl⟩ := allocateFrame_some hf
    simp [testBit_setBit _ hleast.lt, hclear i hi, hne]
  obtain ⟨g, fb, hg⟩ := allocateFrame_of_clear (hoffer i hi).lt hrest
  have h₂ : custodyStep .allocate ⟨fa, [f]⟩ = some (some g, ⟨fb, [g, f]⟩) := by
    simp only [custodyStep, hg]
  exact ⟨f, _, _, h₁, g, h₂, (allocate_exclusive _ _ _ _ _ (.single h₁) h₂).1, rfl⟩

end Rockos.PhysMemory
