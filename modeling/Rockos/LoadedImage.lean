import Mathlib.Order.Bounds.Basic
import Rockos.UserMemory

/-!
# What the ELF loader leaves in memory

Each segment gets pages that were free before, on frames that are zeroed first,
and its file bytes are then stored through the page table. A page that two
segments share stops the loader with an error, so when it returns, no segment
has touched the memory of another.

The loader forms its addresses with `VirtAddr::new`, which sign-extends those from
`2 ^ 47` to `2 ^ 48`. A program header with such an address is accepted, but its
segment is not where the header says.
-/
namespace Rockos.LoadedImage
open FallibleState PhysMemory Paging ElfLoader FrameSafety PageEdits UserMemory

/-! ## The headers of an image -/

def headerAt (image : List UInt8) (h : FileHeader) (i : ℕ) : ProgramHeader :=
  programHeader ((image.drop (h.phoff + i * h.phentsize)).take 56)

/-- The segments among the first `n` headers. -/
def segments (image : List UInt8) (h : FileHeader) (n : ℕ) : List ProgramHeader :=
  ((List.range n).map (headerAt image h)).filter fun ph => ph.type = 1 ∧ ph.memsz ≠ 0

/-- All `PT_LOAD` headers with a nonempty memory size. -/
def loadHeaders (image : List UInt8) : List ProgramHeader :=
  match fileHeader image with
  | .error _ => []
  | .ok h => segments image h h.phnum

theorem loadHeaders_of_ok {image : List UInt8} {h : FileHeader} (hh : fileHeader image = .ok h) :
    loadHeaders image = segments image h h.phnum := by
  unfold loadHeaders
  rw [hh]

theorem segments_succ (image : List UInt8) (h : FileHeader) (n : ℕ) :
    segments image h (n + 1) = segments image h n ++
      if (headerAt image h n).type = 1 ∧ (headerAt image h n).memsz ≠ 0 then [headerAt image h n]
      else [] := by
  simp only [segments, List.range_succ, List.map_append, List.filter_append, List.map_cons,
    List.map_nil, List.filter_cons, List.filter_nil, decide_eq_true_eq]

theorem mem_segments {image : List UInt8} {h : FileHeader} {n : ℕ} {ph : ProgramHeader} :
    ph ∈ segments image h n ↔
      (∃ i < n, headerAt image h i = ph) ∧ ph.type = 1 ∧ ph.memsz ≠ 0 := by
  simp [segments]

theorem leNat_lt (bytes : List UInt8) : leNat bytes < 256 ^ bytes.length := by
  induction bytes with
  | nil => simp [leNat]
  | cons b bs ih =>
      have hb := b.toNat_lt
      simp only [leNat, List.length_cons, Nat.pow_succ]
      omega

theorem field_lt (bytes : List UInt8) (off n : ℕ) : field bytes off n < 256 ^ n :=
  (leNat_lt _).trans_le (Nat.pow_le_pow_right (by decide) (List.length_take_le _ _))

/-! ## Fresh pages -/

/-- The pages `S` were free and are now mapped and full of zeros; everything
else is as before. -/
structure Fills (S : Set ℕ) (flags : PageTableFlags) (m m' : Mem) : Prop where
  safe : FrameSafe m'
  free : ∀ q ∈ S, m.pt.entries q = none
  entry : ∀ q ∈ S, ∃ f, m'.pt.entries q = some ⟨f, flags⟩
  others : ∀ q ∉ S, m'.pt.entries q = m.pt.entries q
  zero : ∀ a, pageOf a ∈ S → userByte m' a = some 0
  same : ∀ a, pageOf a ∉ S → userByte m' a = userByte m a

section Fills
variable {S T : Set ℕ} {flags : PageTableFlags} {m m' m'' : Mem}

theorem Fills.empty (h : FrameSafe m) : Fills ∅ flags m m :=
  ⟨h, fun _ hq => hq.elim, fun _ hq => hq.elim, fun _ _ => rfl, fun _ ha => ha.elim,
    fun _ _ => rfl⟩

/-- Mapped pages are not filled again. -/
theorem Fills.not_mem (h : Fills S flags m m') {q : ℕ} (hq : (m.pt.entries q).isSome) : q ∉ S := by
  intro hmem
  rw [h.free q hmem] at hq
  cases hq

theorem Fills.union (h : Fills S flags m m') (h' : Fills T flags m' m'') :
    Fills (S ∪ T) flags m m'' := by
  have hdisjoint : ∀ q ∈ S, q ∉ T := by
    intro q hq
    obtain ⟨f, hf⟩ := h.entry q hq
    exact h'.not_mem (by simp [hf])
  refine ⟨h'.safe, ?_, ?_, ?_, ?_, ?_⟩
  · rintro q (hq | hq)
    · exact h.free q hq
    · have hS : q ∉ S := fun hS => hdisjoint q hS hq
      rw [← h.others q hS]
      exact h'.free q hq
  · rintro q (hq | hq)
    · rw [h'.others q (hdisjoint q hq)]
      exact h.entry q hq
    · exact h'.entry q hq
  · intro q hq
    rw [Set.mem_union, not_or] at hq
    rw [h'.others q hq.2, h.others q hq.1]
  · rintro a (ha | ha)
    · rw [h'.same a (hdisjoint _ ha)]
      exact h.zero a ha
    · exact h'.zero a ha
  · intro a ha
    rw [Set.mem_union, not_or] at ha
    rw [h'.same a ha.2, h.same a ha.1]

/-- A page on a frame that was free and was zeroed. -/
theorem Fills.single {page f : ℕ} (hsafe : FrameSafe m) (hsafe' : FrameSafe m')
    (hfree : m.pt.entries page = none) (hf : used m.fa f = false)
    (hentries : m'.pt.entries = Function.update m.pt.entries page (some ⟨f, flags⟩))
    (hram : m'.ram = (zeroFrame f m).ram) : Fills {page} flags m m' := by
  have hother : ∀ q, q ≠ page → m'.pt.entries q = m.pt.entries q := fun q hq => by
    rw [hentries, Function.update_of_ne hq]
  have hpos : 0 < pageSize := by decide
  refine ⟨hsafe', ?_, ?_, fun q hq => hother q hq, ?_, ?_⟩
  · rintro q rfl
    exact hfree
  · rintro q rfl
    exact ⟨f, by rw [hentries, Function.update_self]⟩
  · intro a ha
    have ha' : pageOf a = page := ha
    simp [userByte, translateAddr, hentries, ha', hram, zeroFrame, Nat.add_div_of_dvd_right,
      Nat.mul_div_cancel _ hpos, Nat.div_eq_of_lt (Nat.mod_lt a hpos)]
  · intro a ha
    simp only [userByte, translateAddr, hother _ ha]
    cases he : m.pt.entries (pageOf a) with
    | none => rfl
    | some e =>
        -- the frame of a mapped page is in use, so it is not the zeroed one
        have hne : e.frame ≠ f := by
          rintro rfl
          rw [hsafe.exclusive.marked _ _ he] at hf
          cases hf
        simp [hram, zeroFrame, Nat.add_div_of_dvd_right, Nat.mul_div_cancel _ hpos,
          Nat.div_eq_of_lt (Nat.mod_lt a hpos), hne]

end Fills

section Segment
variable {w : Walker} {image : List UInt8} {ph : ProgramHeader} {m m' : Mem}

theorem zeroedPage_fills {page : ℕ} {flags : PageTableFlags} (hsafe : FrameSafe m)
    (h : zeroedPage w page flags m = .ok () m') : Fills {page} flags m m' := by
  have hsafe' : FrameSafe m' := (zeroedPage_safe w page flags).ok h hsafe
  obtain ⟨f, m₁, htake, h⟩ := bind_ok h
  obtain ⟨fa, ha, rfl⟩ := takeFrame_ok htake
  obtain ⟨_, m₂, hzero, h⟩ := bind_ok h
  obtain rfl : zeroFrame f { m with fa := fa } = m₂ := (EStateM.Result.ok.inj hzero).2
  have hmap := mapErr_ok h
  have hunused := allocateFrame_unused ha
  -- seen from the zeroed memory, the frame is taken and mapped
  have hgrows : Grows (zeroFrame f m) (zeroFrame f { m with fa := fa }) := by
    refine ⟨rfl, fun g hg => ?_, fun _ => .inl rfl⟩
    have hg' : used m.fa g = true := hg
    show used fa g = true
    rw [allocateFrame_used ha, hg', Bool.true_or]
  have hram : (final (mapTo w page f flags (zeroFrame f { m with fa := fa }))).ram =
      (zeroFrame f m).ram := (mapTo_grows hgrows rfl hunused).ram
  rcases mapTo_cases w page f flags (zeroFrame f { m with fa := fa }) with
    ⟨e, t, hrun, -⟩ | ⟨t, hrun, hfree, hentries⟩
  · rw [hrun] at hmap
    cases hmap
  · rw [hrun] at hmap hram
    obtain rfl : t = m' := (EStateM.Result.ok.inj hmap).2
    exact Fills.single hsafe hsafe' hfree hunused hentries hram

theorem mapSegment_fills {first last : ℕ} {flags : PageTableFlags} (hfirst : CanonicalPage first)
    (hlast : CanonicalPage last) (hsafe : FrameSafe m)
    (h : mapSegment w first last flags m = .ok () m') :
    Fills { q | q ∈ pageList first last } flags m m' := by
  refine forPages_list_ok (fun done t => Fills { q | q ∈ done } flags m t) hfirst hlast h ?_ ?_
  · simpa using Fills.empty hsafe
  · intro done page s t hs hrun
    have hdone : { q | q ∈ done ++ [page] } = { q | q ∈ done } ∪ {page} := by
      ext q
      simp [or_comm]
    rw [hdone]
    exact hs.union (zeroedPage_fills hs.safe hrun)

/-- The byte of a file part at `seg` that is copied to an address, the last one if
there are several. -/
def copiedByte (seg pFilesz a : ℕ) : Option ℕ :=
  (List.range pFilesz).reverse.find? fun j => signExtend (seg + j) = a

theorem copiedByte_succ (seg n a : ℕ) : copiedByte seg (n + 1) a =
    if signExtend (seg + n) = a then some n else copiedByte seg n a := by
  simp only [copiedByte, List.range_succ, List.reverse_append, List.reverse_singleton,
    List.singleton_append, List.find?_cons]
  split_ifs with ha
  · simp [ha]
  · simp [ha]

theorem copiedByte_some {seg n a j : ℕ} (h : copiedByte seg n a = some j) :
    j < n ∧ signExtend (seg + j) = a := by
  refine ⟨?_, by simpa using List.find?_some h⟩
  exact List.mem_range.mp (List.mem_reverse.mp (List.mem_of_find?_eq_some h))

theorem copiedByte_eq_none {seg n a : ℕ} :
    copiedByte seg n a = none ↔ ∀ j < n, signExtend (seg + j) ≠ a := by
  simp [copiedByte, List.find?_eq_none]

/-- The file bytes arrive at their addresses, and nothing else is stored. -/
theorem copySegment_bytes {seg pOffset pFilesz : ℕ} (hsafe : FrameSafe m)
    (h : copySegment image seg pOffset pFilesz m = .ok () m') :
    FrameSafe m' ∧ m'.pt = m.pt ∧ (∀ j < pFilesz, pOffset + j < image.length) ∧
      ∀ a, userByte m' a =
        (copiedByte seg pFilesz a).elim (userByte m a) fun j => image[pOffset + j]? := by
  have hloop := countLoop_ok (fun i _ t => FrameSafe t ∧ t.pt = m.pt ∧
    (∀ j < i, pOffset + j < image.length) ∧ ∀ a, userByte t a =
      (copiedByte seg i a).elim (userByte m a) fun j => image[pOffset + j]?) h
    ⟨hsafe, rfl, fun j hj => absurd hj (Nat.not_lt_zero j), fun a => rfl⟩ ?_
  · simpa only [Nat.zero_add] using hloop
  rintro j _ s _ t - - ⟨hs, hpt, hfile, hbytes⟩ hrun
  obtain ⟨-, hrun⟩ := addU64_bind_ok hrun
  split_ifs at hrun with hoob
  · cases hrun
  obtain ⟨-, hrun⟩ := addU64_bind_ok hrun
  obtain ⟨-, hrun⟩ := virtAddr_bind_ok hrun
  simp only [bind_run, get_run] at hrun
  cases htr : translateAddr s (signExtend (seg + j)) with
  | none => simp [htr] at hrun
  | some phys =>
      simp only [htr, modify_run, EStateM.Result.ok.injEq] at hrun
      obtain ⟨-, rfl⟩ := hrun
      refine ⟨hs, hpt, fun i hi => ?_, fun a => ?_⟩
      · rcases Nat.lt_succ_iff_lt_or_eq.mp hi with hlt | rfl
        · exact hfile i hlt
        · exact not_le.mp hoob
      have hbyte : image[pOffset + j]? = some (image.getD (pOffset + j) 0) := by
        rw [List.getD_eq_getElem?_getD, List.getElem?_eq_getElem (by omega), Option.getD_some]
      rw [userByte_writePhys hs htr, hbytes a, copiedByte_succ]
      by_cases ha : a = signExtend (seg + j)
      · rw [if_pos ha, if_pos ha.symm, ← hbyte]
        rfl
      · rw [if_neg ha, if_neg (Ne.symm ha)]

/-! ## The addresses of a segment -/

/-- The bounds of the segment get past `VirtAddr::new`. -/
structure InBounds (ph : ProgramHeader) : Prop where
  start : canonical (signExtend ph.vaddr) = true
  fits : ph.vaddr + ph.memsz < 2 ^ 64
  stop : canonical (signExtend (ph.vaddr + ph.memsz)) = true
  last : canonical (signExtend (signExtend (ph.vaddr + ph.memsz) - 1)) = true

/-- The pages that the loader maps for a segment. -/
def pages (ph : ProgramHeader) : List ℕ :=
  pagesOf ph.vaddr (signExtend (ph.vaddr + ph.memsz) - 1)

theorem mem_pages_of_lt (h : ph.vaddr + ph.memsz < 2 ^ 47) {q : ℕ} :
    q ∈ pages ph ↔ q ∈ pageRange (pageOf ph.vaddr) (pageOf (ph.vaddr + ph.memsz - 1)) := by
  rw [pages, signExtend_of_lt h, mem_pagesOf_of_lt (by omega)]

/-- All addresses that the header names are canonical as they stand. -/
def Addressable (ph : ProgramHeader) : Prop :=
  ph.vaddr + ph.memsz ≤ 2 ^ 47 ∨ 2 ^ 64 - 2 ^ 47 ≤ ph.vaddr

theorem Addressable.canonical {j : ℕ} (h : Addressable ph) (hbounds : InBounds ph)
    (hj : j < ph.memsz) : canonical (ph.vaddr + j) = true := by
  have hfits := hbounds.fits
  rw [canonical_iff]
  unfold Addressable at h
  omega

/-- Where nothing is sign-extended, the pages are those from the first byte to the last. -/
theorem Addressable.mem_pages (h : Addressable ph) (hbounds : InBounds ph) (hmem : ph.memsz ≠ 0)
    {q : ℕ} :
    q ∈ pages ph ↔ q ∈ pageRange (pageOf ph.vaddr) (pageOf (ph.vaddr + ph.memsz - 1)) := by
  have hfits := hbounds.fits
  rcases h with hlow | hhigh
  · -- a segment that ends at `2 ^ 47` is not in bounds
    refine mem_pages_of_lt (lt_of_le_of_ne hlow fun hend => ?_)
    have hlast := hbounds.last
    rw [hend] at hlast
    revert hlast
    decide
  · have hcanonical : ∀ a, ph.vaddr ≤ a → a < 2 ^ 64 → signExtend a = a := fun a h₁ h₂ =>
      signExtend_of_canonical (canonical_iff.mpr (by omega))
    rw [pages, pagesOf, hcanonical _ le_rfl (by omega), hcanonical _ (by omega) hfits,
      hcanonical _ (by omega) (by omega), mem_pageList]
    refine ⟨fun hq => ⟨hq.1, hq.2.1⟩, fun hq => ⟨hq.1, hq.2, canonicalPage_iff.mpr (.inr ?_)⟩⟩
    have hlo : pageOf ph.vaddr ≤ q := hq.1
    have hhi : q ≤ pageOf (ph.vaddr + ph.memsz - 1) := hq.2
    unfold pageOf pageSize at hlo hhi
    omega

/-- The segment does not reach over the addresses that no page has. -/
def Unbroken (ph : ProgramHeader) : Prop :=
  ph.vaddr + ph.memsz ≤ 2 ^ 48 ∨ 2 ^ 64 - 2 ^ 47 ≤ ph.vaddr

/-- Then each of its bytes is on one of its pages. -/
theorem Unbroken.mem_pages (h : Unbroken ph) (hbounds : InBounds ph) {j : ℕ} (hj : j < ph.memsz) :
    pageOf (signExtend (ph.vaddr + j)) ∈ pages ph := by
  have hfits := hbounds.fits
  have hstart := canonical_iff.mp hbounds.start
  have hstop := canonical_iff.mp hbounds.stop
  have hlast := canonical_iff.mp hbounds.last
  unfold Unbroken at h
  have hcanonical : canonical (signExtend (ph.vaddr + j)) = true := by
    rw [canonical_iff]
    unfold signExtend at *
    split_ifs at * <;> omega
  rw [pages, pagesOf, mem_pageList]
  refine ⟨Nat.div_le_div_right ?_, Nat.div_le_div_right ?_, canonicalPage_pageOf hcanonical⟩
  · unfold signExtend
    split_ifs <;> omega
  · unfold signExtend at *
    split_ifs at * <;> omega

/-- Where nothing is sign-extended, each byte goes to its own address. -/
theorem Addressable.copiedByte (h : Addressable ph) (hbounds : InBounds ph)
    (hsize : ph.filesz ≤ ph.memsz) (j : ℕ) :
    copiedByte ph.vaddr ph.filesz (ph.vaddr + j) = if j < ph.filesz then some j else none := by
  have hsame : ∀ i < ph.filesz, signExtend (ph.vaddr + i) = ph.vaddr + i := fun i hi =>
    signExtend_of_canonical (h.canonical hbounds (by omega))
  cases hcopied : LoadedImage.copiedByte ph.vaddr ph.filesz (ph.vaddr + j) with
  | none =>
      rw [if_neg]
      exact fun hfile => copiedByte_eq_none.mp hcopied j hfile (hsame j hfile)
  | some i =>
      obtain ⟨hi, heq⟩ := copiedByte_some hcopied
      rw [hsame i hi] at heq
      rw [if_pos (by omega), show i = j by omega]

/-- The memory that a segment asks for is there. -/
structure Loaded (image : List UInt8) (ph : ProgramHeader) (m : Mem) : Prop where
  bytes : ∀ j < ph.memsz, userLoad m (ph.vaddr + j) =
    if j < ph.filesz then image[ph.offset + j]? else some 0
  pages : ∀ q, ph.vaddr < (q + 1) * pageSize → q * pageSize < ph.vaddr + ph.memsz →
    ∃ e, m.pt.entries q = some e ∧ e.flags.userAccessible = true ∧
      (e.flags.writable = true ↔ ph.flags &&& 2 ≠ 0) ∧
      (e.flags.noExecute = true ↔ ph.flags &&& 1 = 0)

/-- A page meets the segment if it lies between the first and the last one. -/
theorem meets_iff_mem_range (hmem : ph.memsz ≠ 0) (q : ℕ) :
    (ph.vaddr < (q + 1) * pageSize ∧ q * pageSize < ph.vaddr + ph.memsz) ↔
      q ∈ pageRange (pageOf ph.vaddr) (pageOf (ph.vaddr + ph.memsz - 1)) := by
  have hpos : 0 < pageSize := by decide
  have hlast : q ≤ pageOf (ph.vaddr + ph.memsz - 1) ↔ q * pageSize < ph.vaddr + ph.memsz := by
    rw [pageOf, Nat.le_div_iff_mul_le hpos]
    omega
  have hfirst : pageOf ph.vaddr ≤ q ↔ ph.vaddr < (q + 1) * pageSize := by
    rw [pageOf, ← Nat.lt_succ_iff, Nat.div_lt_iff_lt_mul hpos]
  rw [← hlast, ← hfirst]
  rfl

theorem pageOf_mem_range {j : ℕ} (hj : j < ph.memsz) :
    pageOf (ph.vaddr + j) ∈ pageRange (pageOf ph.vaddr) (pageOf (ph.vaddr + ph.memsz - 1)) :=
  ⟨Nat.div_le_div_right (Nat.le_add_right _ _), Nat.div_le_div_right (by omega)⟩

/-- New pages and stores to them do not reach a segment that was there before. -/
theorem Loaded.keep {S : Set ℕ} {flags : PageTableFlags} {m'' : Mem} (h : Loaded image ph m)
    (hfill : Fills S flags m m') (hpt : m''.pt = m'.pt)
    (hbytes : ∀ a, pageOf a ∉ S → userByte m'' a = userByte m' a) : Loaded image ph m'' := by
  have hmapped : ∀ q, ph.vaddr < (q + 1) * pageSize → q * pageSize < ph.vaddr + ph.memsz →
      q ∉ S := by
    intro q h₁ h₂
    obtain ⟨e, he, -⟩ := h.pages q h₁ h₂
    exact hfill.not_mem (by simp [he])
  constructor
  · intro j hj
    have hmem : ph.memsz ≠ 0 := by omega
    obtain ⟨h₁, h₂⟩ := (meets_iff_mem_range hmem _).mpr (pageOf_mem_range hj)
    rw [← h.bytes j hj, userLoad, hbytes _ (hmapped _ h₁ h₂), hfill.same _ (hmapped _ h₁ h₂)]
    rfl
  · intro q h₁ h₂
    rw [hpt, hfill.others q (hmapped q h₁ h₂)]
    exact h.pages q h₁ h₂

/-- Only bytes that the processor can load are there. -/
theorem Loaded.addressable (h : Loaded image ph m) (hmem : ph.memsz ≠ 0)
    (hfile : ∀ j < ph.filesz, ph.offset + j < image.length) : Addressable ph := by
  have hcanonical : ∀ j < ph.memsz, canonical (ph.vaddr + j) = true := by
    intro j hj
    apply @canonical_of_userLoad m
    rw [h.bytes j hj]
    split_ifs with hlt
    · rw [List.getElem?_eq_getElem (hfile j hlt)]
      rfl
    · rfl
  have hfirst := canonical_iff.mp (hcanonical 0 (by omega))
  by_contra hnot
  unfold Addressable at hnot
  rw [not_or, not_le, not_le] at hnot
  -- the segment starts below `2 ^ 47` and goes on behind it
  have hmiddle := canonical_iff.mp (hcanonical (2 ^ 47 - ph.vaddr) (by omega))
  omega

/-- A segment that holds the start of the header table sets its address. -/
def tableAddress (phoff : ℕ) (ph : ProgramHeader) (old : Option ℕ) : Option ℕ :=
  if phoff ≥ ph.offset ∧ phoff < saturatingAdd ph.offset ph.filesz then
    some (ph.vaddr + (phoff - ph.offset))
  else old

theorem phdrAddress_bind_ok {α : Type} {phoff : ℕ} {old : Option ℕ} {f : Option ℕ → MemM α}
    {b : α} (h : (phdrAddress phoff ph ph.vaddr old >>= f) m = .ok b m') :
    f (tableAddress phoff ph old) m = .ok b m' := by
  unfold phdrAddress at h
  unfold tableAddress
  split_ifs at h ⊢
  · obtain ⟨va, t, hva, h⟩ := bind_ok h
    obtain ⟨-, hadd⟩ := addU64_bind_ok hva
    obtain ⟨rfl, rfl⟩ := EStateM.Result.ok.inj hadd
    exact h
  · exact h

/-- A segment is mapped, then filled from the file. -/
theorem loadSegment_stages {phoff : ℕ} {acc acc' : LoadAcc} (hsafe : FrameSafe m)
    (hvaddr : ph.vaddr < 2 ^ 64) (h : loadSegment w image 0 phoff ph acc m = .ok acc' m') :
    InBounds ph ∧ ∃ m₁, Fills { q | q ∈ pages ph } (segmentFlags ph.flags) m m₁ ∧ FrameSafe m' ∧
      m'.pt = m₁.pt ∧ (∀ j < ph.filesz, ph.offset + j < image.length) ∧
      (∀ a, userByte m' a = (copiedByte ph.vaddr ph.filesz a).elim (userByte m₁ a)
        fun j => image[ph.offset + j]?) ∧
      acc' = ⟨max acc.imageEnd (ph.vaddr + ph.memsz),
        if ph.flags &&& 2 ≠ 0 then some (acc.rwMin.elim ph.vaddr (min · ph.vaddr)) else acc.rwMin,
        tableAddress phoff ph acc.phdrVa⟩ := by
  simp only [loadSegment, Nat.add_zero, Nat.mod_eq_of_lt hvaddr] at h
  replace h := phdrAddress_bind_ok h
  obtain ⟨hstart, h⟩ := virtAddr_bind_ok h
  obtain ⟨hfits, h⟩ := addU64_bind_ok h
  obtain ⟨hstop, h⟩ := virtAddr_bind_ok h
  obtain ⟨hlast, h⟩ := virtAddr_bind_ok h
  obtain ⟨_, m₁, hmap, h⟩ := bind_ok h
  obtain ⟨_, m₂, hcopy, h⟩ := bind_ok h
  obtain ⟨rfl, rfl⟩ := EStateM.Result.ok.inj h
  have hfill := mapSegment_fills (canonicalPage_pageOf hstart) (canonicalPage_pageOf hlast) hsafe
    hmap
  obtain ⟨hsafe₂, hpt, hfile, hbytes⟩ := copySegment_bytes hfill.safe hcopy
  exact ⟨⟨hstart, hfits, hstop, hlast⟩, m₁, hfill, hsafe₂, hpt, hfile, hbytes, rfl⟩

theorem loadSegment_ok {phoff : ℕ} {acc acc' : LoadAcc} (hsafe : FrameSafe m)
    (hvaddr : ph.vaddr < 2 ^ 64) (hmem : ph.memsz ≠ 0) (hsize : ph.filesz ≤ ph.memsz)
    (haddr : Addressable ph) (h : loadSegment w image 0 phoff ph acc m = .ok acc' m') :
    FrameSafe m' ∧ Loaded image ph m' ∧ (∀ ph', Loaded image ph' m → Loaded image ph' m') ∧
      acc'.imageEnd = max acc.imageEnd (ph.vaddr + ph.memsz) ∧
      acc'.rwMin = (if ph.flags &&& 2 ≠ 0 then some (acc.rwMin.elim ph.vaddr (min · ph.vaddr))
        else acc.rwMin) := by
  obtain ⟨hbounds, m₁, hfill, hsafe₂, hpt, -, hbytes, rfl⟩ := loadSegment_stages hsafe hvaddr h
  have hpages : ∀ {q}, q ∈ pages ph ↔ _ := haddr.mem_pages hbounds hmem
  refine ⟨hsafe₂, ⟨?_, ?_⟩, fun ph' hph' => hph'.keep hfill hpt ?_, rfl, rfl⟩
  · intro j hj
    rw [userLoad_of_canonical (haddr.canonical hbounds hj), hbytes,
      haddr.copiedByte hbounds hsize]
    split_ifs with hfile
    · rfl
    · exact hfill.zero _ (hpages.mpr (pageOf_mem_range hj))
  · intro q h₁ h₂
    obtain ⟨f, hf⟩ := hfill.entry q (hpages.mpr ((meets_iff_mem_range hmem q).mp ⟨h₁, h₂⟩))
    rw [hpt]
    exact ⟨_, hf, rfl, by simp [segmentFlags], by simp [segmentFlags]⟩
  · -- a byte that is copied is on a page of the segment
    intro a ha
    cases hcopied : copiedByte ph.vaddr ph.filesz a with
    | none => rw [hbytes, hcopied, Option.elim_none]
    | some j =>
        obtain ⟨hj, heq⟩ := copiedByte_some hcopied
        have hj' : j < ph.memsz := by omega
        rw [signExtend_of_canonical (haddr.canonical hbounds hj')] at heq
        exact absurd (hpages.mpr (heq ▸ pageOf_mem_range hj')) ha

end Segment

/-! ## The loop over the headers -/

def ends (done : List ProgramHeader) : Set ℕ := { x | ∃ ph ∈ done, ph.vaddr + ph.memsz = x }

def writableStarts (done : List ProgramHeader) : Set ℕ :=
  { x | ∃ ph ∈ done, ph.flags &&& 2 ≠ 0 ∧ ph.vaddr = x }

/-- The locals of the loop after the segments `done`. -/
structure Bounds (done : List ProgramHeader) (acc : LoadAcc) : Prop where
  imageEnd : done ≠ [] → IsGreatest (ends done) acc.imageEnd
  unset : acc.rwMin = none → writableStarts done = ∅
  rwMin : ∀ lo, acc.rwMin = some lo → IsLeast (writableStarts done) lo
  start : done = [] → acc = ⟨0, none, none⟩

/-- What holds when the segments `done` have been loaded. -/
structure Progress (image : List UInt8) (done : List ProgramHeader) (acc : LoadAcc) (m : Mem) :
    Prop extends Bounds done acc where
  safe : FrameSafe m
  loaded : ∀ ph ∈ done, Loaded image ph m

theorem ends_append (done : List ProgramHeader) (ph : ProgramHeader) :
    ends (done ++ [ph]) = insert (ph.vaddr + ph.memsz) (ends done) := by
  ext x
  simp only [ends, List.mem_append, List.mem_singleton, Set.mem_ofPred_eq, Set.mem_insert_iff]
  constructor
  · rintro ⟨ph', hph | rfl, rfl⟩
    · exact .inr ⟨ph', hph, rfl⟩
    · exact .inl rfl
  · rintro (rfl | ⟨ph', hph, rfl⟩)
    · exact ⟨ph, .inr rfl, rfl⟩
    · exact ⟨ph', .inl hph, rfl⟩

theorem writableStarts_append (done : List ProgramHeader) (ph : ProgramHeader) :
    writableStarts (done ++ [ph]) =
      if ph.flags &&& 2 ≠ 0 then insert ph.vaddr (writableStarts done)
      else writableStarts done := by
  ext x
  split_ifs with hw <;>
    simp only [writableStarts, List.mem_append, List.mem_singleton, Set.mem_ofPred_eq,
      Set.mem_insert_iff]
  · constructor
    · rintro ⟨ph', hph | rfl, hw', rfl⟩
      · exact .inr ⟨ph', hph, hw', rfl⟩
      · exact .inl rfl
    · rintro (rfl | ⟨ph', hph, hw', rfl⟩)
      · exact ⟨ph, .inr rfl, hw, rfl⟩
      · exact ⟨ph', .inl hph, hw', rfl⟩
  · constructor
    · rintro ⟨ph', hph | rfl, hw', rfl⟩
      · exact ⟨ph', hph, hw', rfl⟩
      · exact absurd hw' hw
    · rintro ⟨ph', hph, hw', rfl⟩
      exact ⟨ph', .inl hph, hw', rfl⟩

theorem Bounds.nil : Bounds [] ⟨0, none, none⟩ :=
  ⟨fun hne => absurd rfl hne, by simp [writableStarts], by simp, fun _ => rfl⟩

/-- The header table lies in some segment, so there is one. -/
theorem Bounds.ne_nil {done : List ProgramHeader} {acc : LoadAcc} {phdr : ℕ} (h : Bounds done acc)
    (hphdr : acc.phdrVa = some phdr) : done ≠ [] := by
  intro hnil
  rw [h.start hnil] at hphdr
  cases hphdr

theorem Bounds.segment {done : List ProgramHeader} {acc acc' : LoadAcc} {ph : ProgramHeader}
    (h : Bounds done acc) (hend : acc'.imageEnd = max acc.imageEnd (ph.vaddr + ph.memsz))
    (hrw : acc'.rwMin = (if ph.flags &&& 2 ≠ 0 then some (acc.rwMin.elim ph.vaddr (min · ph.vaddr))
      else acc.rwMin)) : Bounds (done ++ [ph]) acc' := by
  refine ⟨?_, ?_, ?_, by simp⟩
  · intro _
    rw [ends_append, hend, max_comm]
    by_cases hdone : done = []
    · subst hdone
      simp [h.start rfl, ends, IsGreatest, upperBounds]
    · exact (h.imageEnd hdone).insert _
  · intro hnone
    rw [writableStarts_append]
    split_ifs at hrw with hw
    · rw [if_pos hw]
      rw [hrw] at hnone
      cases hnone
    · rw [if_neg hw]
      exact h.unset (hrw ▸ hnone)
  · intro lo hlo
    rw [writableStarts_append]
    rw [hrw] at hlo
    split_ifs at hlo ⊢ with hw
    · cases hacc : acc.rwMin with
      | none =>
          simp only [hacc, Option.elim_none, Option.some.injEq] at hlo
          rw [h.unset hacc, ← hlo]
          simp
      | some old =>
          simp only [hacc, Option.elim_some, Option.some.injEq] at hlo
          rw [← hlo, min_comm]
          exact (h.rwMin old hacc).insert _
    · exact h.rwMin lo hlo

section Loop
variable {w : Walker} {image : List UInt8} {done : List ProgramHeader} {acc acc' : LoadAcc}
  {ph : ProgramHeader} {m m' : Mem}

theorem Progress.segment (h : Progress image done acc m) {phoff : ℕ} (hvaddr : ph.vaddr < 2 ^ 64)
    (hmem : ph.memsz ≠ 0) (hsize : ph.filesz ≤ ph.memsz) (haddr : Addressable ph)
    (hrun : loadSegment w image 0 phoff ph acc m = .ok acc' m') :
    Progress image (done ++ [ph]) acc' m' := by
  obtain ⟨hsafe, hloaded, hkeep, hend, hrw⟩ := loadSegment_ok h.safe hvaddr hmem hsize haddr hrun
  refine ⟨h.toBounds.segment hend hrw, hsafe, ?_⟩
  intro ph' hph
  rcases List.mem_append.mp hph with hold | hnew
  · exact hkeep ph' (h.loaded ph' hold)
  · rw [List.mem_singleton.mp hnew]
    exact hloaded

/-- A header of another kind and an empty segment change nothing. -/
theorem loadPhdr_cases {h : FileHeader} {i : ℕ}
    (hstep : loadPhdr w image 0 h i acc m = .ok acc' m') :
    h.phoff + i * h.phentsize + 56 ≤ image.length ∧
    ((segments image h (i + 1) = segments image h i ∧ acc' = acc ∧ m' = m) ∨
     (segments image h (i + 1) = segments image h i ++ [headerAt image h i] ∧
      ((headerAt image h i).type = 1 ∧ (headerAt image h i).memsz ≠ 0) ∧
      loadSegment w image 0 h.phoff (headerAt image h i) acc m = .ok acc' m')) := by
  replace hstep := (addU64_bind_ok (addU64_bind_ok hstep).2).2
  split_ifs at hstep with hoob
  · cases hstep
  refine ⟨by omega, ?_⟩
  dsimp only at hstep
  rw [segments_succ]
  split_ifs at hstep with htype halign hmem
  · obtain ⟨rfl, rfl⟩ := EStateM.Result.ok.inj hstep
    rw [if_neg (fun hseg => htype hseg.1), List.append_nil]
    exact .inl ⟨rfl, rfl, rfl⟩
  · cases hstep
  · obtain ⟨rfl, rfl⟩ := EStateM.Result.ok.inj hstep
    rw [if_neg (fun hseg => hseg.2 hmem), List.append_nil]
    exact .inl ⟨rfl, rfl, rfl⟩
  · have hseg : (headerAt image h i).type = 1 ∧ (headerAt image h i).memsz ≠ 0 :=
      ⟨not_not.mp htype, hmem⟩
    rw [if_pos hseg]
    exact .inr ⟨rfl, hseg, hstep⟩

theorem Progress.loop {h : FileHeader} {n : ℕ}
    (hsizes : ∀ ph ∈ segments image h n, ph.filesz ≤ ph.memsz ∧ Addressable ph)
    (hsafe : FrameSafe m)
    (hrun : countLoop (loadPhdr w image 0 h) 0 n ⟨0, none, none⟩ m = .ok acc m') :
    Progress image (segments image h n) acc m' := by
  have hloop := countLoop_ok (fun i acc t => Progress image (segments image h i) acc t) hrun
    ⟨Bounds.nil, hsafe, by simp [segments]⟩ ?_
  · rwa [Nat.zero_add] at hloop
  intro i acc s acc' t _ hi hs hstep
  rcases (loadPhdr_cases hstep).2 with ⟨hsame, rfl, rfl⟩ | ⟨hnew, hseg, hload⟩
  · rw [hsame]
    exact hs
  · rw [hnew]
    obtain ⟨hsize, haddr⟩ := hsizes _ (mem_segments.mpr ⟨⟨i, by omega, rfl⟩, hseg⟩)
    exact hs.segment (field_lt _ 16 8) hseg.2 hsize haddr hload

/-- The loader reads every file byte of a segment, so they are all in the file. -/
theorem segments_in_file {h : FileHeader} {n : ℕ} (hsafe : FrameSafe m)
    (hrun : countLoop (loadPhdr w image 0 h) 0 n acc m = .ok acc' m') :
    ∀ ph ∈ segments image h n, ∀ j < ph.filesz, ph.offset + j < image.length := by
  have hloop := countLoop_ok (fun i _ t => FrameSafe t ∧ ∀ ph ∈ segments image h i,
    ∀ j < ph.filesz, ph.offset + j < image.length) hrun ⟨hsafe, by simp [segments]⟩ ?_
  · rw [Nat.zero_add] at hloop
    exact hloop.2
  rintro i acc s acc' t - - ⟨hs, hfile⟩ hstep
  rcases (loadPhdr_cases hstep).2 with ⟨hsame, rfl, rfl⟩ | ⟨hnew, -, hload⟩
  · rw [hsame]
    exact ⟨hs, hfile⟩
  · obtain ⟨-, _, -, ht, -, hin, -⟩ := loadSegment_stages hs (field_lt _ 16 8) hload
    refine ⟨ht, fun ph hph => ?_⟩
    rw [hnew] at hph
    rcases List.mem_append.mp hph with hold | hlast
    · exact hfile ph hold
    · rw [List.mem_singleton.mp hlast]
      exact hin

end Loop

/-- The image of a program that was loaded: every byte of every segment, the
permissions of its pages, and the two bounds that the loader reports. All of it is as
the headers say exactly when no segment has an address that is sign-extended. -/
theorem loadElfMapped_image_iff (w : Walker) (image : List UInt8) (m m' : Mem) (entry : ℕ)
    (md : ElfLoadedMeta) (hsafe : FrameSafe m)
    (hload : loadElfMapped w image 0 m = .ok (entry, md) m')
    (hsizes : ∀ ph ∈ loadHeaders image, ph.filesz ≤ ph.memsz) :
    ((∀ ph ∈ loadHeaders image, Loaded image ph m') ∧
      IsGreatest (ends (loadHeaders image)) md.imageEnd ∧
      ((∃ ph ∈ loadHeaders image, ph.flags &&& 2 ≠ 0) →
        IsLeast (writableStarts (loadHeaders image)) md.rwMin)) ↔
      ∀ ph ∈ loadHeaders image, Addressable ph := by
  obtain ⟨h, acc, phdr, hh, hloop, hphdr, -, -, hend, hlow⟩ := loadElfMapped_parts hload
  rw [loadHeaders_of_ok hh] at hsizes ⊢
  constructor
  · rintro ⟨hloaded, -⟩ ph hph
    exact (hloaded ph hph).addressable (mem_segments.mp hph).2.2
      (segments_in_file hsafe hloop ph hph)
  intro haddr
  have hdone := Progress.loop (fun ph hph => ⟨hsizes ph hph, haddr ph hph⟩) hsafe hloop
  rw [hend, hlow]
  refine ⟨hdone.loaded, hdone.imageEnd (hdone.toBounds.ne_nil hphdr), ?_⟩
  rintro ⟨ph, hph, hw⟩
  cases hrw : acc.rwMin with
  | none =>
      have hmem : ph.vaddr ∈ writableStarts (segments image h h.phnum) := ⟨ph, hph, hw, rfl⟩
      rw [hdone.unset hrw] at hmem
      exact hmem.elim
  | some lo => exact hdone.rwMin lo hrw

/-- Two segments: the headers, and data of four bytes with a tail of zeros that
runs into a second page. -/
def dataElf : List UInt8 :=
  elfMag ++ [2, 1, 1, 0] ++ zeros 8 ++ leBytes 2 2 ++ leBytes 2 0x3E ++ leBytes 4 1 ++
    leBytes 8 0x400000 ++ leBytes 8 64 ++ leBytes 8 0 ++ leBytes 4 0 ++ leBytes 2 64 ++
    leBytes 2 56 ++ leBytes 2 2 ++ leBytes 2 0 ++ leBytes 2 0 ++ leBytes 2 0 ++
    leBytes 4 1 ++ leBytes 4 5 ++ leBytes 8 0 ++ leBytes 8 0x400000 ++ leBytes 8 0x400000 ++
    leBytes 8 180 ++ leBytes 8 180 ++ leBytes 8 4096 ++
    leBytes 4 1 ++ leBytes 4 6 ++ leBytes 8 176 ++ leBytes 8 0x403FFA ++ leBytes 8 0x403FFA ++
    leBytes 8 4 ++ leBytes 8 0x100 ++ leBytes 8 4096 ++ [1, 2, 3, 4]

theorem dataElf_loads : ∃ md m',
    loadElfMapped flatWalker dataElf 0 (memInit [⟨1, 16, .usable⟩]) = .ok (0x400000, md) m' := by
  have hok : (returned (loadElfMapped flatWalker dataElf 0 (memInit [⟨1, 16, .usable⟩]))).map
      (·.1.1) = some 0x400000 := by decide +kernel
  obtain ⟨⟨entry, md⟩, m', hload, rfl⟩ := ok_of_returned hok
  exact ⟨md, m', hload⟩

theorem loadElfMapped_image_data : ∃ md m',
    loadElfMapped flatWalker dataElf 0 (memInit [⟨1, 16, .usable⟩]) = .ok (0x400000, md) m' ∧
      userLoad m' 0x403FFD = some 4 ∧ userLoad m' 0x404000 = some 0 ∧
      IsGreatest (ends (loadHeaders dataElf)) md.imageEnd ∧
      IsLeast (writableStarts (loadHeaders dataElf)) md.rwMin := by
  obtain ⟨md, m', hload⟩ := dataElf_loads
  have hdata : ⟨1, 6, 176, 0x403FFA, 4, 0x100, 4096⟩ ∈ loadHeaders dataElf := by decide +kernel
  have hlow : ∀ ph ∈ loadHeaders dataElf, ph.vaddr + ph.memsz ≤ 2 ^ 47 := by decide +kernel
  obtain ⟨hloaded, hend, hrw⟩ := (loadElfMapped_image_iff flatWalker dataElf _ m' _ md
    (memInit_safe _) hload (by decide +kernel)).mpr fun ph hph => .inl (hlow ph hph)
  have hbytes := (hloaded _ hdata).bytes
  refine ⟨md, m', hload, ?_, ?_, hend, hrw ⟨_, hdata, by decide⟩⟩
  · exact (hbytes 3 (by decide)).trans (by decide +kernel)
  · exact (hbytes 6 (by decide)).trans (by decide +kernel)

/-- The text of `dataElf` at an address of 48 bits with the highest bit set. -/
def upperElf : List UInt8 := patch dataElf 80 (leBytes 8 (2 ^ 47))

/-- The loader accepts it, reports that address, and puts the text elsewhere. -/
theorem loadElfMapped_image_elsewhere : (∀ ph ∈ loadHeaders upperElf, ph.filesz ≤ ph.memsz) ∧
    ⟨1, 5, 0, 2 ^ 47, 180, 180, 4096⟩ ∈ loadHeaders upperElf ∧
    ∃ md m', loadElfMapped flatWalker upperElf 0 (memInit [⟨1, 16, .usable⟩]) =
        .ok (0x400000, md) m' ∧
      md.phdr = 2 ^ 47 + 64 ∧ md.imageEnd = 2 ^ 47 + 180 ∧ upperElf[0]? = some 0x7F ∧
      userLoad m' (2 ^ 47) = none ∧ userLoad m' (2 ^ 64 - 2 ^ 47) = some 0x7F := by
  have hok : (returned (loadElfMapped flatWalker upperElf 0 (memInit [⟨1, 16, .usable⟩]))).map
      (fun r => (r.1.1, r.1.2.phdr, r.1.2.imageEnd, userLoad r.2 (2 ^ 47),
        userLoad r.2 (2 ^ 64 - 2 ^ 47))) =
      some (0x400000, 2 ^ 47 + 64, 2 ^ 47 + 180, none, some 0x7F) := by decide +kernel
  obtain ⟨⟨entry, md⟩, m', hload, hread⟩ := ok_of_returned hok
  simp only [Prod.mk.injEq] at hread
  obtain ⟨rfl, hphdr, hend, hraw, hupper⟩ := hread
  exact ⟨by decide +kernel, by decide +kernel, md, m', hload, hphdr, hend, by decide +kernel, hraw,
    hupper⟩

end Rockos.LoadedImage
