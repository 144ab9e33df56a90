import Rockos.LoadedPages
import Rockos.PointerChecks
import Rockos.Syscall

/-!
# The image part of the pointer checks

After a program is loaded, the checks know two numbers about it: where the image
ends, and where its lowest writable segment starts. Everything from the text
base to the end passes for readable, everything from the second number to the
end for writable. What the loader mapped are the pages of the segments. The two
agree when the segments, with what was mapped before, leave no hole.
-/
namespace Rockos.ImageChecks
open FallibleState PhysMemory Paging ElfLoader KernelState AddressSpace FrameAccounts LoadedImage
open LoadedPages PointerChecks Syscall

/-- The page of the address is mapped, and mapped for writing. -/
def Writable (m : Mem) (va : ℕ) : Prop :=
  ∃ e, m.pt.entries (pageOf va) = some e ∧ e.flags.writable = true

/-- A range that the read check accepts as part of the image is made of user pages. -/
def ReadsMapped (k : Kernel) : Prop :=
  ∀ addr len, userRegionIsReadableRange k addr len = true →
    userTextBase ≤ addr → addr + len ≤ k.mem.image.imageEnd →
    ∀ va, addr ≤ va → va < addr + len → UserMapped k.mem va

/-- A range that the write check accepts as part of the image is made of
writable pages. -/
def WritesMapped (k : Kernel) : Prop :=
  ∀ addr len, userRegionIsWritableRange k addr len = true →
    k.mem.image.rwImageStart ≤ addr → addr + len ≤ k.mem.image.imageEnd →
    ∀ va, addr ≤ va → va < addr + len → Writable k.mem va

/-! ## The bounds, page by page -/

/-- The page starts below the end of the image. -/
def BelowEnd (image : List UInt8) (q : ℕ) : Prop :=
  q * pageSize < userTextBase + pageSize ∨
    ∃ ph ∈ loadHeaders image, q * pageSize < ph.vaddr + ph.memsz

/-- The page ends above the start of the writable part. -/
def AboveWritable (image : List UInt8) (q : ℕ) : Prop :=
  (∃ ph ∈ loadHeaders image, ph.flags &&& 2 ≠ 0 ∧ ph.vaddr < (q + 1) * pageSize) ∨
    (∀ ph ∈ loadHeaders image, ph.flags &&& 2 = 0) ∧ userTextBase + pageSize < (q + 1) * pageSize

/-- The segments leave no hole: what they do not map was mapped before. -/
structure Covered (image : List UInt8) (m : Mem) : Prop where
  readable : ∀ q, pageOf userTextBase ≤ q → BelowEnd image q →
    (∃ ph ∈ loadHeaders image, q ∈ pages ph) ∨ UserMapped m (q * pageSize)
  writable : ∀ q, AboveWritable image q → BelowEnd image q →
    (∃ ph ∈ loadHeaders image, ph.flags &&& 2 ≠ 0 ∧ q ∈ pages ph) ∨ Writable m (q * pageSize)

section
variable {w : Walker} {image : List UInt8} {m m' : Mem} {va : ℕ}

theorem userMapped_iff (hp : Placed w (loadHeaders image) m.pt.entries m'.pt.entries) :
    UserMapped m' va ↔ (∃ ph ∈ loadHeaders image, pageOf va ∈ pages ph) ∨ UserMapped m va := by
  by_cases hin : ∃ ph ∈ loadHeaders image, pageOf va ∈ pages ph
  · obtain ⟨ph, hph, hq⟩ := id hin
    obtain ⟨f, hf⟩ := hp.entry ph hph _ hq
    exact ⟨fun _ => .inl hin, fun _ => ⟨_, hf, rfl, rfl⟩⟩
  · rw [or_iff_right hin, UserMapped, hp.others _ fun ph hph hq => hin ⟨ph, hph, hq⟩]
    rfl

theorem writable_iff (hp : Placed w (loadHeaders image) m.pt.entries m'.pt.entries) :
    Writable m' va ↔ (∃ ph ∈ loadHeaders image, ph.flags &&& 2 ≠ 0 ∧ pageOf va ∈ pages ph) ∨
      Writable m va := by
  by_cases hin : ∃ ph ∈ loadHeaders image, pageOf va ∈ pages ph
  · obtain ⟨ph, hph, hq⟩ := hin
    obtain ⟨f, hf⟩ := hp.entry ph hph _ hq
    constructor
    · rintro ⟨e, he, hw⟩
      rw [hf, Option.some.injEq] at he
      subst he
      exact .inl ⟨ph, hph, by simpa [segmentFlags] using hw, hq⟩
    · rintro (⟨ph', hph', hw, hq'⟩ | ⟨e, he, -⟩)
      · obtain ⟨f', hf'⟩ := hp.entry ph' hph' _ hq'
        exact ⟨_, hf', by simpa [segmentFlags] using hw⟩
      · rw [(hp.vacant ph hph _ hq).free] at he
        cases he
  · have hnone : ¬ ∃ ph ∈ loadHeaders image, ph.flags &&& 2 ≠ 0 ∧ pageOf va ∈ pages ph := by
      rintro ⟨ph, hph, -, hq⟩
      exact hin ⟨ph, hph, hq⟩
    rw [or_iff_right hnone, Writable, hp.others _ fun ph hph hq => hin ⟨ph, hph, hq⟩]
    rfl

/-- What the statics say after a program was loaded. -/
structure Summarised (image : List UInt8) (u : UserImage) : Prop where
  imageEnd : ∀ q, q * pageSize < u.imageEnd ↔ BelowEnd image q
  small : u.imageEnd < 2 ^ 64
  rwStart : ∀ q, u.rwImageStart < (q + 1) * pageSize ↔ AboveWritable image q
  nonempty : ∀ q, AboveWritable image q → BelowEnd image q → u.rwImageStart < u.imageEnd

theorem aboveWritable_iff_of_none (hnone : writableStarts (loadHeaders image) = ∅) (q : ℕ) :
    AboveWritable image q ↔ userTextBase + pageSize < (q + 1) * pageSize := by
  have hro : ∀ ph ∈ loadHeaders image, ph.flags &&& 2 = 0 := by
    intro ph hph
    by_contra hw
    have hmem : ph.vaddr ∈ writableStarts (loadHeaders image) := ⟨ph, hph, hw, rfl⟩
    rw [hnone] at hmem
    exact hmem.elim
  constructor
  · rintro (⟨ph, hph, hw, -⟩ | ⟨-, hq⟩)
    · exact absurd (hro ph hph) hw
    · exact hq
  · intro hq
    exact .inr ⟨hro, hq⟩

theorem aboveWritable_iff_of_least {lo : ℕ}
    (hleast : IsLeast (writableStarts (loadHeaders image)) lo) (q : ℕ) :
    AboveWritable image q ↔ lo < (q + 1) * pageSize := by
  obtain ⟨ph, hph, hw, hlo⟩ := hleast.1
  constructor
  · rintro (⟨ph', hph', hw', hq⟩ | ⟨hro, -⟩)
    · exact (hleast.2 ⟨ph', hph', hw', rfl⟩).trans_lt hq
    · exact absurd (hro ph hph) hw
  · intro hq
    exact .inl ⟨ph, hph, hw, by rwa [hlo]⟩

theorem loadElf_summarised {entry : ℕ} (hload : loadElf w image 0 m = .ok entry m') :
    Placed w (loadHeaders image) m.pt.entries m'.pt.entries ∧ Summarised image m'.image := by
  obtain ⟨md, m₁, hmapped, rfl⟩ := loadElf_parts hload
  obtain ⟨hplaced, hend, hlt, hrw⟩ := loadElfMapped_pages hmapped
  refine ⟨hplaced, ?_, max_lt hlt (by decide), ?_, ?_⟩
  · intro q
    simp only [applyUserMeta, setUserRwImageStart, setUserImageEnd, lt_max_iff, BelowEnd]
    rw [or_comm]
    apply or_congr_right
    constructor
    · intro hq
      obtain ⟨ph, hph, heq⟩ := hend.1
      exact ⟨ph, hph, heq ▸ hq⟩
    · rintro ⟨ph, hph, hq⟩
      exact hq.trans_le (hend.2 ⟨ph, hph, rfl⟩)
  · intro q
    rcases hrw with ⟨hnone, hrw⟩ | hleast
    · rw [aboveWritable_iff_of_none hnone, ← hrw]
      rfl
    · rw [aboveWritable_iff_of_least hleast]
      rfl
  · intro q habove hbelow
    simp only [applyUserMeta, setUserRwImageStart, setUserImageEnd, lt_max_iff]
    rcases hrw with ⟨hnone, hrw⟩ | hleast
    · -- a page above the first one is below the end, so the image is longer than one page
      rw [aboveWritable_iff_of_none hnone] at habove
      have hq : userTextBase + pageSize ≤ q * pageSize := by
        simp only [userTextBase, pageSize] at *
        omega
      rcases hbelow with hfirst | ⟨ph, hph, hq'⟩
      · omega
      · have hle : ph.vaddr + ph.memsz ≤ md.imageEnd := hend.2 ⟨ph, hph, rfl⟩
        exact .inl (by omega)
    · obtain ⟨ph, hph, -, hlo⟩ := hleast.1
      have hle : ph.vaddr + ph.memsz ≤ md.imageEnd := hend.2 ⟨ph, hph, rfl⟩
      have hpos := (segment_of_mem hph).2
      exact .inl (by omega)

end

/-! ## The checks -/

section
variable {k : Kernel} {image : List UInt8}

theorem readsMapped_iff (hsum : Summarised image k.mem.image) :
    ReadsMapped k ↔ ∀ q, pageOf userTextBase ≤ q → BelowEnd image q →
      UserMapped k.mem (q * pageSize) := by
  have hsmall := hsum.small
  constructor
  · intro hreads q hbase hbelow
    rw [← hsum.imageEnd] at hbelow
    have hlo : userTextBase ≤ q * pageSize := by
      simp only [userTextBase, pageOf, pageSize] at *
      omega
    refine hreads (q * pageSize) 1 ?_ hlo hbelow _ le_rfl (Nat.lt_succ_self _)
    simp only [userRegionIsReadableRange]
    rw [if_neg (by omega)]
    simp [hlo, Nat.succ_le_of_lt hbelow]
  · intro hpages addr len _ hlo hhi va hva hlt
    have hbase : pageOf userTextBase ≤ pageOf va := Nat.div_le_div_right (by omega)
    have hmul := pageOf_mul_le va
    have hpage := hpages (pageOf va) hbase ((hsum.imageEnd _).mp (by omega))
    rwa [UserMapped, PageEdits.pageOf_mul] at hpage

theorem writesMapped_iff (hsum : Summarised image k.mem.image) :
    WritesMapped k ↔ ∀ q, AboveWritable image q → BelowEnd image q →
      Writable k.mem (q * pageSize) := by
  have hsmall := hsum.small
  constructor
  · intro hwrites q habove hbelow
    have hnonempty := hsum.nonempty q habove hbelow
    rw [← hsum.imageEnd] at hbelow
    rw [← hsum.rwStart] at habove
    -- the first byte of the page that is in the writable part
    have hlt : max k.mem.image.rwImageStart (q * pageSize) < k.mem.image.imageEnd :=
      max_lt hnonempty hbelow
    have hpage : pageOf (max k.mem.image.rwImageStart (q * pageSize)) = q := by
      rw [pageOf, Nat.div_eq_iff (by decide)]
      simp only [pageSize] at *
      omega
    have hwrite := hwrites (max k.mem.image.rwImageStart (q * pageSize)) 1 (by
      simp only [userRegionIsWritableRange]
      rw [if_neg (by omega)]
      simp [Nat.succ_le_of_lt hlt]) (le_max_left _ _) hlt _ le_rfl (Nat.lt_succ_self _)
    rwa [Writable, hpage, ← PageEdits.pageOf_mul q] at hwrite
  · intro hpages addr len _ hlo hhi va hva hlt
    have hmul := pageOf_mul_le va
    have habove : k.mem.image.rwImageStart < (pageOf va + 1) * pageSize := by
      have := Nat.lt_div_mul_add (a := va) (show 0 < pageSize by decide)
      rw [Nat.add_mul, Nat.one_mul, pageOf]
      omega
    have hpage := hpages (pageOf va) ((hsum.rwStart _).mp habove)
      ((hsum.imageEnd _).mp (by omega))
    rwa [Writable, PageEdits.pageOf_mul] at hpage

end

/-- Both checks are sound for the image of a program if and only if its segments
leave no hole. -/
theorem image_checks_sound_iff (w : Walker) (image : List UInt8) (m m' : Mem) (entry : ℕ)
    (k : Kernel) (hload : loadElf w image 0 m = .ok entry m') (hk : k.mem = m') :
    ReadsMapped k ∧ WritesMapped k ↔ Covered image m := by
  obtain ⟨hplaced, hsum⟩ := loadElf_summarised hload
  subst hk
  rw [readsMapped_iff hsum, writesMapped_iff hsum]
  simp only [userMapped_iff hplaced, writable_iff hplaced, PageEdits.pageOf_mul]
  exact ⟨fun h => ⟨h.1, h.2⟩, fun h => ⟨h.readable, h.writable⟩⟩

theorem spinElf_loads : ∃ m', loadElf flatWalker spinElf 0 stackMapped = .ok 0x400078 m' := by
  have hok : (returned (loadElf flatWalker spinElf 0 stackMapped)).map (·.1) = some 0x400078 := by
    decide +kernel
  obtain ⟨entry, m', hload, rfl⟩ := ok_of_returned hok
  exact ⟨m', hload⟩

theorem spinElf_headers : loadHeaders spinElf = [⟨1, 5, 0, 0x400000, 122, 122, 4096⟩] := by
  decide +kernel

theorem image_checks_sound_spin : ∃ m',
    loadElf flatWalker spinElf 0 stackMapped = .ok 0x400078 m' ∧
      ReadsMapped (statics m') ∧ WritesMapped (statics m') := by
  obtain ⟨m', hload⟩ := spinElf_loads
  refine ⟨m', hload, (image_checks_sound_iff flatWalker spinElf stackMapped m' _ (statics m') hload
    rfl).mpr ⟨?_, ?_⟩⟩
  · intro q hbase hbelow
    left
    simp only [BelowEnd, spinElf_headers, List.mem_singleton, exists_eq_left] at *
    rw [mem_pages_of_lt (by decide)]
    simp only [PageEdits.pageRange, Set.mem_ofPred_eq, pageOf, userTextBase, pageSize] at *
    omega
  · intro q habove hbelow
    simp only [AboveWritable, BelowEnd, spinElf_headers, List.mem_singleton, exists_eq_left,
      show 5 &&& 2 = 0 from rfl, userTextBase, pageSize] at habove hbelow
    omega

/-- With text in one page and data three pages further, the page behind the
stack passes for readable and is not mapped. -/
theorem image_checks_gap : ∃ m',
    loadElf flatWalker dataElf 0 stackMapped = .ok 0x400000 m' ∧
      userRegionIsReadableRange (statics m') 0x402000 8 = true ∧
      m'.pt.entries 0x402 = none ∧ ¬ ReadsMapped (statics m') := by
  have hrun : (returned (loadElf flatWalker dataElf 0 stackMapped)).map (fun x =>
      (x.1, userRegionIsReadableRange (statics x.2) 0x402000 8, x.2.pt.entries 0x402,
        decide (0x402008 ≤ x.2.image.imageEnd))) = some (0x400000, true, none, true) := by
    decide +kernel
  obtain ⟨entry, m', hload, hx⟩ := ok_of_returned hrun
  simp only [Prod.mk.injEq, decide_eq_true_eq] at hx
  obtain ⟨rfl, hread, hnone, hend⟩ := hx
  refine ⟨m', hload, hread, hnone, fun hreads => ?_⟩
  obtain ⟨e, he, -⟩ := hreads 0x402000 8 hread (by decide) hend 0x402000 le_rfl (by decide)
  rw [show pageOf 0x402000 = 0x402 by decide] at he
  rw [show (statics m').mem = m' from rfl, hnone] at he
  cases he

end Rockos.ImageChecks
