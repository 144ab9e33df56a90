import Rockos.LoadedImage

/-!
# The address of the program headers

The loader reports the address of the header table for `AT_PHDR`. It takes the
last segment whose part of the file holds the first byte of the table, and does
not look at where the table ends. What a program reads past the end of that part
is whatever lies there in memory. The address is not sign-extended, although the
pages of the segment are.
-/
namespace Rockos.HeaderTable
open FallibleState PhysMemory Paging ElfLoader FrameSafety PageEdits UserMemory LoadedImage

/-! ## The last segment with a property -/

def lastSegment (p : ProgramHeader → Bool) (segs : List ProgramHeader) : Option ProgramHeader :=
  segs.reverse.find? p

section LastSegment
variable {p : ProgramHeader → Bool} {segs : List ProgramHeader} {ph : ProgramHeader}

theorem lastSegment_concat : lastSegment p (segs ++ [ph]) =
    if p ph = true then some ph else lastSegment p segs := by
  unfold lastSegment
  rw [List.reverse_append, List.reverse_singleton, List.singleton_append, List.find?_cons]
  cases p ph <;> rfl

theorem lastSegment_some (h : lastSegment p segs = some ph) : ph ∈ segs ∧ p ph = true :=
  ⟨List.mem_reverse.mp (List.mem_of_find?_eq_some h), List.find?_some h⟩

end LastSegment

/-! ## What the segments of an image show in memory -/

/-- The file part of the segment holds the first byte of the table. -/
def holdsTable (phoff : ℕ) (ph : ProgramHeader) : Bool :=
  phoff ≥ ph.offset ∧ phoff < saturatingAdd ph.offset ph.filesz

theorem holdsTable_iff {phoff : ℕ} {ph : ProgramHeader} : holdsTable phoff ph = true ↔
    phoff ≥ ph.offset ∧ phoff < saturatingAdd ph.offset ph.filesz :=
  decide_eq_true_iff

/-- One more segment over a memory: its file bytes, zeros on the rest of its pages,
and what was there before on the others. -/
def overlay (image : List UInt8) (old : ℕ → Option UInt8) (ph : ProgramHeader) (a : ℕ) :
    Option UInt8 :=
  (copiedByte ph.vaddr ph.filesz a).elim (if pageOf a ∈ pages ph then some 0 else old a)
    fun j => image[ph.offset + j]?

/-- The byte at an address once the segments lie over the memory `old`. -/
def shownByte (image : List UInt8) (segs : List ProgramHeader) (old : ℕ → Option UInt8) :
    ℕ → Option UInt8 :=
  segs.foldl (overlay image) old

theorem shownByte_concat (image : List UInt8) (segs : List ProgramHeader) (ph : ProgramHeader)
    (old : ℕ → Option UInt8) :
    shownByte image (segs ++ [ph]) old = overlay image (shownByte image segs old) ph :=
  List.foldl_concat ..

/-- What a load of the processor finds there. -/
def shownLoad (image : List UInt8) (segs : List ProgramHeader) (old : ℕ → Option UInt8) (a : ℕ) :
    Option UInt8 :=
  if canonical a then shownByte image segs old a else none

/-! ## The loop over the headers -/

def tableStart (phoff : ℕ) (ph : ProgramHeader) : ℕ := ph.vaddr + (phoff - ph.offset)

/-- The segments `done` lie over the memory `m₀`, and the last one that holds the
start of the table has set its address. -/
structure Overlaid (image : List UInt8) (phoff : ℕ) (m₀ : Mem) (done : List ProgramHeader)
    (acc : LoadAcc) (m : Mem) : Prop where
  safe : FrameSafe m
  bytes : ∀ a, userByte m a = shownByte image done (userByte m₀) a
  table : acc.phdrVa = (lastSegment (holdsTable phoff) done).map (tableStart phoff)

section Loop
variable {w : Walker} {image : List UInt8} {phoff : ℕ} {done : List ProgramHeader}
  {acc acc' : LoadAcc} {ph : ProgramHeader} {m₀ m m' : Mem} {h : FileHeader} {n : ℕ}

theorem tableAddress_overlaid {old : Option ℕ}
    (hold : old = (lastSegment (holdsTable phoff) done).map (tableStart phoff)) :
    tableAddress phoff ph old =
      (lastSegment (holdsTable phoff) (done ++ [ph])).map (tableStart phoff) := by
  rw [lastSegment_concat, tableAddress]
  by_cases hph : holdsTable phoff ph = true
  · rw [if_pos hph, if_pos (holdsTable_iff.mp hph)]
    rfl
  · rw [if_neg hph, if_neg fun hin => hph (holdsTable_iff.mpr hin)]
    exact hold

theorem Overlaid.segment (hdone : Overlaid image phoff m₀ done acc m) (hvaddr : ph.vaddr < 2 ^ 64)
    (hrun : loadSegment w image 0 phoff ph acc m = .ok acc' m') :
    Overlaid image phoff m₀ (done ++ [ph]) acc' m' := by
  obtain ⟨-, m₁, hfill, hsafe, -, -, hbytes, rfl⟩ := loadSegment_stages hdone.safe hvaddr hrun
  have hzeroed : ∀ a, userByte m₁ a =
      if pageOf a ∈ pages ph then some 0 else shownByte image done (userByte m₀) a := by
    intro a
    split_ifs with hpage
    · exact hfill.zero a hpage
    · rw [← hdone.bytes a]
      exact hfill.same a hpage
  constructor
  · exact hsafe
  · intro a
    rw [hbytes a, hzeroed a, shownByte_concat]
    rfl
  · exact tableAddress_overlaid hdone.table

theorem Overlaid.loop (hsafe : FrameSafe m)
    (hrun : countLoop (loadPhdr w image 0 h) 0 n ⟨0, none, none⟩ m = .ok acc m') :
    Overlaid image h.phoff m (segments image h n) acc m' := by
  have hloop := countLoop_ok (fun i acc t => Overlaid image h.phoff m (segments image h i) acc t)
    hrun ⟨hsafe, fun _ => rfl, rfl⟩ ?_
  · rwa [Nat.zero_add] at hloop
  intro i acc s acc' t _ hi hs hstep
  rcases (loadPhdr_cases hstep).2 with ⟨hsame, hacc, ht⟩ | ⟨hnew, -, hload⟩
  · rw [hsame, hacc, ht]
    exact hs
  · rw [hnew]
    exact hs.segment (field_lt _ 16 8) hload

theorem Overlaid.userLoad (hdone : Overlaid image phoff m₀ done acc m) (a : ℕ) :
    userLoad m a = shownLoad image done (userByte m₀) a := by
  rw [Paging.userLoad, shownLoad, hdone.bytes]

/-- The loop reads every header, so the table lies within the file. -/
theorem table_in_image
    (hrun : countLoop (loadPhdr w image 0 h) 0 n acc m = .ok acc' m') (hn : 0 < n)
    (hsize : h.phentsize = 56) : h.phoff + n * 56 ≤ image.length := by
  have hloop := countLoop_ok (fun i _ _ => 0 < i → h.phoff + i * 56 ≤ image.length) hrun
    (fun h0 => absurd h0 (lt_irrefl 0)) ?_
  · rw [Nat.zero_add] at hloop
    exact hloop hn
  intro i acc s acc' t _ _ _ hstep _
  have hbound := (loadPhdr_cases hstep).1
  rw [hsize] at hbound
  omega

end Loop

/-! ## The table in user memory -/

/-- The headers and the memory before the load show byte `j` of the table at its place
in the segment. -/
def ShowsByte (image : List UInt8) (m : Mem) (ph : ProgramHeader) (j : ℕ) : Prop :=
  shownLoad image (loadHeaders image) (userByte m) (tableStart (field image 32 8) ph + j) =
    image[field image 32 8 + j]?

/-- The memory at the reported address is the header table exactly when the segments
show it there: the one that holds the start of the table as far as it goes, and behind
it whatever lies there. -/
theorem header_table_iff (w : Walker) (image : List UInt8) (m m' : Mem) (entry : ℕ)
    (md : ElfLoadedMeta) (hsafe : FrameSafe m)
    (hload : loadElfMapped w image 0 m = .ok (entry, md) m') :
    (∀ j < field image 56 2 * 56, (userLoad m' (md.phdr + j)).isSome ∧
        userLoad m' (md.phdr + j) = image[field image 32 8 + j]?) ↔
      ∀ ph, lastSegment (holdsTable (field image 32 8)) (loadHeaders image) = some ph →
        ∀ j < field image 56 2 * 56, ShowsByte image m ph j := by
  obtain ⟨h, acc, phdr, hh, hloop, hphdr, -, hmd, -⟩ := loadElfMapped_parts hload
  have hdone := Overlaid.loop hsafe hloop
  rw [← loadHeaders_of_ok hh] at hdone
  obtain rfl := fileHeader_ok hh
  obtain ⟨ph, hlast, hstart⟩ := Option.map_eq_some_iff.mp (hdone.table.symm.trans hphdr)
  rw [hmd, ← hstart]
  constructor
  · intro hall ph' hlast' j hj
    obtain rfl := Option.some.inj (hlast.symm.trans hlast')
    rw [ShowsByte, ← hdone.userLoad]
    exact (hall j hj).2
  · intro hrest j hj
    have hbyte := hrest ph hlast j hj
    rw [ShowsByte, ← hdone.userLoad] at hbyte
    have hcount : 0 < field image 56 2 := by omega
    have hin : field image 32 8 + field image 56 2 * 56 ≤ image.length :=
      table_in_image hloop hcount rfl
    constructor
    · rw [hbyte, List.getElem?_eq_getElem (by omega)]
      rfl
    · exact hbyte

/-- If no address is sign-extended, the file part of the segment shows its part of the
table. -/
theorem showsByte_of_file {w : Walker} {image : List UInt8} {m m' : Mem} {entry : ℕ}
    {md : ElfLoadedMeta} (hsafe : FrameSafe m)
    (hload : loadElfMapped w image 0 m = .ok (entry, md) m')
    (hsizes : ∀ ph ∈ loadHeaders image, ph.filesz ≤ ph.memsz ∧ Addressable ph)
    {ph : ProgramHeader}
    (hlast : lastSegment (holdsTable (field image 32 8)) (loadHeaders image) = some ph) {j : ℕ}
    (hj : field image 32 8 + j < ph.offset + ph.filesz) : ShowsByte image m ph j := by
  obtain ⟨h, acc, phdr, hh, hloop, -⟩ := loadElfMapped_parts hload
  obtain ⟨hmem, hholds⟩ := lastSegment_some hlast
  have hstart : ph.offset ≤ field image 32 8 := (holdsTable_iff.mp hholds).1
  have hsize := (hsizes ph hmem).1
  rw [ShowsByte, loadHeaders_of_ok hh, ← (Overlaid.loop hsafe hloop).userLoad]
  rw [loadHeaders_of_ok hh] at hsizes hmem
  have hbyte := ((Progress.loop hsizes hsafe hloop).loaded ph hmem).bytes
    (field image 32 8 - ph.offset + j) (by omega)
  rw [if_pos (by omega), ← Nat.add_assoc, ← Nat.add_assoc, Nat.add_sub_cancel' hstart] at hbyte
  exact hbyte

theorem header_table_iff_data : ∃ md m',
    loadElfMapped flatWalker dataElf 0 (memInit [⟨1, 16, .usable⟩]) = .ok (0x400000, md) m' ∧
      ∀ j < 112, (userLoad m' (md.phdr + j)).isSome ∧
        userLoad m' (md.phdr + j) = dataElf[64 + j]? := by
  obtain ⟨md, m', hload⟩ := dataElf_loads
  have htext : lastSegment (holdsTable (field dataElf 32 8)) (loadHeaders dataElf) =
      some ⟨1, 5, 0, 0x400000, 180, 180, 4096⟩ := by decide +kernel
  have hphoff : field dataElf 32 8 = 64 := by decide +kernel
  have hphnum : field dataElf 56 2 = 2 := by decide +kernel
  have hlow : ∀ ph ∈ loadHeaders dataElf,
      ph.filesz ≤ ph.memsz ∧ ph.vaddr + ph.memsz ≤ 2 ^ 47 := by decide +kernel
  have htable := (header_table_iff flatWalker dataElf _ m' _ md (memInit_safe _) hload).mpr
  rw [hphoff, hphnum] at htable
  refine ⟨md, m', hload, htable ?_⟩
  intro ph hlast j hj
  rw [← hphoff] at hlast
  apply showsByte_of_file (memInit_safe _) hload
    (fun ph hph => ⟨(hlow ph hph).1, .inl (hlow ph hph).2⟩) hlast
  -- the first segment holds 180 bytes of the file, and the table ends at 176
  obtain rfl := Option.some.inj (htext.symm.trans hlast)
  rw [hphoff]
  dsimp only
  omega

/-- The first segment stops after the first header. -/
def shortElf : List UInt8 := patch (patch dataElf 96 (leBytes 8 120)) 104 (leBytes 8 120)

/-- The second header of the file starts with the byte 1, the memory at its place
is zero. -/
theorem header_table_cut : (∀ ph ∈ loadHeaders shortElf, ph.filesz ≤ ph.memsz) ∧
    field shortElf 56 2 = 2 ∧ shortElf[field shortElf 32 8 + 56]? = some 1 ∧
    ∃ md m', loadElfMapped flatWalker shortElf 0 (memInit [⟨1, 16, .usable⟩]) =
        .ok (0x400000, md) m' ∧ userLoad m' (md.phdr + 56) = some 0 := by
  have hok : (returned (loadElfMapped flatWalker shortElf 0 (memInit [⟨1, 16, .usable⟩]))).map
      (fun r => (r.1.1, userLoad r.2 (r.1.2.phdr + 56))) = some (0x400000, some 0) := by
    decide +kernel
  obtain ⟨⟨entry, md⟩, m', hload, hread⟩ := ok_of_returned hok
  obtain ⟨rfl, hbyte⟩ := Prod.mk.inj hread
  exact ⟨by decide +kernel, by decide +kernel, by decide +kernel, md, m', hload, hbyte⟩

end Rockos.HeaderTable
