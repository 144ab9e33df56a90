import Rockos.FrameAccounts
import Rockos.LoadedImage

/-!
# Which pages the ELF loader maps

The loader is followed through the page table alone, on every exit. It stops at
a header it cannot use, at a page that is taken, or at file bytes that are
missing; whatever it mapped until then stays mapped. An address that is not
canonical even after sign extension is a panic, and running out of frames is kept
apart, since neither depends on what is mapped.

Nothing is assumed about the headers: the file part of a segment may be longer
than its memory, and then its bytes go to whatever is mapped behind it.
-/
namespace Rockos.LoadedPages
open FallibleState PhysMemory Paging ElfLoader PageEdits FrameAccounts LoadedImage

/-! ## Addresses -/

section
variable {α : Type} {P : Mem → Prop} {Q : α → Mem → Prop} {Err : Stop → Mem → Prop}

theorem meets_addU64_bind {a b : ℕ} {f : ℕ → MemM α}
    (hpanic : 2 ^ 64 ≤ a + b → ∀ m, P m → Err .panic m)
    (h : a + b < 2 ^ 64 → Meets P (f (a + b)) Q Err) : Meets P (addU64 a b >>= f) Q Err := by
  unfold addU64
  split_ifs with hlt
  · exact h hlt
  · exact hpanic (not_lt.mp hlt)

/-- The segment holds the start of the header table, but the table's address
does not fit in 64 bits. -/
def PhdrOverflows (phoff : ℕ) (ph : ProgramHeader) (seg : ℕ) : Prop :=
  (ph.offset ≤ phoff ∧ phoff < saturatingAdd ph.offset ph.filesz) ∧
    2 ^ 64 ≤ seg + (phoff - ph.offset)

theorem meets_phdrAddress_bind {phoff seg : ℕ} {ph : ProgramHeader} {old : Option ℕ}
    {f : Option ℕ → MemM α} (hpanic : PhdrOverflows phoff ph seg → ∀ m, P m → Err .panic m)
    (h : ¬ PhdrOverflows phoff ph seg → ∀ va, Meets P (f va) Q Err) :
    Meets P (phdrAddress phoff ph seg old >>= f) Q Err := by
  unfold phdrAddress
  split_ifs with hin
  · rw [bind_assoc]
    exact meets_addU64_bind (fun hover => hpanic ⟨hin, hover⟩)
      fun hlt => h (fun hover => absurd hover.2 (not_le.mpr hlt)) _
  · exact h (fun hover => hin hover.1) _

end

/-! ## The pages of one segment -/

/-- The pages `done` were vacant and are mapped now; no other page has changed. -/
structure Maps (w : Walker) (done : List ℕ) (flags : PageTableFlags) (E E' : ℕ → Option Entry) :
    Prop where
  vacant : ∀ q ∈ done, Vacant w E q
  entry : ∀ q ∈ done, ∃ f, E' q = some ⟨f, flags⟩
  others : ∀ q ∉ done, E' q = E q

section
variable {w : Walker} {first last page : ℕ} {done : List ℕ} {flags : PageTableFlags}
  {E E' : ℕ → Option Entry}

theorem Maps.nil : Maps w [] flags E E :=
  ⟨by simp, by simp, fun _ _ => rfl⟩

theorem Maps.next (h : Maps w done flags E E') (hnew : page ∉ done) (hvacant : Vacant w E' page)
    (f : ℕ) : Maps w (done ++ [page]) flags E (Function.update E' page (some ⟨f, flags⟩)) := by
  constructor
  · intro q hq
    rcases List.mem_append.mp hq with hold | hlast
    · exact h.vacant q hold
    · rw [List.mem_singleton.mp hlast]
      exact ⟨by rw [← h.others page hnew, hvacant.free], hvacant.clear⟩
  · intro q hq
    by_cases heq : q = page
    · exact ⟨f, by rw [heq, Function.update_self]⟩
    · rw [Function.update_of_ne heq]
      exact h.entry q ((List.mem_append.mp hq).resolve_right fun hlast =>
        heq (List.mem_singleton.mp hlast))
  · intro q hq
    rw [List.mem_append, List.mem_singleton, not_or] at hq
    rw [Function.update_of_ne hq.2]
    exact h.others q hq.1

theorem Maps.isSome_iff (h : Maps w done flags E E') {q : ℕ} :
    (E' q).isSome ↔ (E q).isSome ∨ q ∈ done := by
  by_cases hq : q ∈ done
  · obtain ⟨f, hf⟩ := h.entry q hq
    simp [hf, hq]
  · rw [h.others q hq, or_iff_left hq]

theorem zeroedPage_meets (hnew : page ∉ done) :
    Meets (fun m => Maps w done flags E m.pt.entries) (zeroedPage w page flags)
      (fun _ m => Maps w (done ++ [page]) flags E m.pt.entries)
      (fun _ m => Maps w done flags E m.pt.entries ∧ (Refused w E page ∨ spare m = 0)) := by
  intro m hm
  rw [zeroedPage, bind_run]
  rcases takeFrame_counts (.err "frame OOM") m with ⟨hzero, hrun⟩ | ⟨f, fa, -, hrun, -⟩
  · rw [hrun]
    exact ⟨hm, .inr hzero⟩
  rw [hrun]
  have hmap : Meets _ (mapErr "map_to" (mapTo w page f flags)) _ _ :=
    meets_mapErr (mapTo_meets w page f flags (E := m.pt.entries))
  refine (hmap.mono (fun _ h => h) ?_ ?_) (zeroFrame f { m with fa := fa }) rfl
  · rintro _ t ⟨hvacant, ht⟩
    rw [ht]
    exact hm.next hnew hvacant f
  · rintro _ t ⟨ht, hstop⟩
    refine ⟨by rwa [ht], hstop.imp_left fun href => ?_⟩
    rwa [Refused, hm.others page hnew] at href

theorem mapSegment_meets (hfirst : CanonicalPage first) (hlast : CanonicalPage last) :
    Meets (fun m => m.pt.entries = E) (mapSegment w first last flags)
      (fun _ m => Maps w (pageList first last) flags E m.pt.entries)
      (fun _ m => ∃ done page rest, pageList first last = done ++ page :: rest ∧
        Maps w done flags E m.pt.entries ∧ (Refused w E page ∨ spare m = 0)) := by
  refine (meets_forPages_list (fun page => zeroedPage w page flags) hfirst hlast
    (fun done m => Maps w done flags E m.pt.entries) ?_).mono ?_ (fun _ _ h => h) (fun _ _ h => h)
  · intro done page rest hsplit
    exact (zeroedPage_meets (not_mem_before hsplit)).mono (fun _ h => h) (fun _ _ h => h)
      fun _ _ h => ⟨done, page, rest, hsplit, h⟩
  · rintro m rfl
    exact Maps.nil

end

/-! ## The bytes of one segment -/

section
variable (image : List UInt8) (ph : ProgramHeader) (mapped : ℕ → Prop)

/-- Byte `j` is in the file, and its page is mapped. -/
def ByteReady (j : ℕ) : Prop :=
  ph.offset + j < image.length ∧ mapped (pageOf (signExtend (ph.vaddr + j)))

/-- One of the two addresses of byte `j` overflows, or `VirtAddr::new` refuses the
second, which is not formed if the first is behind the end of the file. -/
def ByteOverflows (j : ℕ) : Prop :=
  2 ^ 64 ≤ ph.offset + j ∨
    ph.offset + j < image.length ∧
      (2 ^ 64 ≤ ph.vaddr + j ∨ canonical (signExtend (ph.vaddr + j)) = false)

end

def Present (m : Mem) (q : ℕ) : Prop := (m.pt.entries q).isSome

section
variable {image : List UInt8} {ph : ProgramHeader} {j : ℕ}

theorem copySegmentByte_of_overflow (h : ByteOverflows image ph j) (t : Mem) :
    copySegmentByte image ph.vaddr ph.offset j t = .error .panic t := by
  unfold copySegmentByte addU64 virtAddr
  by_cases hoff : ph.offset + j < 2 ^ 64
  · rcases h with h | ⟨hin, h⟩
    · omega
    rw [if_pos hoff, pure_bind, if_neg (not_le.mpr hin)]
    by_cases hva : ph.vaddr + j < 2 ^ 64
    · rcases h with h | h
      · omega
      rw [if_pos hva, pure_bind, if_neg (by simp [h])]
      rfl
    · rw [if_neg hva]
      rfl
  · rw [if_neg hoff]
    rfl

theorem copySegmentByte_of_not_overflow (h : ¬ ByteOverflows image ph j) (t : Mem) :
    (¬ ByteReady image ph (Present t) j ∧ ∃ reason,
        copySegmentByte image ph.vaddr ph.offset j t = .error (.err reason) t) ∨
      ByteReady image ph (Present t) j ∧
        ∃ phys, translateAddr t (signExtend (ph.vaddr + j)) = some phys ∧
        copySegmentByte image ph.vaddr ph.offset j t =
          .ok () (writePhys phys (image.getD (ph.offset + j) 0) t) := by
  unfold ByteOverflows at h
  rw [not_or, not_le] at h
  obtain ⟨hoff, h⟩ := h
  unfold copySegmentByte addU64 virtAddr
  rw [if_pos hoff, pure_bind]
  by_cases hin : ph.offset + j < image.length
  · have hva : ph.vaddr + j < 2 ^ 64 := not_le.mp fun hover => h ⟨hin, .inl hover⟩
    have hcanonical : canonical (signExtend (ph.vaddr + j)) = true := by
      by_contra hnot
      exact h ⟨hin, .inr (by simpa using hnot)⟩
    rw [if_neg (not_le.mpr hin), if_pos hva, pure_bind, if_pos hcanonical, pure_bind, bind_run,
      get_run]
    have hsome : (translateAddr t (signExtend (ph.vaddr + j))).isSome ↔
        Present t (pageOf (signExtend (ph.vaddr + j))) := by
      rw [translateAddr, Option.isSome_map, Present]
    cases htr : translateAddr t (signExtend (ph.vaddr + j)) with
    | none =>
        left
        refine ⟨fun hready => ?_, "translate", by simp [htr]⟩
        have hmapped := hsome.mpr hready.2
        simp [htr] at hmapped
    | some phys =>
        right
        exact ⟨⟨hin, hsome.mp (Option.isSome_of_mem htr)⟩, phys, rfl, by simp [htr]⟩
  · rw [if_pos (not_lt.mp hin)]
    exact .inl ⟨fun hready => hin hready.1, _, rfl⟩

end

/-- The bytes to be copied are in the file, and their pages are mapped. -/
def Backed (image : List UInt8) (ph : ProgramHeader) (E : ℕ → Option Entry) : Prop :=
  ∀ j < ph.filesz,
    ph.offset + j < image.length ∧ (E (pageOf (signExtend (ph.vaddr + j)))).isSome

theorem copySegment_meets (image : List UInt8) (ph : ProgramHeader) (E : ℕ → Option Entry) :
    Meets (fun m => m.pt.entries = E) (copySegment image ph.vaddr ph.offset ph.filesz)
      (fun _ m => m.pt.entries = E ∧ Backed image ph E)
      (fun e m => m.pt.entries = E ∧ (e = .panic ∨ ¬ Backed image ph E)) := by
  rw [copySegment]
  refine (meets_countLoop (fun i _ m => m.pt.entries = E ∧
    ∀ j < i, ByteReady image ph (fun q => (E q).isSome) j) 0 ph.filesz () ?_).mono ?_ ?_
    (fun _ _ h => h)
  · rintro i _ - hi m ⟨rfl, hall⟩
    by_cases hover : ByteOverflows image ph i
    · rw [copySegmentByte_of_overflow hover]
      exact ⟨rfl, .inl rfl⟩
    · rcases copySegmentByte_of_not_overflow hover m with
        ⟨hnot, reason, hrun⟩ | ⟨hready, phys, -, hrun⟩
      · rw [hrun]
        exact ⟨rfl, .inr fun hback => hnot (hback i (by omega))⟩
      · rw [hrun]
        refine ⟨rfl, fun j hj => ?_⟩
        rcases Nat.lt_succ_iff_lt_or_eq.mp hj with hlt | rfl
        · exact hall j hlt
        · exact hready
  · intro m hm
    exact ⟨hm, fun j hj => absurd hj (Nat.not_lt_zero j)⟩
  · rintro _ m ⟨hm, hall⟩
    exact ⟨hm, by rwa [Nat.zero_add] at hall⟩

/-! ## One segment -/

/-- All pages of the segment have been mapped. -/
def Mapped (w : Walker) (ph : ProgramHeader) (E E' : ℕ → Option Entry) : Prop :=
  Maps w (pages ph) (segmentFlags ph.flags) E E'

/-- An address of the segment as a whole overflows, or `VirtAddr::new` refuses it. -/
def BadBounds (phoff : ℕ) (ph : ProgramHeader) : Prop :=
  PhdrOverflows phoff ph ph.vaddr ∨ ¬ InBounds ph

/-- A segment with bad bounds panics; of any other, the pages are mapped and then
the bytes are copied. -/
theorem meets_loadSegment {w : Walker} {image : List UInt8} {phoff : ℕ} {ph : ProgramHeader}
    {acc : LoadAcc} {P : Mem → Prop} {Q : LoadAcc → Mem → Prop} {Err : Stop → Mem → Prop}
    (hvaddr : ph.vaddr < 2 ^ 64) (hpanic : BadBounds phoff ph → ∀ m, P m → Err .panic m)
    (h : ¬ BadBounds phoff ph → ∀ phdrVa, Meets P (do
      mapSegment w (pageOf (signExtend ph.vaddr))
        (pageOf (signExtend (signExtend (ph.vaddr + ph.memsz) - 1))) (segmentFlags ph.flags)
      copySegment image ph.vaddr ph.offset ph.filesz
      pure ⟨max acc.imageEnd (ph.vaddr + ph.memsz),
        if ph.flags &&& 2 ≠ 0 then some (acc.rwMin.elim ph.vaddr (min · ph.vaddr)) else acc.rwMin,
        phdrVa⟩) Q Err) :
    Meets P (loadSegment w image 0 phoff ph acc) Q Err := by
  simp only [loadSegment, Nat.add_zero, Nat.mod_eq_of_lt hvaddr]
  apply meets_phdrAddress_bind (fun hover => hpanic (.inl hover))
  intro hphdr phdrVa
  apply meets_virtAddr_bind (fun hc => hpanic (.inr fun hb => by simp [hb.start] at hc))
  intro hstart
  apply meets_addU64_bind (fun hover => hpanic (.inr fun hb => absurd hb.fits (not_lt.mpr hover)))
  intro hfits
  apply meets_virtAddr_bind (fun hc => hpanic (.inr fun hb => by simp [hb.stop] at hc))
  intro hstop
  apply meets_virtAddr_bind (fun hc => hpanic (.inr fun hb => by simp [hb.last] at hc))
  intro hlast
  apply h
  rintro (hbad | hbad)
  · exact hphdr hbad
  · exact hbad ⟨hstart, hfits, hstop, hlast⟩

/-- How a segment can stop the loader. -/
inductive Blocks (w : Walker) (image : List UInt8) (ph : ProgramHeader)
    (E E' : ℕ → Option Entry) : Prop
  | page (done : List ℕ) (p : ℕ) (rest : List ℕ) (hsplit : pages ph = done ++ p :: rest)
      (hmaps : Maps w done (segmentFlags ph.flags) E E') (href : Refused w E p)
  | bytes (hmaps : Mapped w ph E E') (hback : ¬ Backed image ph E')

theorem loadSegment_meets (w : Walker) (image : List UInt8) (phoff : ℕ) (ph : ProgramHeader)
    (acc : LoadAcc) (hvaddr : ph.vaddr < 2 ^ 64) (E : ℕ → Option Entry) :
    Meets (fun m => m.pt.entries = E) (loadSegment w image 0 phoff ph acc)
      (fun acc' m => (Mapped w ph E m.pt.entries ∧ Backed image ph m.pt.entries ∧ InBounds ph) ∧
        acc'.imageEnd = max acc.imageEnd (ph.vaddr + ph.memsz) ∧
        acc'.rwMin = (if ph.flags &&& 2 ≠ 0 then some (acc.rwMin.elim ph.vaddr (min · ph.vaddr))
          else acc.rwMin))
      (fun e m => e = .panic ∨ spare m = 0 ∨ Blocks w image ph E m.pt.entries) := by
  apply meets_loadSegment hvaddr (fun _ _ _ => .inl rfl)
  intro hbad phdrVa
  have hbounds : InBounds ph := not_not.mp fun hnot => hbad (.inr hnot)
  refine meets_bind (Q := fun _ m => Mapped w ph E m.pt.entries) ?_ fun _ => ?_
  · refine (mapSegment_meets (canonicalPage_pageOf hbounds.start)
      (canonicalPage_pageOf hbounds.last)).mono (fun _ h => h) (fun _ _ h => h) ?_
    rintro e m ⟨done, p, rest, hsplit, hmaps, href | hzero⟩
    · exact .inr (.inr (.page done p rest hsplit hmaps href))
    · exact .inr (.inl hzero)
  · intro m hm
    refine meets_bind (Q := fun _ m' => m'.pt.entries = m.pt.entries ∧ Backed image ph m.pt.entries)
      ((copySegment_meets image ph m.pt.entries).mono (fun _ h => h) (fun _ _ h => h) ?_)
      (fun _ => meets_pure _ ?_) m rfl
    · rintro e t ⟨ht, he | hback⟩
      · exact .inl he
      · exact .inr (.inr (.bytes (by rwa [ht]) (by rwa [ht])))
    · rintro t ⟨ht, hback⟩
      rw [ht]
      exact ⟨⟨hm, hback, hbounds⟩, rfl, rfl⟩

/-! ## The headers -/

/-- Header `i` lies in the file and does not ask for a strange alignment. -/
structure Readable (image : List UInt8) (h : FileHeader) (i : ℕ) : Prop where
  present : h.phoff + i * h.phentsize + 56 ≤ image.length
  align : (headerAt image h i).type = 1 →
    (headerAt image h i).align = 0 ∨ (headerAt image h i).align = 4096

def Segment (ph : ProgramHeader) : Prop := ph.type = 1 ∧ ph.memsz ≠ 0

instance (ph : ProgramHeader) : Decidable (Segment ph) := inferInstanceAs (Decidable (_ ∧ _))

theorem segment_of_mem {image : List UInt8} {ph : ProgramHeader} (h : ph ∈ loadHeaders image) :
    Segment ph := by
  unfold loadHeaders at h
  cases hh : fileHeader image with
  | error reason => simp [hh] at h
  | ok hdr =>
      rw [hh] at h
      exact (mem_segments.mp h).2

/-- The header table up to header `i` ends below `2 ^ 64`. -/
def TableFits (h : FileHeader) (i : ℕ) : Prop := h.phoff + i * h.phentsize + 56 < 2 ^ 64

/-- The ways through one iteration of the header loop. -/
theorem meets_loadPhdr {w : Walker} {image : List UInt8} {h : FileHeader} {i : ℕ} {acc : LoadAcc}
    {P : Mem → Prop} {Q : LoadAcc → Mem → Prop} {Err : Stop → Mem → Prop}
    (hpanic : ¬ TableFits h i → ∀ m, P m → Err .panic m)
    (herror : TableFits h i → ¬ Readable image h i → ∀ reason m, P m → Err (.err reason) m)
    (hskip : TableFits h i → Readable image h i → ¬ Segment (headerAt image h i) →
      ∀ m, P m → Q acc m)
    (hseg : TableFits h i → Readable image h i → Segment (headerAt image h i) →
      Meets P (loadSegment w image 0 h.phoff (headerAt image h i) acc) Q Err) :
    Meets P (loadPhdr w image 0 h i acc) Q Err := by
  apply meets_addU64_bind
  · intro hover
    exact hpanic fun htable => absurd htable (by unfold TableFits; omega)
  intro _
  apply meets_addU64_bind
  · intro hover
    exact hpanic (not_lt.mpr hover)
  intro htable
  apply meets_ite
  · intro hoob
    exact meets_throw _ (herror htable (fun hread => absurd hread.present (not_le.mpr hoob)) _)
  intro hpresent
  apply meets_ite
  · intro htype
    apply meets_pure
    exact hskip htable ⟨not_lt.mp hpresent, fun ht => absurd ht htype⟩ (fun hs => htype hs.1)
  intro htype
  apply meets_ite
  · intro halign
    apply meets_throw
    apply herror htable
    intro hread
    exact (hread.align (not_not.mp htype)).elim halign.1 halign.2
  intro halign
  have hread : Readable image h i := by
    refine ⟨not_lt.mp hpresent, fun _ => ?_⟩
    by_contra hnot
    rw [not_or] at hnot
    exact halign hnot
  apply meets_ite
  · intro hmem
    apply meets_pure
    exact hskip htable hread (fun hs => hs.2 hmem)
  intro hmem
  exact hseg htable hread ⟨not_not.mp htype, hmem⟩

/-- What a header that the loader gets past does to the page table. -/
structure Passed (w : Walker) (image : List UInt8) (h : FileHeader) (i : ℕ)
    (E E' : ℕ → Option Entry) : Prop where
  readable : Readable image h i
  segment : Segment (headerAt image h i) →
    Mapped w (headerAt image h i) E E' ∧ Backed image (headerAt image h i) E' ∧
      InBounds (headerAt image h i)
  other : ¬ Segment (headerAt image h i) → E' = E

/-- What a header that stops the loader leaves behind. -/
inductive Stopped (w : Walker) (image : List UInt8) (h : FileHeader) (i : ℕ)
    (E E' : ℕ → Option Entry) : Prop
  | header (hsame : E' = E) (hbad : ¬ Readable image h i)
  | segment (hread : Readable image h i) (hseg : Segment (headerAt image h i))
      (hblock : Blocks w image (headerAt image h i) E E')

theorem loadPhdr_meets (w : Walker) (image : List UInt8) (h : FileHeader) (i : ℕ)
    {done : List ProgramHeader} {acc : LoadAcc} (hbounds : Bounds done acc)
    (E : ℕ → Option Entry) :
    Meets (fun m => m.pt.entries = E) (loadPhdr w image 0 h i acc)
      (fun acc' m => Passed w image h i E m.pt.entries ∧
        Bounds (done ++ if Segment (headerAt image h i) then [headerAt image h i] else []) acc')
      (fun e m => e = .panic ∨ spare m = 0 ∨ Stopped w image h i E m.pt.entries) := by
  apply meets_loadPhdr
  · exact fun _ _ _ => .inl rfl
  · exact fun _ hbad _ m hm => .inr (.inr (.header hm hbad))
  · intro _ hread hseg m hm
    rw [if_neg hseg, List.append_nil]
    exact ⟨⟨hread, fun hs => absurd hs hseg, fun _ => hm⟩, hbounds⟩
  intro _ hread hseg
  apply (loadSegment_meets w image h.phoff (headerAt image h i) acc (field_lt _ 16 8) E).mono
    (fun _ hm => hm)
  · rintro acc' m ⟨hdone, hend, hrw⟩
    rw [if_pos hseg]
    exact ⟨⟨hread, fun _ => hdone, fun hs => absurd hseg hs⟩, hbounds.segment hend hrw⟩
  · rintro e m (he | hzero | hblock)
    · exact .inl he
    · exact .inr (.inl hzero)
    · exact .inr (.inr (.segment hread hseg hblock))

/-! ## The loop over the headers -/

/-- The pages of the segments `done` were vacant and are mapped with the flags of
their segment; no other page has changed. -/
structure Placed (w : Walker) (done : List ProgramHeader) (E E' : ℕ → Option Entry) : Prop where
  vacant : ∀ ph ∈ done, ∀ q ∈ pages ph, Vacant w E q
  entry : ∀ ph ∈ done, ∀ q ∈ pages ph, ∃ f, E' q = some ⟨f, segmentFlags ph.flags⟩
  others : ∀ q, (∀ ph ∈ done, q ∉ pages ph) → E' q = E q

section
variable {w : Walker} {image : List UInt8} {h : FileHeader} {done : List ProgramHeader}
  {ph : ProgramHeader} {E E' E'' : ℕ → Option Entry} {q : ℕ}

theorem Placed.nil : Placed w [] E E :=
  ⟨by simp, by simp, fun _ _ => rfl⟩

theorem Placed.isSome_iff (hp : Placed w done E E') :
    (E' q).isSome ↔ (E q).isSome ∨ ∃ ph ∈ done, q ∈ pages ph := by
  by_cases hin : ∃ ph ∈ done, q ∈ pages ph
  · obtain ⟨ph, hph, hq⟩ := hin
    obtain ⟨f, hf⟩ := hp.entry ph hph q hq
    simp only [hf, Option.isSome_some, true_iff]
    exact .inr ⟨ph, hph, hq⟩
  · rw [hp.others q fun ph hph hq => hin ⟨ph, hph, hq⟩]
    exact (or_iff_left hin).symm

theorem Placed.vacant_iff (hp : Placed w done E E') :
    Vacant w E' q ↔ Vacant w E q ∧ ∀ ph ∈ done, q ∉ pages ph := by
  constructor
  · intro hv
    have hout : ∀ ph ∈ done, q ∉ pages ph := by
      intro ph hph hq
      obtain ⟨f, hf⟩ := hp.entry ph hph q hq
      rw [hv.free] at hf
      cases hf
    exact ⟨⟨by rw [← hp.others q hout, hv.free], hv.clear⟩, hout⟩
  · rintro ⟨hv, hout⟩
    exact ⟨by rw [hp.others q hout, hv.free], hv.clear⟩

theorem Placed.segment (hp : Placed w done E E') (hm : Mapped w ph E' E'') :
    Placed w (done ++ [ph]) E E'' := by
  constructor
  · intro ph' hph q hq
    rcases List.mem_append.mp hph with hold | hnew
    · exact hp.vacant ph' hold q hq
    · rw [List.mem_singleton.mp hnew] at hq
      exact (hp.vacant_iff.mp (Maps.vacant hm q hq)).1
  · intro ph' hph q hq
    rcases List.mem_append.mp hph with hold | hnew
    · -- a page of an earlier segment is mapped, so it is not mapped again
      obtain ⟨f, hf⟩ := hp.entry ph' hold q hq
      refine ⟨f, ?_⟩
      rw [Maps.others hm q fun hin => ?_, hf]
      rw [(Maps.vacant hm q hin).free] at hf
      cases hf
    · rw [List.mem_singleton.mp hnew] at hq ⊢
      exact Maps.entry hm q hq
  · intro q hq
    rw [Maps.others hm q (hq ph (by simp)), hp.others q fun ph' hph => hq ph' (by simp [hph])]

theorem Placed.passed {i : ℕ} (hp : Placed w done E E') (hpass : Passed w image h i E' E'') :
    Placed w (done ++ if Segment (headerAt image h i) then [headerAt image h i] else []) E E'' := by
  split_ifs with hseg
  · exact hp.segment (hpass.segment hseg).1
  · rw [List.append_nil, hpass.other hseg]
    exact hp

/-- The loader gets past header `i`, if it has got past the earlier ones. -/
def Passable (w : Walker) (image : List UInt8) (h : FileHeader) (E : ℕ → Option Entry) (i : ℕ) :
    Prop :=
  ∃ E₁ E₂, Placed w (segments image h i) E E₁ ∧ Passed w image h i E₁ E₂

/-- The loader gets through the first `n` headers, or stops at one of them after
it has got through the earlier ones. -/
theorem headers_meets (w : Walker) (image : List UInt8) (h : FileHeader) (n : ℕ)
    (E : ℕ → Option Entry) :
    Meets (fun m => m.pt.entries = E) (countLoop (loadPhdr w image 0 h) 0 n ⟨0, none, none⟩)
      (fun acc m => Placed w (segments image h n) E m.pt.entries ∧ Bounds (segments image h n) acc ∧
        ∀ i < n, Passable w image h E i)
      (fun e m => e = .panic ∨ spare m = 0 ∨ ∃ i < n,
        (∀ j < i, Passable w image h E j) ∧ ∃ E₁,
          Placed w (segments image h i) E E₁ ∧ Stopped w image h i E₁ m.pt.entries) := by
  refine (meets_countLoop (fun i acc m => Placed w (segments image h i) E m.pt.entries ∧
    Bounds (segments image h i) acc ∧ ∀ j < i, Passable w image h E j) 0 n _ ?_).mono ?_
      (fun _ _ hI => by rwa [Nat.zero_add] at hI) (fun _ _ he => he)
  swap
  · rintro m rfl
    exact ⟨Placed.nil, Bounds.nil, fun j hj => absurd hj (by omega)⟩
  rintro i acc - hi m ⟨hplaced, hbounds, hdone⟩
  refine ((loadPhdr_meets w image h i hbounds m.pt.entries).mono (fun _ hm => hm) ?_ ?_) m rfl
  · rintro acc' t ⟨hpass, hbounds'⟩
    refine ⟨?_, ?_, ?_⟩
    · rw [segments_succ]
      exact hplaced.passed hpass
    · rw [segments_succ]
      exact hbounds'
    · intro j hj
      rcases Nat.lt_succ_iff_lt_or_eq.mp hj with hlt | rfl
      · exact hdone j hlt
      · exact ⟨_, _, hplaced, hpass⟩
  · rintro e t (he | hzero | hstop)
    · exact .inl he
    · exact .inr (.inl hzero)
    · exact .inr (.inr ⟨i, by omega, hdone, _, hplaced, hstop⟩)

end

/-- The pages of an accepted program, and the two numbers that summarise them. -/
theorem loadElfMapped_pages {w : Walker} {image : List UInt8} {m m' : Mem} {entry : ℕ}
    {md : ElfLoadedMeta} (hload : loadElfMapped w image 0 m = .ok (entry, md) m') :
    Placed w (loadHeaders image) m.pt.entries m'.pt.entries ∧
      IsGreatest (ends (loadHeaders image)) md.imageEnd ∧ md.imageEnd < 2 ^ 64 ∧
      (writableStarts (loadHeaders image) = ∅ ∧ md.rwMin = userTextBase + pageSize ∨
        IsLeast (writableStarts (loadHeaders image)) md.rwMin) := by
  obtain ⟨h, acc, phdr, hh, hloop, hphdr, -, -, hend, hlow⟩ := loadElfMapped_parts hload
  have hdone := headers_meets w image h h.phnum m.pt.entries m rfl
  rw [hloop] at hdone
  obtain ⟨hplaced, hbounds, hpass⟩ := hdone
  have hgreatest := hbounds.imageEnd (hbounds.ne_nil hphdr)
  rw [loadHeaders_of_ok hh, hend, hlow]
  refine ⟨hplaced, hgreatest, ?_, ?_⟩
  · obtain ⟨ph, hph, hend⟩ := hgreatest.1
    obtain ⟨⟨i, hi, rfl⟩, hseg⟩ := mem_segments.mp hph
    obtain ⟨_, _, -, hi⟩ := hpass i hi
    exact hend ▸ (hi.segment hseg).2.2.fits
  cases hrw : acc.rwMin with
  | none => exact .inl ⟨hbounds.unset hrw, rfl⟩
  | some lo => exact .inr (hbounds.rwMin lo hrw)

theorem loadElf_parts {entry : ℕ} {w : Walker} {image : List UInt8} {m m' : Mem}
    (h : loadElf w image 0 m = .ok entry m') : ∃ md t,
    loadElfMapped w image 0 m = .ok (entry, md) t ∧ m' = applyUserMeta md t := by
  rw [loadElf] at h
  obtain ⟨⟨entry, md⟩, t, hmapped, h⟩ := bind_ok h
  obtain ⟨rfl, rfl⟩ := EStateM.Result.ok.inj h
  exact ⟨md, t, hmapped, rfl⟩

/-- The memory of a machine that has just mapped its user stack. -/
def stackMapped : Mem := final (mapUserStack flatWalker (memInit [⟨1, 16, .usable⟩]))

/-- There, a page needs one frame and no table. -/
theorem missing_lt_spare {m : Mem} (h : (allocateFrame m.fa).isSome) (page : ℕ) :
    flatWalker.missing m.pt.tables page < spare m := by
  rw [show flatWalker.missing m.pt.tables page = 0 from rfl]
  refine Nat.pos_of_ne_zero fun hzero => ?_
  rw [allocateFrame_eq_none.mpr hzero] at h
  cases h

end Rockos.LoadedPages
