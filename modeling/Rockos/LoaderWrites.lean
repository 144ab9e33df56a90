import Rockos.FrameUse
import Rockos.LoaderOutcome

/-!
# Where the ELF loader writes (elf.rs)

The loader writes in two places. It zeroes each frame that it has taken for a page
of the segment, and it copies the file bytes to wherever their addresses are
mapped. Pages are made for `p_memsz` bytes but `p_filesz` bytes are copied, and
nothing compares the two. So the bytes stay in the frames of the segment exactly
if none of them spills into a page that was mapped before.

The loader never reads the memory it fills. What it writes is therefore what can
change when it runs, whatever the memory held.
-/
namespace Rockos.LoaderWrites
open FallibleState PhysMemory Paging ElfLoader PageEdits FrameAccounts FrameSafety UserMemory
open FrameUse LoadedImage LoadedPages SegmentOutcome LoaderOutcome
open BootFallback (SameRam)

/-! ## Writes to frames that were just taken -/

/-- The frames of `data` were taken, and no byte outside of them has changed. -/
structure FreshWrites (data : Set ℕ) (s t : Mem) : Prop where
  takes : TakesFrames data s t
  ram : ∀ pa, pa / pageSize ∉ data → t.ram pa = s.ram pa

/-- A step of the loader that stays in its own frames: a byte that has changed is in
a frame that the step took for data, and a page that was mapped reads as before. -/
structure Clean (s t : Mem) : Prop where
  own : ∃ data, FreshWrites data s t
  old : ∀ va, (s.pt.entries (pageOf va)).isSome → userByte t va = userByte s va

section
variable {s t u : Mem} {d d' : Set ℕ}

theorem FreshWrites.refl (s : Mem) : FreshWrites ∅ s s :=
  ⟨sameFrames_of_eq rfl rfl, fun _ _ => rfl⟩

theorem FreshWrites.trans (h : FreshWrites d s t) (h' : FreshWrites d' t u) :
    FreshWrites (d ∪ d') s u := by
  constructor
  · exact h.takes.trans h'.takes
  · intro pa hpa
    rw [Set.mem_union, not_or] at hpa
    rw [h'.ram pa hpa.2, h.ram pa hpa.1]

theorem FreshWrites.unused (h : FreshWrites d s t) {f : ℕ} (hf : f ∈ d) : used s.fa f = false := by
  obtain ⟨new, hspends⟩ := h.takes
  exact hspends.fresh f (.inl hf)

/-- The frame of a mapped page is in use, so it is not one of the fresh ones. -/
theorem FreshWrites.frame_notMem (h : FreshWrites d s t) (hsafe : FrameSafe s) {q : ℕ} {e : Entry}
    (he : s.pt.entries q = some e) : e.frame ∉ d := by
  intro hmem
  have hused := hsafe.exclusive.marked q e he
  rw [h.unused hmem] at hused
  cases hused

theorem frame_of_addr (f va : ℕ) : (f * pageSize + va % pageSize) / pageSize = f := by
  have hpos : 0 < pageSize := by decide
  rw [Nat.add_div_of_dvd_right (Nat.dvd_mul_left _ _), Nat.mul_div_cancel _ hpos,
    Nat.div_eq_of_lt (Nat.mod_lt va hpos), Nat.add_zero]

theorem FreshWrites.clean (h : FreshWrites d s t) (hsafe : FrameSafe s)
    (hentries : ∀ q, (s.pt.entries q).isSome → t.pt.entries q = s.pt.entries q) : Clean s t := by
  refine ⟨⟨d, h⟩, ?_⟩
  intro va hva
  obtain ⟨e, he⟩ := Option.isSome_iff_exists.mp hva
  rw [userByte, userByte, translateAddr, translateAddr, hentries _ hva, he]
  simp only [Option.map_some]
  rw [h.ram]
  rw [frame_of_addr]
  exact h.frame_notMem hsafe he

end

/-! ## The pages of a segment -/

section
variable {w : Walker} {first last page : ℕ} {done : List ℕ} {flags : PageTableFlags} {s t : Mem}

theorem mapTo_ram (w : Walker) (page frame : ℕ) (flags : PageTableFlags) :
    Within SameRam (mapTo w page frame flags) :=
  within_mapTo (fun _ _ => rfl) (fun _ _ => rfl) w page frame flags

/-- A zeroed page writes only to the frame it takes. -/
theorem zeroedPage_fresh (w : Walker) (page : ℕ) (flags : PageTableFlags) (t : Mem) :
    Meets (fun t' => t' = t) (zeroedPage w page flags)
      (fun _ t' => ∃ f, FreshWrites {f} t t' ∧
        t'.pt.entries = Function.update t.pt.entries page (some ⟨f, flags⟩))
      (fun _ t' => (∃ d, FreshWrites d t t') ∧ t'.pt.entries = t.pt.entries) := by
  intro t₀ ht₀
  rw [ht₀]
  rcases takeFrame_counts (.err "frame OOM") t with ⟨-, hrun⟩ | ⟨f, fa, -, hrun, -⟩
  · rw [zeroedPage, bind_of_error hrun]
    exact ⟨⟨∅, FreshWrites.refl t⟩, rfl⟩
  rw [zeroedPage, bind_of_ok hrun, bind_of_ok (modify_run _ _)]
  have hfresh : ∀ t', SameFrames (zeroFrame f { t with fa := fa }) t' →
      SameRam (zeroFrame f { t with fa := fa }) t' → FreshWrites {f} t t' := by
    intro t' hframes hram
    have hzero : SameFrames { t with fa := fa } (zeroFrame f { t with fa := fa }) :=
      sameFrames_of_eq rfl rfl
    constructor
    · have htakes := ((takeFrame_takes hrun).trans hzero).trans hframes
      rwa [Set.union_empty, Set.union_empty] at htakes
    · intro pa hpa
      rw [hram]
      exact if_neg hpa
  have hframes : Within SameFrames (mapErr "map_to" (mapTo w page f flags)) :=
    within_mapErr (mapTo_frames w page f flags)
  have hram : Within SameRam (mapErr "map_to" (mapTo w page f flags)) :=
    within_mapErr (mapTo_ram w page f flags)
  have hentries : Meets _ (mapErr "map_to" (mapTo w page f flags)) _ _ :=
    meets_mapErr (mapTo_meets w page f flags (E := t.pt.entries))
  have hend := hfresh _ (hframes (zeroFrame f { t with fa := fa })) (hram _)
  have hpage := hentries (zeroFrame f { t with fa := fa }) rfl
  cases hmap : mapErr "map_to" (mapTo w page f flags) (zeroFrame f { t with fa := fa }) with
  | ok _ t' =>
      rw [hmap] at hend hpage
      exact ⟨f, hend, hpage.2⟩
  | error e t' =>
      rw [hmap] at hend hpage
      exact ⟨⟨{f}, hend⟩, hpage.1⟩

/-- The pages `done` have been made, on frames that were just taken. -/
structure Laid (w : Walker) (flags : PageTableFlags) (s : Mem) (done : List ℕ) (t : Mem) :
    Prop where
  maps : Maps w done flags s.pt.entries t.pt.entries
  frames : ∃ d, FreshWrites d s t ∧ ∀ q ∈ done, ∃ f ∈ d, t.pt.entries q = some ⟨f, flags⟩

theorem Laid.start (w : Walker) (flags : PageTableFlags) (s : Mem) : Laid w flags s [] s :=
  ⟨Maps.nil, ∅, FreshWrites.refl s, by simp⟩

theorem Maps.old {E E' : ℕ → Option Entry} (h : Maps w done flags E E') {q : ℕ}
    (hq : (E q).isSome) : E' q = E q := by
  apply h.others
  intro hmem
  rw [(h.vacant q hmem).free] at hq
  cases hq

/-- What is left when the page loop stops early. -/
def LaidInPart (s t : Mem) : Prop :=
  (∃ d, FreshWrites d s t) ∧ ∀ q, (s.pt.entries q).isSome → t.pt.entries q = s.pt.entries q

theorem Laid.inPart (h : Laid w flags s done t) : LaidInPart s t := by
  obtain ⟨d, hfresh, -⟩ := h.frames
  exact ⟨⟨d, hfresh⟩, fun q hq => Maps.old h.maps hq⟩

theorem Laid.step (hw : Steady w) (h : Laid w flags s done t) (hnew : page ∉ done) :
    Meets (fun t' => t' = t) (zeroedPage w page flags)
      (fun _ => Laid w flags s (done ++ [page])) (fun _ => LaidInPart s) := by
  apply ((zeroedPage_fresh w page flags t).and (zeroedPage_outcome hw page flags t)).mono
  · exact fun _ ht => ⟨ht, ht⟩
  · rintro _ t' ⟨⟨f, hfresh, hentries⟩, -, hvacant, -⟩
    obtain ⟨d, hfresh₀, hpages⟩ := h.frames
    constructor
    · rw [hentries]
      exact h.maps.next hnew hvacant f
    · refine ⟨d ∪ {f}, hfresh₀.trans hfresh, ?_⟩
      intro q hq
      rw [hentries]
      by_cases heq : q = page
      · rw [heq, Function.update_self]
        exact ⟨f, .inr rfl, rfl⟩
      · rw [Function.update_of_ne heq]
        obtain ⟨g, hg, hentry⟩ := hpages q ((List.mem_append.mp hq).resolve_right fun hlast =>
          heq (List.mem_singleton.mp hlast))
        exact ⟨g, .inl hg, hentry⟩
  · rintro e t' ⟨⟨⟨d', hfresh⟩, hentries⟩, -⟩
    obtain ⟨⟨d, hfresh₀⟩, hold⟩ := h.inPart
    refine ⟨⟨d ∪ d', hfresh₀.trans hfresh⟩, fun q hq => ?_⟩
    rw [hentries]
    exact hold q hq

theorem mapSegment_laid (hw : Steady w) (hfirst : CanonicalPage first)
    (hlast : CanonicalPage last) (flags : PageTableFlags) (s : Mem) :
    Meets (fun t => t = s) (mapSegment w first last flags)
      (fun _ => Laid w flags s (pageList first last)) (fun _ => LaidInPart s) := by
  refine (meets_forPages_list (fun page => zeroedPage w page flags) hfirst hlast
    (Laid w flags s) ?_).mono ?_ (fun _ _ h => h) (fun _ _ h => h)
  · intro done page rest hsplit t h
    exact h.step hw (not_mem_before hsplit) t rfl
  · intro t ht
    rw [ht]
    exact Laid.start w flags s

/-- All pages are there exactly if nothing has stopped the loop. -/
theorem mapSegment_end (hw : Steady w) (hfirst : CanonicalPage first) (hlast : CanonicalPage last)
    (flags : PageTableFlags) {s : Mem} (hsafe : FrameSafe s) :
    Meets (fun t => t = s) (mapSegment w first last flags)
      (fun _ t => PagesPass (here w s) (pageList first last) ∧ FrameSafe t ∧
        Laid w flags s (pageList first last) t)
      (fun _ t => LaidInPart s t ∧ ¬ PagesPass (here w s) (pageList first last)) := by
  intro t ht
  have hlaid := mapSegment_laid hw hfirst hlast flags s t ht
  have hend := mapSegment_outcome hw hfirst hlast flags s t ht
  have hkeep := mapSegment_safe w first last flags t (by rwa [ht])
  cases hrun : mapSegment w first last flags t with
  | ok _ t' =>
      rw [hrun] at hlaid hend hkeep
      exact ⟨hend.1, hkeep, hlaid⟩
  | error e t' =>
      rw [hrun] at hlaid hend
      obtain ⟨-, done, hfail, -⟩ := hend
      exact ⟨hlaid, fun hpass => hpass.not_fail hfail⟩

end

/-! ## The bytes of a segment -/

/-- Byte `j` can be copied. -/
def Stored (image : List UInt8) (ph : ProgramHeader) (mapped : ℕ → Prop) (j : ℕ) : Prop :=
  ByteReady image ph mapped j ∧ ¬ ByteOverflows image ph j

/-- The first `n` bytes of the segment have been stored, and nothing else. -/
structure Copied (image : List UInt8) (ph : ProgramHeader) (s : Mem) (n : ℕ) (t : Mem) :
    Prop extends AtByte image ph s n t where
  ram : ∀ pa, (∀ k < n, translateAddr s (signExtend (ph.vaddr + k)) ≠ some pa) →
    t.ram pa = s.ram pa
  bytes : ∀ k < n, userByte t (signExtend (ph.vaddr + k)) = some (image.getD (ph.offset + k) 0)

section
variable {image : List UInt8} {ph : ProgramHeader} {s t : Mem} {n : ℕ}

theorem Copied.start (s : Mem) : Copied image ph s 0 s :=
  ⟨AtByte.start s, fun _ _ => rfl, fun k hk => absurd hk (Nat.not_lt_zero k)⟩

theorem Copied.stored (h : Copied image ph s n t) {k : ℕ} (hk : k < n) :
    Stored image ph (Present s) k :=
  ⟨h.ready k hk, h.quiet k hk⟩

theorem Stored.canonical {mapped : ℕ → Prop} {j : ℕ} (h : Stored image ph mapped j) :
    canonical (signExtend (ph.vaddr + j)) = true := by
  by_contra hnot
  exact h.2 (.inr ⟨h.1.1, .inr (by simpa using hnot)⟩)

/-- Bytes that are copied one after the other go to different addresses. -/
theorem signExtend_ne_of_stored {mapped : ℕ → Prop} {k n : ℕ} (hlt : k < n)
    (hstored : ∀ i ≤ n, Stored image ph mapped i) :
    signExtend (ph.vaddr + k) ≠ signExtend (ph.vaddr + n) := by
  intro heq
  -- then `2 ^ 48`, which is not canonical, is between the two
  have hsides : ph.vaddr + k < 2 ^ 48 ∧ 2 ^ 48 ≤ ph.vaddr + n := by
    unfold signExtend at heq
    split_ifs at heq <;> omega
  have hgap := (hstored (2 ^ 48 - ph.vaddr) (by omega)).canonical
  rw [show ph.vaddr + (2 ^ 48 - ph.vaddr) = 2 ^ 48 by omega] at hgap
  exact absurd hgap (by decide)

theorem Copied.next (hsafe : FrameSafe s) (h : Copied image ph s n t)
    (hover : ¬ ByteOverflows image ph n) (hready : ByteReady image ph (Present s) n) {phys : ℕ}
    (hphys : translateAddr t (signExtend (ph.vaddr + n)) = some phys) :
    Copied image ph s (n + 1) (writePhys phys (image.getD (ph.offset + n) 0) t) := by
  have hsafe' : FrameSafe t := by
    unfold FrameSafe
    rw [h.fa, h.pt]
    exact hsafe
  have hphys' : translateAddr s (signExtend (ph.vaddr + n)) = some phys := by
    rw [← hphys, translateAddr, translateAddr, h.pt]
  have hstored : ∀ i ≤ n, Stored image ph (Present s) i := by
    intro i hi
    rcases Nat.lt_or_eq_of_le hi with hlt | rfl
    · exact h.stored hlt
    · exact ⟨hready, hover⟩
  refine ⟨h.toAtByte.next hover hready _ _, ?_, ?_⟩
  · intro pa hpa
    have hne : pa ≠ phys := by
      intro heq
      exact hpa n (Nat.lt_succ_self n) (by rw [hphys', heq])
    have hold := h.ram pa fun k hk => hpa k (Nat.lt_succ_of_lt hk)
    exact (Function.update_of_ne hne _ _).trans hold
  · intro k hk
    rw [userByte_writePhys hsafe' hphys]
    by_cases hkn : k = n
    · rw [if_pos (by rw [hkn]), hkn]
    · rw [if_neg (signExtend_ne_of_stored (by omega) hstored)]
      exact h.bytes k (by omega)

/-- The copy loop stores the bytes up to the first that cannot be copied. -/
def CopiedUpTo (image : List UInt8) (ph : ProgramHeader) (s t : Mem) : Prop :=
  ∃ n ≤ ph.filesz, Copied image ph s n t ∧
    ∀ j < ph.filesz, (∀ k ≤ j, Stored image ph (Present s) k) → j < n

theorem copySegment_copied (image : List UInt8) (ph : ProgramHeader) (hsafe : FrameSafe s) :
    Meets (fun t => t = s) (copySegment image ph.vaddr ph.offset ph.filesz)
      (fun _ => CopiedUpTo image ph s) (fun _ => CopiedUpTo image ph s) := by
  rw [copySegment]
  refine (meets_countLoop (fun j _ => Copied image ph s j) 0 ph.filesz () ?_).mono ?_ ?_
    (fun _ _ h => h)
  · intro n _ _ hn t h
    -- the loop stops at a byte that cannot be copied
    have hstop : ¬ Stored image ph (Present s) n → CopiedUpTo image ph s t := by
      intro hnot
      refine ⟨n, by omega, h, fun j _ hall => ?_⟩
      by_contra hge
      exact hnot (hall n (not_lt.mp hge))
    by_cases hover : ByteOverflows image ph n
    · rw [copySegmentByte_of_overflow hover]
      exact hstop fun hstored => hstored.2 hover
    · have hcases := copySegmentByte_of_not_overflow hover t
      rw [h.present] at hcases
      rcases hcases with ⟨hnot, reason, hrun⟩ | ⟨hready, phys, hphys, hrun⟩
      · rw [hrun]
        exact hstop fun hstored => hnot hstored.1
      · rw [hrun]
        exact h.next hsafe hover hready hphys
  · intro t ht
    rw [ht]
    exact Copied.start s
  · intro _ t h
    rw [Nat.zero_add] at h
    exact ⟨ph.filesz, le_rfl, h, fun j hj _ => hj⟩

end

/-! ## One header -/

/-- How a segment leaves memory: its pages are not all there and nothing was
copied, or they are and the bytes have been copied to where they are mapped. -/
inductive SegmentEnd (w : Walker) (image : List UInt8) (phoff : ℕ) (ph : ProgramHeader)
    (s t : Mem) : Prop
  | part (hpart : LaidInPart s t)
      (hnot : BadBounds phoff ph ∨ ¬ PagesPass (here w s) (pages ph))
  | full (hbounds : ¬ BadBounds phoff ph) (hpages : PagesPass (here w s) (pages ph)) (laid : Mem)
      (hlaid : Laid w (segmentFlags ph.flags) s (pages ph) laid)
      (hcopied : CopiedUpTo image ph laid t)

theorem LaidInPart.refl (s : Mem) : LaidInPart s s := ⟨⟨∅, FreshWrites.refl s⟩, fun _ _ => rfl⟩

theorem loadSegment_end {w : Walker} (hw : Steady w) (image : List UInt8) (phoff : ℕ)
    {ph : ProgramHeader} (acc : LoadAcc) (hvaddr : ph.vaddr < 2 ^ 64) {s : Mem}
    (hsafe : FrameSafe s) :
    Meets (fun t => t = s) (loadSegment w image 0 phoff ph acc)
      (fun _ => SegmentEnd w image phoff ph s) (fun _ => SegmentEnd w image phoff ph s) := by
  apply meets_loadSegment hvaddr
  · intro hbad t ht
    rw [ht]
    exact .part (LaidInPart.refl s) (.inl hbad)
  intro hbounds _
  have hin : InBounds ph := not_not.mp fun hnot => hbounds (.inr hnot)
  apply meets_bind ((mapSegment_end hw (canonicalPage_pageOf hin.start)
    (canonicalPage_pageOf hin.last) (segmentFlags ph.flags) hsafe).mono (fun _ h => h)
    (fun _ _ h => h) (fun _ _ h => .part h.1 (.inr h.2)))
  rintro _ t ⟨hpages, hsafe', hlaid⟩
  apply meets_bind (P := fun t' => t' = t) (Q := fun _ => SegmentEnd w image phoff ph s) ?_ ?_ t rfl
  · exact (copySegment_copied image ph hsafe').mono (fun _ h => h)
      (fun _ _ h => .full hbounds hpages t hlaid h) (fun _ _ h => .full hbounds hpages t hlaid h)
  · exact fun _ => meets_pure _ fun _ h => h

/-- How a header leaves memory. -/
inductive HeaderEnd (w : Walker) (image : List UInt8) (h : FileHeader) (i : ℕ) (s t : Mem) : Prop
  | none (hsame : t = s)
      (hnot : ¬ (TableFits h i ∧ Readable image h i ∧ Segment (headerAt image h i)))
  | segment (hheader : TableFits h i ∧ Readable image h i ∧ Segment (headerAt image h i))
      (hend : SegmentEnd w image h.phoff (headerAt image h i) s t)

theorem loadPhdr_end {w : Walker} (hw : Steady w) (image : List UInt8) (h : FileHeader) (i : ℕ)
    (acc : LoadAcc) {s : Mem} (hsafe : FrameSafe s) :
    HeaderEnd w image h i s (final (loadPhdr w image 0 h i acc s)) := by
  apply Meets.both (P := fun t => t = s) ?_ rfl
  apply meets_loadPhdr
  · exact fun htable _ ht => .none ht fun hall => htable hall.1
  · exact fun _ hread _ _ ht => .none ht fun hall => hread hall.2.1
  · exact fun _ _ hseg _ ht => .none ht fun hall => hseg hall.2.2
  · intro htable hread hseg
    exact (loadSegment_end hw image h.phoff acc (field_lt _ 16 8) hsafe).mono
      (fun _ ht => ht) (fun _ _ hend => .segment ⟨htable, hread, hseg⟩ hend)
      (fun _ _ hend => .segment ⟨htable, hread, hseg⟩ hend)

/-! ## Bytes that spill -/

/-- Byte `j` of the segment is copied to a page that is not the segment's own. -/
structure SpillsAt (image : List UInt8) (h : FileHeader) (i : ℕ) (v : View) (j : ℕ) : Prop where
  header : TableFits h i ∧ Readable image h i ∧ Segment (headerAt image h i)
  bounds : ¬ BadBounds h.phoff (headerAt image h i)
  pages : PagesPass v (LoadedImage.pages (headerAt image h i))
  lt : j < (headerAt image h i).filesz
  stored : ∀ k ≤ j, Stored image (headerAt image h i) (mappedWith (headerAt image h i) v) k
  outside : pageOf (signExtend ((headerAt image h i).vaddr + j)) ∉
    LoadedImage.pages (headerAt image h i)

section
variable {w : Walker} {image : List UInt8} {h : FileHeader} {i : ℕ} {s t : Mem}

/-- A file part that is no longer than the memory part does not spill, unless the
segment reaches over the addresses in the middle. -/
theorem SpillsAt.memsz_lt {v : View} {j : ℕ} (hspill : SpillsAt image h i v j)
    (hunbroken : Unbroken (headerAt image h i)) :
    (headerAt image h i).memsz < (headerAt image h i).filesz := by
  by_contra hle
  have hj := hspill.lt
  have hbounds : InBounds (headerAt image h i) :=
    not_not.mp fun hnot => hspill.bounds (.inr hnot)
  exact hspill.outside (hunbroken.mem_pages hbounds (by omega))

/-- Bytes that stay in the pages of the segment stay in the fresh frames. -/
theorem Laid.clean_of_copied {ph : ProgramHeader} {laid : Mem} (hsafe : FrameSafe s)
    (hlaid : Laid w (segmentFlags ph.flags) s (pages ph) laid) {n : ℕ}
    (hcopied : Copied image ph laid n t)
    (hinside : ∀ k < n, pageOf (signExtend (ph.vaddr + k)) ∈ pages ph) : Clean s t := by
  obtain ⟨d, hfresh, hframes⟩ := hlaid.frames
  have hcopy : FreshWrites d s t := by
    constructor
    · have hsame : SameFrames laid t := sameFrames_of_eq hcopied.fa (by rw [hcopied.pt])
      have htakes := hfresh.takes.trans hsame
      rwa [Set.union_empty] at htakes
    · intro pa hpa
      rw [← hfresh.ram pa hpa]
      apply hcopied.ram
      intro k hk hphys
      obtain ⟨f, hf, hentry⟩ := hframes _ (hinside k hk)
      rw [translateAddr, hentry, Option.map_some, Option.some.injEq] at hphys
      rw [← hphys, frame_of_addr] at hpa
      exact hpa hf
  apply hcopy.clean hsafe
  intro q hq
  rw [hcopied.pt]
  exact Maps.old hlaid.maps hq

/-- A header that does not spill stays in its own frames. -/
theorem HeaderEnd.clean (hsafe : FrameSafe s) (hend : HeaderEnd w image h i s t)
    (hnone : ∀ j, ¬ SpillsAt image h i (here w s) j) : Clean s t := by
  cases hend with
  | none hsame _ =>
      rw [hsame]
      exact (FreshWrites.refl s).clean hsafe fun _ _ => rfl
  | segment hheader hend =>
      cases hend with
      | part hpart _ =>
          obtain ⟨⟨d, hfresh⟩, hold⟩ := hpart
          exact hfresh.clean hsafe hold
      | full hbounds hpages laid hlaid hcopied =>
          obtain ⟨n, hn, hcopied, -⟩ := hcopied
          apply hlaid.clean_of_copied hsafe hcopied
          intro k hk
          by_contra hout
          refine hnone k ⟨hheader, hbounds, hpages, by omega, fun k' hk' => ?_, hout⟩
          rw [← present_iff_mappedWith hlaid.maps]
          exact hcopied.stored (by omega)

/-- A byte that spills arrives. -/
theorem HeaderEnd.spilled {j : ℕ} (hend : HeaderEnd w image h i s t)
    (hspill : SpillsAt image h i (here w s) j) :
    userByte t (signExtend ((headerAt image h i).vaddr + j)) =
      some (image.getD ((headerAt image h i).offset + j) 0) := by
  cases hend with
  | none _ hnot => exact absurd hspill.header hnot
  | segment _ hend =>
      cases hend with
      | part _ hnot =>
          rcases hnot with hbad | hpages
          · exact absurd hbad hspill.bounds
          · exact absurd hspill.pages hpages
      | full _ _ laid hlaid hcopied =>
          obtain ⟨n, -, hcopied, hlast⟩ := hcopied
          apply hcopied.bytes
          apply hlast j hspill.lt
          rw [present_iff_mappedWith hlaid.maps]
          exact hspill.stored

/-- A page that is not the segment's own was mapped before. -/
theorem SpillsAt.mapped {v : View} {j : ℕ} (hspill : SpillsAt image h i v j) :
    v.mapped (pageOf (signExtend ((headerAt image h i).vaddr + j))) := by
  rcases (hspill.stored j le_rfl).1.2 with hmapped | hown
  · exact hmapped
  · exact absurd hown hspill.outside

end

/-! ## The whole call -/

/-- A program writes only to frames it has just taken: whatever memory holds when it
starts, the other frames keep it. -/
def WritesOwn {α : Type} (x : MemM α) (s : Mem) : Prop :=
  ∀ ram, Clean { s with ram := ram } (final (x { s with ram := ram }))

theorem writesOwn_iff {w : Walker} (hw : Steady w) (image : List UInt8) (h : FileHeader) (i : ℕ)
    (acc : LoadAcc) {s : Mem} (hsafe : FrameSafe s) :
    WritesOwn (loadPhdr w image 0 h i acc) s ↔ ∀ j, ¬ SpillsAt image h i (here w s) j := by
  have hend : ∀ ram, HeaderEnd w image h i { s with ram := ram }
      (final (loadPhdr w image 0 h i acc { s with ram := ram })) := by
    intro ram
    exact loadPhdr_end hw image h i acc hsafe
  constructor
  · intro hown j hspill
    -- a memory that holds something else at the place of the byte
    obtain ⟨b, hb⟩ : ∃ b, b = image.getD ((headerAt image h i).offset + j) 0 := ⟨_, rfl⟩
    have hold := (hown fun _ => b + 1).old _ hspill.mapped
    rw [(hend fun _ => b + 1).spilled hspill, ← hb] at hold
    obtain ⟨e, he⟩ := Option.isSome_iff_exists.mp hspill.mapped
    rw [userByte, translateAddr, he] at hold
    simp at hold
  · intro hnone ram
    exact (hend ram).clean hsafe hnone

section
variable (w : Walker) (image : List UInt8) (m : Mem)

/-- At every header that the loader gets to, it writes only to frames that it takes
for the pages of this header. -/
def LoadsIntoOwnFrames : Prop :=
  ∀ h i acc s, fileHeader image = .ok h → i < h.phnum →
    countLoop (loadPhdr w image 0 h) 0 i ⟨0, none, none⟩ m = .ok acc s →
    WritesOwn (loadPhdr w image 0 h i acc) s

/-- The loader gets to a header of which a byte spills. -/
def ReachesSpill : Prop :=
  match fileHeader image with
  | .error _ => False
  | .ok h => ∃ i < h.phnum, (∀ j < i, HeaderPasses image h j (viewAt w image h m j)) ∧
      ∃ j, SpillsAt image h i (viewAt w image h m i) j

variable {w image m}

theorem not_reachesSpill_of_filesz_le
    (hle : ∀ ph ∈ loadHeaders image, ph.filesz ≤ ph.memsz ∧ Unbroken ph) :
    ¬ ReachesSpill w image m := by
  unfold ReachesSpill
  cases hh : fileHeader image with
  | error reason => exact id
  | ok h =>
      rintro ⟨i, hi, -, j, hspill⟩
      have hmem : headerAt image h i ∈ loadHeaders image := by
        rw [loadHeaders_of_ok hh]
        exact mem_segments.mpr ⟨⟨i, hi, rfl⟩, hspill.header.2.2⟩
      obtain ⟨hsize, hunbroken⟩ := hle _ hmem
      exact absurd hsize (not_le.mpr (hspill.memsz_lt hunbroken))

/-- The loader stays in its own frames exactly if it gets to no header whose file
bytes run past its pages into others that are mapped. -/
theorem loader_writes_own_iff (w : Walker) (image : List UInt8) (m : Mem) (hw : Steady w)
    (hsafe : FrameSafe m) : LoadsIntoOwnFrames w image m ↔ ¬ ReachesSpill w image m := by
  cases hh : fileHeader image with
  | error reason =>
      apply iff_of_true
      · intro h i acc s hh'
        rw [hh] at hh'
        cases hh'
      · simp [ReachesSpill, hh]
  | ok h =>
      have hreaches : ReachesSpill w image m ↔ ∃ i < h.phnum,
          (∀ j < i, HeaderPasses image h j (viewAt w image h m j)) ∧
          ∃ j, SpillsAt image h i (viewAt w image h m i) j := by
        rw [ReachesSpill, hh]
      have hsafe' : ∀ {i acc s}, countLoop (loadPhdr w image 0 h) 0 i ⟨0, none, none⟩ m =
          .ok acc s → FrameSafe s := fun hrun =>
        (within_countLoop (loadPhdr_safe w image 0 h) _ _ _).ok hrun hsafe
      rw [hreaches]
      constructor
      · rintro hown ⟨i, hi, hpass, j, hspill⟩
        obtain ⟨acc, s, hrun, hat⟩ := headers_return hw hpass
        rw [← hat.view] at hspill
        exact (writesOwn_iff hw image h i acc (hsafe' hrun)).mp (hown h i acc s hh hi hrun) j hspill
      · intro hnone h' i acc s hh' hi hrun
        rw [hh, Except.ok.injEq] at hh'
        subst hh'
        have hat := headers_outcome hw image h i m m rfl
        rw [hrun] at hat
        rw [writesOwn_iff hw image h i acc (hsafe' hrun), hat.view]
        intro j hspill
        exact hnone ⟨i, hi, hat.passed, j, hspill⟩

theorem stackMapped_safe : FrameSafe stackMapped :=
  mapUserStack_safe flatWalker _ (memInit_safe _)

theorem loader_writes_own_data : ¬ ReachesSpill flatWalker dataElf stackMapped ∧
    LoadsIntoOwnFrames flatWalker dataElf stackMapped := by
  have hlow : ∀ ph ∈ loadHeaders dataElf,
      ph.filesz ≤ ph.memsz ∧ ph.vaddr + ph.memsz ≤ 2 ^ 48 := by decide +kernel
  have hnone : ¬ ReachesSpill flatWalker dataElf stackMapped :=
    not_reachesSpill_of_filesz_le fun ph hph => ⟨(hlow ph hph).1, .inl (hlow ph hph).2⟩
  exact ⟨hnone, (loader_writes_own_iff flatWalker dataElf stackMapped (fun _ _ => rfl)
    stackMapped_safe).mpr hnone⟩

/-- A segment of eight bytes of memory at the end of a page, whose file part is
longer; behind it is the user stack. -/
def spillElf : List UInt8 :=
  patch (patch dataElf 80 (leBytes 8 0x400FF8)) 104 (leBytes 8 8)

theorem loader_overwrites_stack : ∃ md m',
    loadElfMapped flatWalker spillElf 0 stackMapped = .ok (0x400000, md) m' ∧
      userByte stackMapped 0x401038 = some 0 ∧ userByte m' 0x401038 = some 1 := by
  have hrun : (returned (loadElfMapped flatWalker spillElf 0 stackMapped)).map
      (fun x => (x.1.1, userByte x.2 0x401038)) = some (0x400000, some 1) := by decide +kernel
  obtain ⟨⟨entry, md⟩, m', hload, hfacts⟩ := ok_of_returned hrun
  rw [Prod.mk.injEq] at hfacts
  obtain ⟨rfl, hbyte⟩ := hfacts
  exact ⟨md, m', hload, by decide +kernel, hbyte⟩

end

end Rockos.LoaderWrites
