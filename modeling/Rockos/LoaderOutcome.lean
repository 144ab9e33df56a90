import Rockos.BootFallback
import Rockos.SegmentOutcome

/-!
# How a run of the ELF loader ends (elf.rs)

Each program header has one of three outcomes, and which one can be told from the
headers and the memory before the call: the loader gets past it, returns an error
at it, or panics at it. A panic comes from an addition that overflows 64 bits or
from an address that `VirtAddr::new` refuses, but only if nothing has stopped the
loader before it gets there.
-/
namespace Rockos.LoaderOutcome
open FallibleState PhysMemory Paging ElfLoader PageEdits FrameAccounts LoadedImage LoadedPages
open SegmentOutcome
open BootFallback (Unclaimed)

/-! ## One header -/

section Header
variable (image : List UInt8) (h : FileHeader) (i : ℕ) (phoff : ℕ) (ph : ProgramHeader) (v : View)
  (done : List ℕ)

/-- What is mapped once the pages of the segment are. -/
def mappedWith (q : ℕ) : Prop := v.mapped q ∨ q ∈ pages ph

def SegmentPasses : Prop :=
  ¬ BadBounds phoff ph ∧ PagesPass v (pages ph) ∧ BytesPass image ph (mappedWith ph v)

def SegmentPanics : Prop :=
  BadBounds phoff ph ∨ PagesPass v (pages ph) ∧ BytesPanic image ph (mappedWith ph v)

/-- The segment is refused after the pages `done` were mapped. -/
def SegmentFails : Prop :=
  ¬ BadBounds phoff ph ∧ (PagesFail v (pages ph) done ∨
    done = pages ph ∧ PagesPass v (pages ph) ∧ BytesFail image ph (mappedWith ph v))

/-- The loader gets past header `i`. -/
def HeaderPasses : Prop :=
  TableFits h i ∧ Readable image h i ∧
    (Segment (headerAt image h i) → SegmentPasses image h.phoff (headerAt image h i) v)

/-- The loader panics at header `i`. -/
def HeaderPanics : Prop :=
  ¬ TableFits h i ∨ Readable image h i ∧ Segment (headerAt image h i) ∧
    SegmentPanics image h.phoff (headerAt image h i) v

/-- The loader returns an error at header `i`, for which it has mapped the pages
`done`. -/
def HeaderFails : Prop :=
  TableFits h i ∧ (¬ Readable image h i ∧ done = [] ∨
    Readable image h i ∧ Segment (headerAt image h i) ∧
      SegmentFails image h.phoff (headerAt image h i) v done)

variable {image h i phoff ph v done}

theorem SegmentPasses.not_panics (hpass : SegmentPasses image phoff ph v) :
    ¬ SegmentPanics image phoff ph v := by
  intro hpanic
  rcases hpanic with hbad | ⟨-, hbytes⟩
  · exact hpass.1 hbad
  · exact hpass.2.2.not_panic hbytes

theorem SegmentPasses.not_fails (hpass : SegmentPasses image phoff ph v) :
    ¬ SegmentFails image phoff ph v done := by
  intro hfail
  rcases hfail.2 with hpages | ⟨-, -, hbytes⟩
  · exact hpass.2.1.not_fail hpages
  · exact hpass.2.2.not_fail hbytes

theorem SegmentPanics.not_fails (hpanic : SegmentPanics image phoff ph v) :
    ¬ SegmentFails image phoff ph v done := by
  intro hfail
  rcases hpanic with hbad | ⟨hpages, hbytes⟩
  · exact hfail.1 hbad
  · rcases hfail.2 with hfail | ⟨-, -, hfail⟩
    · exact hpages.not_fail hfail
    · exact hbytes.not_fail hfail

theorem HeaderPasses.not_panics (hpass : HeaderPasses image h i v) :
    ¬ HeaderPanics image h i v := by
  intro hpanic
  rcases hpanic with htable | ⟨-, hseg, hpanic⟩
  · exact htable hpass.1
  · exact (hpass.2.2 hseg).not_panics hpanic

theorem HeaderPasses.not_fails (hpass : HeaderPasses image h i v) :
    ¬ HeaderFails image h i v done := by
  intro hfail
  rcases hfail.2 with ⟨hread, -⟩ | ⟨-, hseg, hfail⟩
  · exact hread hpass.2.1
  · exact (hpass.2.2 hseg).not_fails hfail

theorem HeaderPanics.not_fails (hpanic : HeaderPanics image h i v) :
    ¬ HeaderFails image h i v done := by
  intro hfail
  rcases hpanic with htable | ⟨hread, -, hpanic⟩
  · exact htable hfail.1
  · rcases hfail.2 with ⟨hnot, -⟩ | ⟨-, -, hfail⟩
    · exact hnot hread
    · exact hpanic.not_fails hfail

/-- A header is refused after the same pages, whenever it is. -/
theorem HeaderFails.unique {done' : List ℕ} (hfail : HeaderFails image h i v done)
    (hfail' : HeaderFails image h i v done') : done = done' := by
  rcases hfail.2 with ⟨hread, rfl⟩ | ⟨hread, -, -, hseg⟩
  · rcases hfail'.2 with ⟨-, rfl⟩ | ⟨hread', -⟩
    · rfl
    · exact absurd hread' hread
  · rcases hfail'.2 with ⟨hread', -⟩ | ⟨-, -, -, hseg'⟩
    · exact absurd hread hread'
    · rcases hseg with hpages | ⟨rfl, hpass, -⟩
      · rcases hseg' with hpages' | ⟨-, hpass', -⟩
        · exact hpages.unique hpages'
        · exact absurd hpages hpass'.not_fail
      · rcases hseg' with hpages' | ⟨rfl, -⟩
        · exact absurd hpages' hpass.not_fail
        · rfl

end Header

theorem present_iff_mappedWith {w : Walker} {ph : ProgramHeader} {m t : Mem}
    (hmapped : Mapped w ph m.pt.entries t.pt.entries) : Present t = mappedWith ph (here w m) := by
  funext q
  exact propext (Maps.isSome_iff hmapped)

theorem loadSegment_outcome {w : Walker} (hw : Steady w) (image : List UInt8) (phoff : ℕ)
    {ph : ProgramHeader} (acc : LoadAcc) (hvaddr : ph.vaddr < 2 ^ 64) (m : Mem) :
    Meets (fun t => t = m) (loadSegment w image 0 phoff ph acc)
      (fun _ t => SegmentPasses image phoff ph (here w m) ∧
        supply w (pages ph) (stock m) = some (stock t))
      (Ends (SegmentPanics image phoff ph (here w m)) fun t => ∃ done,
        SegmentFails image phoff ph (here w m) done ∧
          Maps w done (segmentFlags ph.flags) m.pt.entries t.pt.entries) := by
  apply meets_loadSegment hvaddr (fun hbad _ _ => .inl ⟨rfl, .inl hbad⟩)
  intro hbounds _
  have hin : InBounds ph := not_not.mp fun hnot => hbounds (.inr hnot)
  have hfirst := canonicalPage_pageOf hin.start
  have hlast := canonicalPage_pageOf hin.last
  apply meets_bind (Q := fun _ t => (PagesPass (here w m) (pages ph) ∧
    supply w (pages ph) (stock m) = some (stock t)) ∧ Mapped w ph m.pt.entries t.pt.entries)
  · apply ((mapSegment_outcome hw hfirst hlast (segmentFlags ph.flags) m).and
      (mapSegment_meets (E := m.pt.entries) hfirst hlast)).mono
    · intro t ht
      exact ⟨ht, by rw [ht]⟩
    · exact fun _ _ h => h
    · rintro e t ⟨⟨herr, done, hfail, hmaps⟩, -⟩
      exact .inr ⟨herr, done, ⟨hbounds, .inl hfail⟩, hmaps⟩
  · rintro _ t ⟨⟨hpages, hsupply⟩, hmapped⟩
    have hcopy := copySegment_outcome image ph t
    rw [present_iff_mappedWith hmapped] at hcopy
    apply meets_bind (P := fun t' => t' = t)
      (Q := fun _ t' => BytesPass image ph (mappedWith ph (here w m)) ∧ stock t' = stock t)
      ?_ ?_ t rfl
    · apply hcopy.mono (fun _ h => h) (fun _ _ h => h)
      intro e t' h
      refine h.mono (fun hp => .inr ⟨hpages, hp⟩) ?_
      rintro ⟨hfail, hpt⟩
      exact ⟨pages ph, ⟨hbounds, .inr ⟨rfl, hpages, hfail⟩⟩, by rw [hpt]; exact hmapped⟩
    · intro _
      apply meets_pure
      intro t' h
      exact ⟨⟨hbounds, hpages, h.1⟩, by rw [hsupply, h.2]⟩

/-- The pages that header `i` makes the loader map. -/
def headerPages (image : List UInt8) (h : FileHeader) (i : ℕ) : List ℕ :=
  if Segment (headerAt image h i) then pages (headerAt image h i) else []

theorem loadPhdr_outcome {w : Walker} (hw : Steady w) (image : List UInt8) (h : FileHeader) (i : ℕ)
    (acc : LoadAcc) (m : Mem) :
    Meets (fun t => t = m) (loadPhdr w image 0 h i acc)
      (fun _ t => HeaderPasses image h i (here w m) ∧
        supply w (headerPages image h i) (stock m) = some (stock t))
      (Ends (HeaderPanics image h i (here w m)) fun t => ∃ done,
        HeaderFails image h i (here w m) done ∧
          Maps w done (segmentFlags (headerAt image h i).flags) m.pt.entries t.pt.entries) := by
  apply meets_loadPhdr
  · exact fun htable _ _ => .inl ⟨rfl, .inl htable⟩
  · intro htable hread reason t ht
    rw [ht]
    exact .inr ⟨⟨reason, rfl⟩, [], ⟨htable, .inl ⟨hread, rfl⟩⟩, Maps.nil⟩
  · intro htable hread hseg t ht
    rw [headerPages, if_neg hseg, ht]
    exact ⟨⟨htable, hread, fun hs => absurd hs hseg⟩, rfl⟩
  intro htable hread hseg
  apply (loadSegment_outcome hw image h.phoff acc (field_lt _ 16 8) m).mono (fun _ h => h)
  · intro acc' t hdone
    rw [headerPages, if_pos hseg]
    exact ⟨⟨htable, hread, fun _ => hdone.1⟩, hdone.2⟩
  · intro e t hend
    refine hend.mono (fun hp => .inr ⟨hread, hseg, hp⟩) ?_
    rintro ⟨done, hfail, hmaps⟩
    exact ⟨done, ⟨htable, .inr ⟨hread, hseg, hfail⟩⟩, hmaps⟩

/-! ## The loop over the headers -/

/-- The pages that the headers before `i` make the loader map, in order. -/
def pagesBefore (image : List UInt8) (h : FileHeader) (i : ℕ) : List ℕ :=
  (List.range i).flatMap (headerPages image h)

theorem pagesBefore_succ (image : List UInt8) (h : FileHeader) (i : ℕ) :
    pagesBefore image h (i + 1) = pagesBefore image h i ++ headerPages image h i := by
  simp [pagesBefore, List.range_succ, List.flatMap_append]

theorem mem_pagesBefore {image : List UInt8} {h : FileHeader} {i q : ℕ} :
    q ∈ pagesBefore image h i ↔ ∃ ph ∈ segments image h i, q ∈ pages ph := by
  simp only [pagesBefore, List.mem_flatMap, List.mem_range, headerPages]
  constructor
  · rintro ⟨j, hj, hq⟩
    split_ifs at hq with hseg
    · exact ⟨_, mem_segments.mpr ⟨⟨j, hj, rfl⟩, hseg⟩, hq⟩
    · cases hq
  · rintro ⟨ph, hph, hq⟩
    obtain ⟨⟨j, hj, rfl⟩, hseg⟩ := mem_segments.mp hph
    exact ⟨j, hj, by rwa [if_pos (show Segment _ from hseg)]⟩

/-- What header `i` meets if the loader has got past the earlier ones, told from
the memory before the call. -/
def viewAt (w : Walker) (image : List UInt8) (h : FileHeader) (m : Mem) (i : ℕ) : View where
  vacant := Unclaimed w image h m.pt.entries i
  mapped q := (m.pt.entries q).isSome ∨ ∃ ph ∈ segments image h i, q ∈ pages ph
  affords ps := (here w m).affords (pagesBefore image h i ++ ps)
  fewer ps qs hall := by
    rw [← List.append_assoc] at hall
    exact (here w m).fewer _ _ hall

section Headers
variable {w : Walker} {image : List UInt8} {h : FileHeader} {m t : Mem} {i : ℕ} {acc : LoadAcc}

/-- The loop over the headers has got to header `i`. -/
structure AtHeader (w : Walker) (image : List UInt8) (h : FileHeader) (m : Mem) (i : ℕ)
    (acc : LoadAcc) (t : Mem) : Prop where
  placed : Placed w (segments image h i) m.pt.entries t.pt.entries
  bounds : Bounds (segments image h i) acc
  frames : supply w (pagesBefore image h i) (stock m) = some (stock t)
  passed : ∀ j < i, HeaderPasses image h j (viewAt w image h m j)

theorem AtHeader.start (w : Walker) (image : List UInt8) (h : FileHeader) (m : Mem) :
    AtHeader w image h m 0 ⟨0, none, none⟩ m :=
  ⟨Placed.nil, Bounds.nil, rfl, fun _ hj => absurd hj (Nat.not_lt_zero _)⟩

theorem AtHeader.view (hat : AtHeader w image h m i acc t) : here w t = viewAt w image h m i := by
  ext x
  · exact hat.placed.vacant_iff
  · exact hat.placed.isSome_iff
  · simp [here, viewAt, supply_append, hat.frames]

/-- The loader has returned an error at header `i`, and what is mapped then. -/
structure FailedAt (w : Walker) (image : List UInt8) (h : FileHeader) (m : Mem) (i : ℕ)
    (done : List ℕ) (t : Mem) : Prop where
  fails : HeaderFails image h i (viewAt w image h m i) done
  isSome_iff : ∀ q, (t.pt.entries q).isSome ↔
    (m.pt.entries q).isSome ∨ q ∈ pagesBefore image h i ++ done

theorem AtHeader.isSome_iff (hat : AtHeader w image h m i acc t) (q : ℕ) :
    (t.pt.entries q).isSome ↔ (m.pt.entries q).isSome ∨ q ∈ pagesBefore image h i := by
  rw [hat.placed.isSome_iff, mem_pagesBefore]

/-- One header. -/
theorem AtHeader.step (hw : Steady w) (hat : AtHeader w image h m i acc t) :
    Meets (fun t' => t' = t) (loadPhdr w image 0 h i acc) (AtHeader w image h m (i + 1))
      (Ends (HeaderPanics image h i (viewAt w image h m i))
        fun t => ∃ done, FailedAt w image h m i done t) := by
  have hrun := (loadPhdr_outcome hw image h i acc t).and
    (loadPhdr_meets w image h i hat.bounds t.pt.entries)
  rw [hat.view] at hrun
  apply hrun.mono
  · intro t' ht
    exact ⟨ht, by rw [ht]⟩
  · rintro acc' t' ⟨⟨hpass, hsupply⟩, hpassed, hbounds⟩
    constructor
    · rw [segments_succ]
      exact hat.placed.passed hpassed
    · rw [segments_succ]
      exact hbounds
    · rw [pagesBefore_succ, supply_append, hat.frames]
      exact hsupply
    · intro j hj
      rcases Nat.lt_succ_iff_lt_or_eq.mp hj with hlt | rfl
      · exact hat.passed j hlt
      · exact hpass
  · rintro e t' ⟨hend, -⟩
    refine hend.mono id ?_
    rintro ⟨done, hfail, hmaps⟩
    refine ⟨done, hfail, fun q => ?_⟩
    rw [hmaps.isSome_iff, hat.isSome_iff, List.mem_append, or_assoc]

/-- The loader gets past the first `n` headers, or ends at one of them. -/
theorem headers_outcome (hw : Steady w) (image : List UInt8) (h : FileHeader) (n : ℕ) (m : Mem) :
    Meets (fun t => t = m) (countLoop (loadPhdr w image 0 h) 0 n ⟨0, none, none⟩)
      (AtHeader w image h m n)
      (fun e t => ∃ i < n, (∀ j < i, HeaderPasses image h j (viewAt w image h m j)) ∧
        Ends (HeaderPanics image h i (viewAt w image h m i))
          (fun t => ∃ done, FailedAt w image h m i done t) e t) := by
  refine (meets_countLoop (AtHeader w image h m) 0 n _ ?_).mono ?_ ?_ (fun _ _ he => he)
  · intro i acc _ hi t hat
    apply (hat.step hw).mono (fun _ ht => ht) (fun _ _ hat => hat) ?_ t rfl
    intro e t' hend
    exact ⟨i, by omega, hat.passed, hend⟩
  · intro t ht
    rw [ht]
    exact AtHeader.start w image h m
  · intro acc t hat
    rwa [Nat.zero_add] at hat

/-- Headers that would all be passed are passed. -/
theorem headers_return (hw : Steady w) {n : ℕ}
    (hpass : ∀ j < n, HeaderPasses image h j (viewAt w image h m j)) :
    ∃ acc t, countLoop (loadPhdr w image 0 h) 0 n ⟨0, none, none⟩ m = .ok acc t ∧
      AtHeader w image h m n acc t := by
  apply Meets.returns (P := fun t => t = m) ?_ rfl
  apply (headers_outcome hw image h n m).mono (fun _ ht => ht) (fun _ _ hat => hat)
  rintro e t ⟨i, hi, -, ⟨-, hpanic⟩ | ⟨-, done, hfail⟩⟩
  · exact (hpass i hi).not_panics hpanic
  · exact (hpass i hi).not_fails hfail.fails

/-- The loader ends at the first header that it does not get past. -/
theorem headers_fail (hw : Steady w) {n : ℕ} (hi : i < n)
    (hpass : ∀ j < i, HeaderPasses image h j (viewAt w image h m j)) {done : List ℕ}
    (hfail : HeaderFails image h i (viewAt w image h m i) done) :
    ∃ reason t, countLoop (loadPhdr w image 0 h) 0 n ⟨0, none, none⟩ m = .error (.err reason) t ∧
      FailedAt w image h m i done t := by
  have hend := headers_outcome hw image h n m m rfl
  cases hloop : countLoop (loadPhdr w image 0 h) 0 n ⟨0, none, none⟩ m with
  | ok acc t =>
      rw [hloop] at hend
      exact absurd hfail (hend.passed i hi).not_fails
  | error e t =>
      rw [hloop] at hend
      obtain ⟨k, hk, hbefore, hstop⟩ := hend
      have hfirst : k = i := by
        rcases lt_trichotomy k i with hlt | heq | hgt
        · rcases hstop with ⟨-, hpanic⟩ | ⟨-, _, hfailed⟩
          · exact absurd hpanic (hpass k hlt).not_panics
          · exact absurd hfailed.fails (hpass k hlt).not_fails
        · exact heq
        · exact absurd hfail (hbefore i hgt).not_fails
      rw [hfirst] at hstop
      rcases hstop with ⟨-, hpanic⟩ | ⟨⟨reason, rfl⟩, done', hfailed⟩
      · exact absurd hfail hpanic.not_fails
      · rw [hfailed.fails.unique hfail] at hfailed
        exact ⟨reason, t, rfl, hfailed⟩

end Headers

/-! ## Panics -/

section
variable (w : Walker) (image : List UInt8) (m : Mem)

/-- `load_elf_mapped` comes back with `Ok` or `Err`. -/
def ReturnsOkOrErr : Prop :=
  (∃ r m', loadElfMapped w image 0 m = .ok r m') ∨
    ∃ reason m', loadElfMapped w image 0 m = .error (.err reason) m'

/-- The loader gets to a header at which it panics. -/
def ReachesPanic : Prop :=
  match fileHeader image with
  | .error _ => False
  | .ok h => ∃ i < h.phnum, (∀ j < i, HeaderPasses image h j (viewAt w image h m j)) ∧
      HeaderPanics image h i (viewAt w image h m i)

variable {w image m}

theorem reachesPanic_iff {h : FileHeader} (hh : fileHeader image = .ok h) :
    ReachesPanic w image m ↔ ∃ i < h.phnum,
      (∀ j < i, HeaderPasses image h j (viewAt w image h m j)) ∧
      HeaderPanics image h i (viewAt w image h m i) := by
  rw [ReachesPanic, hh]

/-- Behind the loop over the headers there is no panic. -/
theorem returns_of_loop {h : FileHeader} (hh : fileHeader image = .ok h) {acc : LoadAcc} {t : Mem}
    (hloop : countLoop (loadPhdr w image 0 h) 0 h.phnum ⟨0, none, none⟩ m = .ok acc t) :
    ReturnsOkOrErr w image m := by
  unfold ReturnsOkOrErr
  simp only [loadElfMapped, hh, bind_of_ok hloop]
  cases acc.phdrVa with
  | none => exact .inr ⟨_, _, rfl⟩
  | some phdr => exact .inl ⟨_, _, rfl⟩

/-- A loader that returns an error at a header does not get to a later one. -/
theorem not_reachesPanic_of_fails {h : FileHeader} (hh : fileHeader image = .ok h) {i : ℕ}
    (hbefore : ∀ j < i, HeaderPasses image h j (viewAt w image h m j)) {done : List ℕ}
    (hfail : HeaderFails image h i (viewAt w image h m i) done) : ¬ ReachesPanic w image m := by
  rw [reachesPanic_iff hh]
  rintro ⟨k, -, hpass, hpanic⟩
  rcases lt_trichotomy k i with hlt | rfl | hgt
  · exact (hbefore k hlt).not_panics hpanic
  · exact hpanic.not_fails hfail
  · exact (hpass i hgt).not_fails hfail

/-- The loader panics exactly if it gets to a header at which the additions or the
addresses go wrong. -/
theorem loader_panic_free_iff (w : Walker) (image : List UInt8) (m : Mem) (hw : Steady w) :
    ReturnsOkOrErr w image m ↔ ¬ ReachesPanic w image m := by
  cases hh : fileHeader image with
  | error reason =>
      have hrun : loadElfMapped w image 0 m = .error (.err reason) m := by
        simp [loadElfMapped, hh]
      have hnot : ¬ ReachesPanic w image m := by simp [ReachesPanic, hh]
      exact iff_of_true (.inr ⟨reason, m, hrun⟩) hnot
  | ok h =>
      have hend := headers_outcome hw image h h.phnum m m rfl
      cases hloop : countLoop (loadPhdr w image 0 h) 0 h.phnum ⟨0, none, none⟩ m with
      | ok acc t =>
          rw [hloop] at hend
          apply iff_of_true
          · exact returns_of_loop hh hloop
          · rw [reachesPanic_iff hh]
            rintro ⟨i, hi, -, hpanic⟩
            exact (hend.passed i hi).not_panics hpanic
      | error e t =>
          rw [hloop] at hend
          have hload : loadElfMapped w image 0 m = .error e t := by
            simp only [loadElfMapped, hh]
            exact bind_of_error hloop _
          obtain ⟨i, hi, hbefore, ⟨rfl, hpanic⟩ | ⟨⟨reason, rfl⟩, done, hfail⟩⟩ := hend
          · apply iff_of_false
            · rintro (⟨r, m', hrun⟩ | ⟨reason, m', hrun⟩) <;> simp [hload] at hrun
            · exact not_not.mpr ((reachesPanic_iff hh).mpr ⟨i, hi, hbefore, hpanic⟩)
          · exact iff_of_true (.inr ⟨reason, t, hload⟩)
              (not_reachesPanic_of_fails hh hbefore hfail.fails)

theorem loader_panic_free_data :
    ReturnsOkOrErr flatWalker dataElf stackMapped ∧
      ¬ ReachesPanic flatWalker dataElf stackMapped := by
  have hok : (returned (loadElfMapped flatWalker dataElf 0 stackMapped)).map (·.1.1) =
      some 0x400000 := by decide +kernel
  obtain ⟨r, m', hrun, -⟩ := ok_of_returned hok
  have hreturns : ReturnsOkOrErr flatWalker dataElf stackMapped := .inl ⟨r, m', hrun⟩
  exact ⟨hreturns, (loader_panic_free_iff flatWalker dataElf stackMapped (fun _ _ => rfl)).mp
    hreturns⟩

/-- A header table eight bytes below `2 ^ 64`, and a segment at the first address
that has more than 48 bits. -/
theorem loader_panics :
    (∃ m', loadElfMapped flatWalker (patch dataElf 32 (leBytes 8 (2 ^ 64 - 8))) 0 stackMapped =
      .error .panic m') ∧
    ∃ m', loadElfMapped flatWalker (patch dataElf 80 (leBytes 8 (2 ^ 48))) 0 stackMapped =
      .error .panic m' := by
  constructor
  · have hrun : (failed (loadElfMapped flatWalker (patch dataElf 32 (leBytes 8 (2 ^ 64 - 8))) 0
        stackMapped)).map (·.1) = some .panic := by decide +kernel
    obtain ⟨e, m', hrun, rfl⟩ := error_of_failed hrun
    exact ⟨m', hrun⟩
  · have hrun : (failed (loadElfMapped flatWalker (patch dataElf 80 (leBytes 8 (2 ^ 48))) 0
        stackMapped)).map (·.1) = some .panic := by decide +kernel
    obtain ⟨e, m', hrun, rfl⟩ := error_of_failed hrun
    exact ⟨m', hrun⟩

end

end Rockos.LoaderOutcome
