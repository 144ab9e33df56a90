import Rockos.LoadedPages

/-!
# The fallback program (main.rs)

When `load_elf` refuses the embedded program, `kernel_main` maps the built-in
blob at the text base and panics if that page is taken. The loader does not undo
what it did before it gave up. So the fallback works exactly if no header that
the loader gets to has made it map the page at the text base.
-/
namespace Rockos.BootFallback
open FallibleState PhysMemory Paging ElfLoader PageEdits FrameAccounts LoadedImage LoadedPages

/-! ## What can be seen from the headers -/

/-- The page is vacant, and no header before `i` asks for it. -/
def Unclaimed (w : Walker) (image : List UInt8) (h : FileHeader) (E : ℕ → Option Entry)
    (i q : ℕ) : Prop :=
  Vacant w E q ∧ ∀ ph ∈ segments image h i, q ∉ pages ph

/-- Header `i` gives the loader no reason to stop. -/
structure HeaderFits (w : Walker) (image : List UInt8) (h : FileHeader) (E : ℕ → Option Entry)
    (i : ℕ) : Prop where
  readable : Readable image h i
  unclaimed : Segment (headerAt image h i) → ∀ q ∈ pages (headerAt image h i),
    Unclaimed w image h E i q
  backed : Segment (headerAt image h i) → ∀ j < (headerAt image h i).filesz,
    (headerAt image h i).offset + j < image.length ∧
      ((E (pageOf (signExtend ((headerAt image h i).vaddr + j)))).isSome ∨
        ∃ ph ∈ segments image h (i + 1),
          pageOf (signExtend ((headerAt image h i).vaddr + j)) ∈ pages ph)

/-- Header `i` makes the loader map page `q`, if the loader gets to it. -/
structure HeaderTakes (w : Walker) (image : List UInt8) (h : FileHeader) (E : ℕ → Option Entry)
    (i q : ℕ) : Prop where
  readable : Readable image h i
  segment : Segment (headerAt image h i)
  mem : q ∈ pages (headerAt image h i)
  unclaimed : ∀ p ∈ pages (headerAt image h i), p ≤ q → Unclaimed w image h E i p

/-- Some header asks for page `q`, and nothing before it stops the loader. -/
def HeadersClaim (w : Walker) (image : List UInt8) (E : ℕ → Option Entry) (q : ℕ) : Prop :=
  match fileHeader image with
  | .error _ => False
  | .ok h => ∃ i < h.phnum, (∀ j < i, HeaderFits w image h E j) ∧ HeaderTakes w image h E i q

section
variable {w : Walker} {image : List UInt8} {h : FileHeader} {E E₁ E' : ℕ → Option Entry} {i q : ℕ}

theorem segments_of_segment (hseg : Segment (headerAt image h i)) :
    segments image h (i + 1) = segments image h i ++ [headerAt image h i] := by
  rw [segments_succ, if_pos ⟨hseg.1, hseg.2⟩]

theorem fits_of_passable (hpass : Passable w image h E i) : HeaderFits w image h E i := by
  obtain ⟨E₁, E₂, hplaced, hpassed⟩ := hpass
  refine ⟨hpassed.readable, fun hseg q hq => ?_, fun hseg j hj => ?_⟩
  · exact hplaced.vacant_iff.mp (Maps.vacant (hpassed.segment hseg).1 q hq)
  · obtain ⟨hmapped, hback, -⟩ := hpassed.segment hseg
    rw [segments_of_segment hseg, ← (hplaced.segment hmapped).isSome_iff]
    exact hback j hj

/-- The loader stops only at a header that gives it a reason. -/
theorem not_fits_of_stopped (hw : Steady w) (hplaced : Placed w (segments image h i) E E₁)
    (hstop : Stopped w image h i E₁ E') : ¬ HeaderFits w image h E i := by
  intro hfits
  cases hstop with
  | header _ hbad => exact hbad hfits.readable
  | segment _ hseg hblock =>
      cases hblock with
      | page _ p _ hsplit _ href =>
          exact hw.refused_iff.mp href
            (hplaced.vacant_iff.mpr (hfits.unclaimed hseg p (mem_of_split hsplit)))
      | bytes hmaps hback =>
          refine hback fun j hj => ?_
          rw [(hplaced.segment hmaps).isSome_iff, ← segments_of_segment hseg]
          exact hfits.backed hseg j hj

/-- What a header that stops the loader has added. -/
theorem stopped_isSome_iff (hw : Steady w) (hplaced : Placed w (segments image h i) E E₁)
    (hstop : Stopped w image h i E₁ E') :
    (E' q).isSome ↔ (E₁ q).isSome ∨ HeaderTakes w image h E i q := by
  cases hstop with
  | header hsame hbad =>
      rw [hsame]
      exact (or_iff_left fun htakes => hbad htakes.readable).symm
  | segment hread hseg hblock =>
      -- in both cases a first part of the pages was mapped
      have hmaps : ∃ done, Maps w done (segmentFlags (headerAt image h i).flags) E₁ E' ∧
          (∀ q, HeaderTakes w image h E i q → q ∈ done) ∧
          ∀ q ∈ done, q ∈ pages (headerAt image h i) ∧
            ∀ p ∈ pages (headerAt image h i), p ≤ q → p ∈ done := by
        cases hblock with
        | page done p rest hsplit hmaps href =>
            refine ⟨done, hmaps, fun q htakes => ?_, fun q hq => ?_⟩
            · by_contra hnot
              have hle : p ≤ q := not_lt.mp fun hlt =>
                hnot ((mem_before_iff hsplit).mpr ⟨htakes.mem, hlt⟩)
              exact hw.refused_iff.mp href
                (hplaced.vacant_iff.mpr (htakes.unclaimed p (mem_of_split hsplit) hle))
            · obtain ⟨hpage, hlt⟩ := (mem_before_iff hsplit).mp hq
              exact ⟨hpage, fun r hr hle => (mem_before_iff hsplit).mpr ⟨hr, hle.trans_lt hlt⟩⟩
        | bytes hmaps _ =>
            exact ⟨_, hmaps, fun q htakes => htakes.mem, fun q hq => ⟨hq, fun p hp _ => hp⟩⟩
      obtain ⟨done, hmaps, htaken, hdone⟩ := hmaps
      by_cases hin : q ∈ done
      · obtain ⟨f, hf⟩ := hmaps.entry q hin
        obtain ⟨hpage, hbelow⟩ := hdone q hin
        simp only [hf, Option.isSome_some, true_iff]
        refine .inr ⟨hread, hseg, hpage, fun p hp hle => ?_⟩
        exact hplaced.vacant_iff.mp (hmaps.vacant p (hbelow p hp hle))
      · rw [hmaps.others q hin]
        exact (or_iff_left fun htakes => hin (htaken q htakes)).symm

theorem takes_of_fits (hfits : HeaderFits w image h E i) (hseg : Segment (headerAt image h i))
    (hq : q ∈ pages (headerAt image h i)) : HeaderTakes w image h E i q :=
  ⟨hfits.readable, hseg, hq, fun p hp _ => hfits.unclaimed hseg p hp⟩

/-- What headers that all passed have added. -/
theorem passable_claims_iff {n : ℕ} (hpass : ∀ i < n, Passable w image h E i) :
    (∃ ph ∈ segments image h n, q ∈ pages ph) ↔
      ∃ i < n, (∀ j < i, HeaderFits w image h E j) ∧ HeaderTakes w image h E i q := by
  have hfits : ∀ i < n, HeaderFits w image h E i := fun i hi => fits_of_passable (hpass i hi)
  constructor
  · rintro ⟨ph, hph, hq⟩
    obtain ⟨⟨i, hi, rfl⟩, hseg⟩ := mem_segments.mp hph
    exact ⟨i, hi, fun j hj => hfits j (hj.trans hi), takes_of_fits (hfits i hi) hseg hq⟩
  · rintro ⟨i, hi, -, htakes⟩
    exact ⟨_, mem_segments.mpr ⟨⟨i, hi, rfl⟩, htakes.segment⟩, htakes.mem⟩

/-- What all headers have added when one of them stops the loader. -/
theorem stopped_claims_iff {n : ℕ} (hw : Steady w) (hi : i < n)
    (hpass : ∀ j < i, Passable w image h E j) (hplaced : Placed w (segments image h i) E E₁)
    (hstop : Stopped w image h i E₁ E') :
    (E' q).isSome ↔ (E q).isSome ∨
      ∃ j < n, (∀ k < j, HeaderFits w image h E k) ∧ HeaderTakes w image h E j q := by
  rw [stopped_isSome_iff hw hplaced hstop, hplaced.isSome_iff, passable_claims_iff hpass, or_assoc]
  apply or_congr_right
  constructor
  · rintro (⟨j, hj, hfits, htakes⟩ | htakes)
    · exact ⟨j, hj.trans hi, hfits, htakes⟩
    · exact ⟨i, hi, fun k hk => fits_of_passable (hpass k hk), htakes⟩
  · rintro ⟨j, hj, hfits, htakes⟩
    rcases Nat.lt_trichotomy j i with hlt | rfl | hgt
    · exact .inl ⟨j, hlt, hfits, htakes⟩
    · exact .inr htakes
    · exact absurd (hfits i hgt) (not_fits_of_stopped hw hplaced hstop)

end

section
variable {w : Walker} {image : List UInt8} {m m' : Mem} {reason : String}

theorem loadElfMapped_of_loadElf_failed (h : loadElf w image 0 m = .error (.err reason) m') :
    loadElfMapped w image 0 m = .error (.err reason) m' := by
  rw [loadElf, bind_run] at h
  cases hrun : loadElfMapped w image 0 m with
  | ok r t => simp [hrun, bind_run] at h
  | error e t => simpa [hrun] using h

/-- The pages that are mapped when the loader has given up. -/
theorem loadElf_failed_isSome_iff (hw : Steady w)
    (hload : loadElf w image 0 m = .error (.err reason) m') (hspare : spare m' ≠ 0) (q : ℕ) :
    (m'.pt.entries q).isSome ↔
      (m.pt.entries q).isSome ∨ HeadersClaim w image m.pt.entries q := by
  have hmapped := loadElfMapped_of_loadElf_failed hload
  unfold loadElfMapped at hmapped
  unfold HeadersClaim
  cases hh : fileHeader image with
  | error cause =>
      simp only [hh, throw_run, EStateM.Result.error.injEq] at hmapped
      simp [← hmapped.2]
  | ok h =>
      simp only [hh, bind_run] at hmapped ⊢
      have hloop := headers_meets w image h h.phnum m.pt.entries m rfl
      cases hrun : countLoop (loadPhdr w image 0 h) 0 h.phnum ⟨0, none, none⟩ m with
      | ok acc t =>
          -- all headers were loaded, but none of them holds the header table
          rw [hrun] at hloop hmapped
          obtain ⟨hplaced, -, hpass⟩ := hloop
          cases hphdr : acc.phdrVa with
          | some va => simp [hphdr] at hmapped
          | none =>
              simp only [hphdr, throw_run, EStateM.Result.error.injEq] at hmapped
              rw [← hmapped.2, hplaced.isSome_iff, passable_claims_iff hpass]
      | error e t =>
          rw [hrun] at hloop hmapped
          simp only [EStateM.Result.error.injEq] at hmapped
          obtain ⟨rfl, rfl⟩ := hmapped
          rcases hloop with he | hzero | ⟨i, hi, hpass, E₁, hplaced, hstop⟩
          · cases he
          · exact absurd hzero hspare
          · exact stopped_claims_iff hw hi hpass hplaced hstop

end

/-! ## The blob -/

/-- The page at the text base holds the blob. -/
def HoldsBlob (m : Mem) : Prop :=
  ∀ i < userBlob.length, userByte m (userTextBase + i) = userBlob[i]?

def SameRam (m m' : Mem) : Prop := m'.ram = m.ram

instance : IsPreorder Mem SameRam where
  refl _ := rfl
  trans _ _ _ h k := k.trans h

theorem holdsBlob_of_entry {m m₀ : Mem} {f : ℕ} {flags : PageTableFlags}
    (hentry : m.pt.entries (pageOf userTextBase) = some ⟨f, flags⟩)
    (hram : m.ram = (copyBlobToFrame f m₀).ram) : HoldsBlob m := by
  intro i hi
  have hlen : userBlob.length ≤ pageSize := by decide
  have hpage : pageOf (userTextBase + i) = pageOf userTextBase := by
    simp only [pageOf, userTextBase, pageSize] at *
    omega
  have hoff : (userTextBase + i) % pageSize = i := by
    simp only [userTextBase, pageSize] at *
    omega
  have hdiv : (f * pageSize + i) / pageSize = f := by
    rw [Nat.div_eq_iff (by decide)]
    simp only [pageSize] at *
    omega
  have hmod : (f * pageSize + i) % pageSize = i := by
    rw [Nat.mul_add_mod_of_lt (by omega)]
  simp only [userByte, translateAddr, hpage, hentry, Option.map_some, hoff, hram, copyBlobToFrame,
    hdiv, hmod, if_pos]
  rw [List.getD_eq_getElem?_getD, List.getElem?_eq_getElem hi, Option.getD_some]

/-- With frames to spare the blob is installed exactly where nothing is mapped. -/
theorem mapUserBlob_ok_iff {w : Walker} {m : Mem} (hw : Steady w)
    (hclear : Clear w (pageOf userTextBase))
    (hframes : w.missing m.pt.tables (pageOf userTextBase) < spare m) :
    (∃ m', mapUserBlob w m = .ok () m' ∧ HoldsBlob m') ↔
      m.pt.entries (pageOf userTextBase) = none := by
  rcases takeFrame_counts .panic m with ⟨hzero, -⟩ | ⟨f, fa, -, htake, hcount⟩
  · omega
  have hva : virtAddr userTextBase (copyBlobToFrame f { m with fa := fa }) =
      .ok userTextBase (copyBlobToFrame f { m with fa := fa }) := rfl
  have hrun : mapUserBlob w m = expect (mapTo w (pageOf userTextBase) f ⟨true, false, true, false⟩)
      (copyBlobToFrame f { m with fa := fa }) := by
    rw [mapUserBlob, bind_of_ok htake, bind_of_ok (modify_run _ _), bind_of_ok hva]
  rw [hrun]
  constructor
  · rintro ⟨m', hok, -⟩
    rcases mapTo_cases w (pageOf userTextBase) f ⟨true, false, true, false⟩
      (copyBlobToFrame f { m with fa := fa }) with ⟨e, t, herr, -⟩ | ⟨t, -, hfree, -⟩
    · cases e <;> simp [expect, herr] at hok
    · exact hfree
  · intro hfree
    have hvacant : Vacant w (copyBlobToFrame f { m with fa := fa }).pt.entries
      (pageOf userTextBase) := ⟨hfree, hclear⟩
    have hspare : spare (copyBlobToFrame f { m with fa := fa }) + 1 = spare m := hcount
    obtain ⟨m', hmap, hentries⟩ := mapTo_returns hw hvacant
      (show w.missing m.pt.tables _ ≤ _ by omega) f ⟨true, false, true, false⟩
    have hram : SameRam (copyBlobToFrame f { m with fa := fa }) m' :=
      (within_mapTo (fun _ _ => rfl) (fun _ _ => rfl) w _ f _).ok hmap
    refine ⟨m', by rw [expect, hmap], ?_⟩
    exact holdsBlob_of_entry (by rw [hentries, Function.update_self]) hram

/-- After `load_elf` has refused a program, the fallback works if and only if no
header has made the loader map the page at the text base. -/
theorem fallback_works_iff (w : Walker) (image : List UInt8) (m m' : Mem) (reason : String)
    (hw : Steady w) (hclear : Clear w (pageOf userTextBase))
    (hfree : m.pt.entries (pageOf userTextBase) = none)
    (hload : loadElf w image 0 m = .error (.err reason) m')
    (hframes : w.missing m'.pt.tables (pageOf userTextBase) < spare m') :
    (∃ m'', mapUserBlob w m' = .ok () m'' ∧ HoldsBlob m'') ↔
      ¬ HeadersClaim w image m.pt.entries (pageOf userTextBase) := by
  have hiff := loadElf_failed_isSome_iff hw hload (by omega) (pageOf userTextBase)
  rw [mapUserBlob_ok_iff hw hclear hframes, ← Option.not_isSome_iff_eq_none, hiff, hfree]
  simp

/-- The alignment of the first header is 8, so the loader maps nothing. -/
theorem fallback_works_misaligned : ∃ m' m'',
    loadElf flatWalker (patch dataElf 112 (leBytes 8 8)) 0 stackMapped =
      .error (.err "unsupported align") m' ∧
      mapUserBlob flatWalker m' = .ok () m'' ∧ HoldsBlob m'' := by
  have hrun : (failed (loadElf flatWalker (patch dataElf 112 (leBytes 8 8)) 0 stackMapped)).map
        (fun x => (x.1, (allocateFrame x.2.fa).isSome)) = some (.err "unsupported align", true) ∧
      stackMapped.pt.entries (pageOf userTextBase) = none ∧
      fileHeader (patch dataElf 112 (leBytes 8 8)) = .ok ⟨0x400000, 64, 2, 56⟩ ∧
      (headerAt (patch dataElf 112 (leBytes 8 8)) ⟨0x400000, 64, 2, 56⟩ 0).type = 1 ∧
      (headerAt (patch dataElf 112 (leBytes 8 8)) ⟨0x400000, 64, 2, 56⟩ 0).align = 8 := by
    decide +kernel
  obtain ⟨hfail, hfree, hheader, htype, halign⟩ := hrun
  obtain ⟨e, m', hload, hx⟩ := error_of_failed hfail
  simp only [Prod.mk.injEq] at hx
  obtain ⟨rfl, hsome⟩ := hx
  have hbad : ¬ Readable (patch dataElf 112 (leBytes 8 8)) ⟨0x400000, 64, 2, 56⟩ 0 := by
    intro hread
    have := hread.align htype
    omega
  have hworks := fallback_works_iff flatWalker (patch dataElf 112 (leBytes 8 8)) stackMapped m' _
    (fun _ _ => rfl) ⟨[], rfl⟩ hfree hload (missing_lt_spare hsome _)
  obtain ⟨m'', hblob, hholds⟩ := hworks.mpr (by
    simp only [HeadersClaim, hheader]
    rintro ⟨i, -, hfits, htakes⟩
    cases i with
    | zero => exact hbad htakes.readable
    | succ i => exact hbad (hfits 0 (Nat.succ_pos i)).readable)
  exact ⟨m', m'', hload, hblob, hholds⟩

/-- The text is mapped before the alignment of the second header is looked at. -/
theorem fallback_panics : ∃ m' m'',
    loadElf flatWalker (patch dataElf 168 (leBytes 8 8)) 0 stackMapped =
      .error (.err "unsupported align") m' ∧
      (allocateFrame m'.fa).isSome ∧ mapUserBlob flatWalker m' = .error .panic m'' := by
  have hrun : (failed (loadElf flatWalker (patch dataElf 168 (leBytes 8 8)) 0 stackMapped)).map
      (fun x => (x.1, (allocateFrame x.2.fa).isSome,
        (failed (mapUserBlob flatWalker x.2)).map (·.1))) =
      some (.err "unsupported align", true, some .panic) := by decide +kernel
  obtain ⟨e, m', hload, hx⟩ := error_of_failed hrun
  simp only [Prod.mk.injEq] at hx
  obtain ⟨rfl, hframe, hblob⟩ := hx
  obtain ⟨e', m'', hpanic, rfl⟩ := error_of_failed hblob
  exact ⟨m', m'', hload, hframe, hpanic⟩

end Rockos.BootFallback
