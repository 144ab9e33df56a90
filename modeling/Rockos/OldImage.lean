import Rockos.ElfLoader
import Rockos.PageEdits

/-!
# Unmapping the old image (elf.rs)

Before it loads a program, `load_elf_exec` walks from the text base to the end of
the old image and unmaps every page that it finds, whoever mapped it. The addresses
are sign-extended on the way, so the walk goes on behind `2 ^ 47`; it panics if it
gets to `2 ^ 48`.
-/
namespace Rockos.OldImage
open FallibleState PhysMemory Paging ElfLoader PageEdits

/-- The number of pages the loop visits. -/
def imagePages (m : Mem) : ℕ :=
  (m.image.imageEnd - userTextBase + (pageSize - 1)) / pageSize

/-- The pages from the text base to the end of the image. -/
def oldPages (m : Mem) : List ℕ := steppedPages userTextBase (imagePages m)

theorem unmapOldImage_eq (m : Mem) : unmapOldImageBestEffort m =
    countLoop (fun i _ => unmapImagePage (userTextBase + i * pageSize)) 0 (imagePages m) () m := by
  rw [unmapOldImageBestEffort, bind_run, get_run]
  rfl

theorem lt_imagePages_iff (m : Mem) (i : ℕ) :
    i < imagePages m ↔ userTextBase + i * pageSize < m.image.imageEnd := by
  unfold imagePages
  rw [Nat.lt_iff_add_one_le, Nat.le_div_iff_mul_le (by decide)]
  simp only [pageSize]
  omega

theorem mem_oldPages {m : Mem} {q : ℕ} : q ∈ oldPages m ↔
    ∃ i, userTextBase + i * pageSize < m.image.imageEnd ∧
      pageOf (signExtend (userTextBase + i * pageSize)) = q := by
  rw [oldPages, mem_steppedPages]
  exact exists_congr fun i => and_congr_left fun _ => lt_imagePages_iff m i

/-! ## The memory that is left -/

/-- A page that is mapped is unmapped, and its frame is free. -/
def dropPage (m : Mem) (page : ℕ) : Mem :=
  match m.pt.entries page with
  | none => m
  | some e => { setEntry page none m with fa := deallocateFrame m.fa e.frame }

theorem dropPage_entries (m : Mem) (page : ℕ) :
    (dropPage m page).pt.entries = Function.update m.pt.entries page none := by
  unfold dropPage
  cases hp : m.pt.entries page with
  | none => exact (Function.update_eq_self_iff.mpr hp.symm).symm
  | some e => rfl

/-- The memory without the pages of a list. -/
def withoutPages (m : Mem) (ps : List ℕ) : Mem := ps.foldl dropPage m

/-- The memory that the new program is loaded into. -/
def emptied (m : Mem) : Mem := withoutPages m (oldPages m)

section
variable {m : Mem}

theorem withoutPages_concat (ps : List ℕ) (page : ℕ) :
    withoutPages m (ps ++ [page]) = dropPage (withoutPages m ps) page :=
  List.foldl_concat ..

theorem withoutPages_entries (ps : List ℕ) (q : ℕ) :
    (withoutPages m ps).pt.entries q = if q ∈ ps then none else m.pt.entries q := by
  induction ps using List.reverseRecOn with
  | nil => rw [if_neg List.not_mem_nil]; rfl
  | append_singleton ps page ih =>
      rw [withoutPages_concat, dropPage_entries]
      by_cases hq : q = page
      · rw [hq, Function.update_self, if_pos (List.mem_append_right _ (List.mem_singleton_self _))]
      · rw [Function.update_of_ne hq, ih]
        exact if_congr (by simp [hq]) rfl rfl

/-- Exactly the pages from the text base to the image end are gone. -/
theorem emptied_entries (m : Mem) (q : ℕ) :
    (emptied m).pt.entries q = if q ∈ oldPages m then none else m.pt.entries q := by
  rw [emptied, withoutPages_entries]

/-- Where nothing is mapped, nothing is dropped. -/
theorem withoutPages_of_unmapped {ps : List ℕ} (h : ∀ q ∈ ps, m.pt.entries q = none) :
    withoutPages m ps = m := by
  induction ps with
  | nil => rfl
  | cons page ps ih =>
      have hpage : dropPage m page = m := by
        rw [dropPage, h page (List.mem_cons_self ..)]
      rw [withoutPages, List.foldl_cons, hpage]
      exact ih fun q hq => h q (List.mem_cons_of_mem _ hq)

end

/-! ## The loop -/

theorem releasePage_drops (virt : ℕ) (m : Mem) :
    releasePage virt m = .ok () (dropPage m (pageOf virt)) := by
  rw [releasePage, bind_run]
  simp only [attempt, dropPage]
  rcases unmap4kAndFreeBitmap_cases virt m with ⟨hnone, hrun⟩ | ⟨e, he, hrun⟩
  · rw [hrun, hnone]
    rfl
  · rw [hrun, he]
    rfl

/-- After its turn a page is unmapped; the walk stops at an address that cannot be
formed. -/
theorem unmapImagePage_run (va : ℕ) (m : Mem) : unmapImagePage va m =
    if canonical (signExtend va) then .ok () (dropPage m (pageOf (signExtend va)))
    else .error .panic m := by
  unfold unmapImagePage virtAddr
  split_ifs with hva
  · rw [pure_bind, bind_run, get_run]
    cases hp : m.pt.entries (pageOf (signExtend va)) with
    | none => simp [translateAddr, hp, dropPage]
    | some e =>
        have htr : (translateAddr m (signExtend va)).isSome = true := by simp [translateAddr, hp]
        simp only [htr, if_true]
        exact releasePage_drops _ m
  · rfl

section
variable {m m' : Mem}

/-- What is left when the loop returns. -/
theorem unmapOldImage_ok (h : unmapOldImageBestEffort m = .ok () m') : m' = emptied m := by
  rw [unmapOldImage_eq] at h
  have hloop :=
    countLoop_ok (fun i _ t => t = withoutPages m (steppedPages userTextBase i)) h rfl ?_
  · rwa [Nat.zero_add] at hloop
  · intro i _ s _ t _ _ hs hrun
    rw [unmapImagePage_run] at hrun
    split_ifs at hrun
    obtain ⟨-, rfl⟩ := EStateM.Result.ok.inj hrun
    rw [steppedPages_succ, withoutPages_concat, hs]

theorem unmapOldImage_returns (h : m.image.imageEnd ≤ 2 ^ 48) :
    unmapOldImageBestEffort m = .ok () (emptied m) := by
  have hloop : Meets (fun _ => True)
      (countLoop (fun i _ => unmapImagePage (userTextBase + i * pageSize)) 0 (imagePages m) ())
      (fun _ _ => True) (fun _ _ => False) := by
    apply meets_countLoop (fun _ _ _ => True)
    intro n _ _ hn t _
    have hlt := (lt_imagePages_iff m n).mp (by omega)
    have hcanonical : canonical (signExtend (userTextBase + n * pageSize)) = true := by
      rw [canonical_iff]
      unfold signExtend
      split_ifs <;> omega
    rw [unmapImagePage_run, if_pos hcanonical]
    trivial
  obtain ⟨_, t, hrun, -⟩ := hloop.returns (s := m) trivial
  have hok : unmapOldImageBestEffort m = .ok () t := by rw [unmapOldImage_eq, hrun]
  rw [hok, unmapOldImage_ok hok]

/-- An image that ends behind `2 ^ 48` cannot be unmapped. -/
theorem unmapOldImage_panics (h : 2 ^ 48 < m.image.imageEnd) :
    ∃ m', unmapOldImageBestEffort m = .error .panic m' := by
  have hlast : userTextBase + (2 ^ 48 - userTextBase) / pageSize * pageSize = 2 ^ 48 := by decide
  have hreach : (2 ^ 48 - userTextBase) / pageSize < imagePages m := by
    rw [lt_imagePages_iff, hlast]
    exact h
  have hloop : Meets (fun _ => True)
      (countLoop (fun i _ => unmapImagePage (userTextBase + i * pageSize)) 0 (imagePages m) ())
      (fun _ _ => False) (fun e _ => e = .panic) := by
    -- the invariant: the address `2 ^ 48` is still ahead
    refine (meets_countLoop (fun n _ _ => n ≤ (2 ^ 48 - userTextBase) / pageSize)
      0 (imagePages m) () ?_).mono (fun _ _ => Nat.zero_le _) (fun _ _ hle => by omega)
      (fun _ _ he => he)
    intro n _ _ _ t hle
    rw [unmapImagePage_run]
    split_ifs with hcanonical
    · refine Nat.lt_of_le_of_ne hle ?_
      rintro rfl
      rw [hlast] at hcanonical
      exact absurd hcanonical (by decide)
    · rfl
  obtain ⟨e, m', hrun, rfl⟩ := hloop.fails (s := m) trivial
  exact ⟨m', by rw [unmapOldImage_eq, hrun]⟩

end

end Rockos.OldImage
