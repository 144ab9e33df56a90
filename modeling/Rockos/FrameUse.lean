import Rockos.FrameAccounts

/-!
# Which frames an edit takes

An edit of the page table takes frames for two purposes. Frames that became
tables stay where they are. Frames taken to hold data are the ones a failing
call would have to give back.
-/
namespace Rockos.FrameUse
open FallibleState PhysMemory Paging AddressSpace PageEdits FrameAccounts

/-- From `m` to `m'` the frames of `data` were taken, and apart from them those
of the `new` tables. -/
structure Spends (new : List (ℕ × ℕ)) (data : Set ℕ) (m m' : Mem) : Prop where
  tables : m'.pt.tables = new ++ m.pt.tables
  used : ∀ f, used m'.fa f = true ↔ used m.fa f = true ∨ f ∈ data ∨ f ∈ new.map Prod.snd
  fresh : ∀ f, f ∈ data ∨ f ∈ new.map Prod.snd → PhysMemory.used m.fa f = false
  apart : ∀ f ∈ data, f ∉ new.map Prod.snd

def TakesFrames (data : Set ℕ) (m m' : Mem) : Prop := ∃ new, Spends new data m m'

/-- The free frames are what they were, apart from page-table frames. -/
def SameFrames (m m' : Mem) : Prop := TakesFrames ∅ m m'

theorem sameFrames_of_eq {m m' : Mem} (hfa : m'.fa = m.fa) (htables : m'.pt.tables = m.pt.tables) :
    SameFrames m m' := ⟨[], htables, by simp [hfa], by simp, by simp⟩

theorem TakesFrames.trans {d d' : Set ℕ} {m s t : Mem} (h : TakesFrames d m s)
    (h' : TakesFrames d' s t) : TakesFrames (d ∪ d') m t := by
  obtain ⟨new, h⟩ := h
  obtain ⟨new', h'⟩ := h'
  -- a frame of the second part was still free after the first
  have hlate : ∀ f, f ∈ d' ∨ f ∈ new'.map Prod.snd →
      used m.fa f = false ∧ f ∉ d ∧ f ∉ new.map Prod.snd := by
    intro f hf
    have hfree := h'.fresh f hf
    have hs := h.used f
    rw [hfree] at hs
    simp only [Bool.false_eq_true, false_iff, not_or, Bool.not_eq_true] at hs
    exact hs
  refine ⟨new' ++ new, ?_, ?_, ?_, ?_⟩
  · rw [h'.tables, h.tables, List.append_assoc]
  · intro f
    rw [h'.used, h.used, List.map_append, List.mem_append, Set.mem_union]
    tauto
  · intro f hf
    rw [List.map_append, List.mem_append, Set.mem_union] at hf
    rcases hf with (hd | hd') | hnew' | hnew
    · exact h.fresh f (.inl hd)
    · exact (hlate f (.inl hd')).1
    · exact (hlate f (.inr hnew')).1
    · exact h.fresh f (.inr hnew)
  · intro f hf hmem
    rw [List.map_append, List.mem_append] at hmem
    rcases hf with hd | hd'
    · rcases hmem with hnew' | hnew
      · exact (hlate f (.inr hnew')).2.1 hd
      · exact h.apart f hd hnew
    · rcases hmem with hnew' | hnew
      · exact h'.apart f hd' hnew'
      · exact (hlate f (.inl hd')).2.2 hnew

instance : IsPreorder Mem SameFrames where
  refl _ := sameFrames_of_eq rfl rfl
  trans _ _ _ h h' := by
    have hboth := TakesFrames.trans h h'
    rwa [Set.union_empty] at hboth

/-- What was taken for data can be told from what became a table. -/
theorem TakesFrames.eq_empty {d : Set ℕ} {m m' : Mem} (h : TakesFrames d m m')
    (hsame : SameFrames m m') : d = ∅ := by
  obtain ⟨new, h⟩ := h
  obtain ⟨new', h'⟩ := hsame
  have hnew : new = new' := List.append_cancel_right (h.tables.symm.trans h'.tables)
  subst hnew
  apply Set.eq_empty_of_forall_notMem
  intro f hf
  have hused : used m'.fa f = true := (h.used f).mpr (.inr (.inl hf))
  rcases (h'.used f).mp hused with hold | hnone | htable
  · rw [h.fresh f (.inl hf)] at hold
    cases hold
  · exact hnone
  · exact h.apart f hf htable

/-! ## Single pages -/

theorem takeFrame_takes {m m' : Mem} {otherwise : Stop} {f : ℕ}
    (h : takeFrame otherwise m = .ok f m') : TakesFrames {f} m m' := by
  obtain ⟨fa, hfa, rfl⟩ := takeFrame_ok h
  refine ⟨[], rfl, ?_, ?_, by simp⟩
  · intro g
    rw [allocateFrame_used hfa]
    simp
  · intro g hg
    rcases hg with rfl | hg
    · exact allocateFrame_unused hfa
    · cases hg

theorem linkTable_frames (page : ℕ) : Within SameFrames (linkTable page) := by
  intro m
  rw [linkTable, bind_run]
  rcases takeFrame_counts (.err "FrameAllocationFailed") m with ⟨-, hrun⟩ | ⟨f, fa, hfa, hrun, -⟩
  · rw [hrun]
    exact (refl m : SameFrames m m)
  · rw [hrun]
    refine ⟨[(page, f)], rfl, ?_, ?_, by simp⟩
    · intro g
      have hg : used fa g = (used m.fa g || decide (g = f)) := allocateFrame_used hfa g
      show used fa g = true ↔ _
      rw [hg]
      simp
    · intro g hg
      have : g = f := by simpa using hg
      rw [this]
      exact allocateFrame_unused hfa

/-- Whatever `map_to` takes becomes a table, also when it fails. -/
theorem mapTo_frames (w : Walker) (page frame : ℕ) (flags : PageTableFlags) :
    Within SameFrames (mapTo w page frame flags) := by
  apply within_bind
  · exact within_bind within_get fun _ => within_countLoop (fun _ _ => linkTable_frames page) _ _ _
  · intro _ m
    rcases writeLeaf_cases w page frame flags m with ⟨reason, hrun⟩ | ⟨-, hrun⟩
    · rw [hrun]
      exact refl m
    · rw [hrun]
      exact sameFrames_of_eq rfl rfl

/-- A new page takes one frame, if there is one, whether or not it can be mapped. -/
theorem mapNewPage_takes (w : Walker) (page : ℕ) (flags : PageTableFlags) (m : Mem) :
    (spare m = 0 ∧ mapNewPage w page flags m = .error (.err "()") m) ∨
    (spare m ≠ 0 ∧ ∃ f, TakesFrames {f} m (final (mapNewPage w page flags m)) ∧
      ∀ m', mapNewPage w page flags m = .ok () m' →
        m'.pt.entries = Function.update m.pt.entries page (some ⟨f, flags⟩)) := by
  rcases takeFrame_counts (.err "()") m with ⟨hzero, hrun⟩ | ⟨f, fa, -, hrun, hcount⟩
  · left
    rw [mapNewPage, bind_of_error hrun]
    exact ⟨hzero, rfl⟩
  · right
    refine ⟨by omega, f, ?_, ?_⟩
    · rw [mapNewPage, bind_of_ok hrun]
      have hmap : Within SameFrames (mapErr "()" (mapTo w page f flags)) :=
        within_mapErr (mapTo_frames w page f flags)
      have htakes := (takeFrame_takes hrun).trans (hmap { m with fa := fa })
      rwa [Set.union_empty] at htakes
    · intro m' hok
      rw [mapNewPage, bind_of_ok hrun] at hok
      have hmap := mapErr_ok hok
      rcases mapTo_cases w page f flags { m with fa := fa } with
        ⟨e, t, hbad, -⟩ | ⟨t, hgood, -, hentries⟩
      · rw [hbad] at hmap
        cases hmap
      · rw [hgood] at hmap
        obtain ⟨-, rfl⟩ := EStateM.Result.ok.inj hmap
        exact hentries

/-! ## Loops over pages

Once a frame has been taken for data it stays taken until the loop ends, and
the first page that has to be mapped takes one unless none is left. -/

/-- Some frame was taken for data. -/
def Drawn (m t : Mem) : Prop := ∃ d : Set ℕ, d.Nonempty ∧ TakesFrames d m t

theorem Drawn.not_sameFrames {m t : Mem} (h : Drawn m t) : ¬ SameFrames m t := by
  obtain ⟨d, hd, htakes⟩ := h
  intro hsame
  rw [htakes.eq_empty hsame] at hd
  exact Set.not_nonempty_empty hd

theorem Drawn.spare_ne {m t : Mem} (h : Drawn m t) : spare m ≠ 0 := by
  obtain ⟨d, ⟨f, hf⟩, new, hspends⟩ := h
  have hfree : f ∈ freeFrames m.fa := mem_freeFrames.mpr (hspends.fresh f (.inl hf))
  rw [spare, countFree_eq_card]
  exact Finset.card_ne_zero_of_mem hfree

theorem Drawn.trans {m s t : Mem} {d : Set ℕ} (h : Drawn m s) (h' : TakesFrames d s t) :
    Drawn m t := by
  obtain ⟨d₀, hd, htakes⟩ := h
  exact ⟨d₀ ∪ d, hd.inl, htakes.trans h'⟩

theorem mapNewPage_draws (w : Walker) (page : ℕ) (flags : PageTableFlags) (m : Mem) :
    Meets (fun t => t = m ∨ Drawn m t) (mapNewPage w page flags) (fun _ t => Drawn m t)
      (fun _ t => (t = m ∧ spare m = 0) ∨ Drawn m t) := by
  intro t ht
  rcases mapNewPage_takes w page flags t with ⟨hzero, hrun⟩ | ⟨-, f, htakes, -⟩
  · rw [hrun]
    rcases ht with rfl | hdrawn
    · exact .inl ⟨rfl, hzero⟩
    · exact .inr hdrawn
  · have hdrawn : Drawn m (final (mapNewPage w page flags t)) := by
      rcases ht with rfl | hdrawn
      · exact ⟨{f}, Set.singleton_nonempty f, htakes⟩
      · exact hdrawn.trans htakes
    cases hrun : mapNewPage w page flags t with
    | ok _ s =>
        rw [hrun] at hdrawn
        exact hdrawn
    | error e s =>
        rw [hrun] at hdrawn
        exact .inr hdrawn

/-- How a loop over pages can end early. -/
def GaveUp (m : Mem) (e : Stop) (t : Mem) : Prop :=
  e = .panic ∨ (t = m ∧ spare m = 0) ∨ Drawn m t

theorem growPage_draws (w : Walker) (flags : PageTableFlags) (page : ℕ) (m : Mem) :
    Meets (fun t => t = m ∨ Drawn m t) (growPage w flags page) (fun _ t => t = m ∨ Drawn m t)
      (GaveUp m) := by
  intro t ht
  rw [growPage, bind_run, get_run]
  by_cases hmapped : (translateAddr t (page * pageSize)).isSome = true
  · simp only [if_pos hmapped]
    exact ht
  · simp only [if_neg hmapped]
    exact (mapNewPage_draws w page flags m).mono (fun _ h => h) (fun _ _ h => .inr h)
      (fun _ _ h => .inr h) t ht

theorem mapBrkGrow_draws (w : Walker) (oldEnd newEnd : ℕ) (flags : PageTableFlags) (m : Mem) :
    Meets (fun t => t = m) (mapBrkGrow w oldEnd newEnd flags) (fun _ t => t = m ∨ Drawn m t)
      (GaveUp m) := by
  apply meets_virtAddr_bind (fun _ _ _ => .inl rfl)
  intro _
  apply meets_virtAddr_bind (fun _ _ _ => .inl rfl)
  intro _
  refine (meets_forPages (fun _ t => t = m ∨ Drawn m t)
    (fun page _ _ => growPage_draws w flags page m)).mono (fun _ h => .inl h) ?_ (fun _ _ h => h)
  rintro _ t ⟨-, -, h⟩
  exact h

theorem mapUserAnonPages_draws (w : Walker) (start count : ℕ) (flags : PageTableFlags) (m : Mem) :
    Meets (fun t => t = m) (mapUserAnonPages w start count flags) (fun _ t => t = m ∨ Drawn m t)
      (GaveUp m) := by
  refine (meets_countLoop (fun _ _ t => t = m ∨ Drawn m t) 0 count () ?_).mono
    (fun _ h => .inl h) (fun _ _ h => h) (fun _ _ h => h)
  intro i _ _ _
  apply meets_virtAddr_bind (fun _ _ _ => .inl rfl)
  intro _
  exact (mapNewPage_draws w _ flags m).mono (fun _ h => h) (fun _ _ h => .inr h)
    (fun _ _ h => .inr h)

/-! ## Runs of pages

A run of pages that is mapped takes the frames found in its entries afterwards,
and unmapping it gives back the frames found in them before. -/

/-- The frames a set of pages is mapped to. -/
def framesOf (E : ℕ → Option Entry) (S : Set ℕ) : Set ℕ :=
  { f | ∃ q ∈ S, ∃ e, E q = some e ∧ e.frame = f }

theorem framesOf_update {E : ℕ → Option Entry} {S : Set ℕ} {page : ℕ} (hpage : page ∉ S)
    (e : Entry) :
    framesOf (Function.update E page (some e)) (insert page S) = framesOf E S ∪ {e.frame} := by
  ext f
  constructor
  · rintro ⟨q, hq | hq, e', he, hf⟩
    · rw [hq, Function.update_self] at he
      right
      rw [← hf, ← Option.some.inj he]
      rfl
    · have hne : q ≠ page := fun h => hpage (h ▸ hq)
      rw [Function.update_of_ne hne] at he
      exact .inl ⟨q, hq, e', he, hf⟩
  · rintro (⟨q, hq, e', he, hf⟩ | hf)
    · have hne : q ≠ page := fun h => hpage (h ▸ hq)
      exact ⟨q, .inr hq, e', by rw [Function.update_of_ne hne, he], hf⟩
    · exact ⟨page, .inl rfl, e, Function.update_self .., hf.symm⟩

/-- Frames that `deallocate_frame` does not ignore. -/
def Proper (f : ℕ) : Prop := f ≠ 0 ∧ f < frameBitmapBits

theorem releasePage_frees {virt : ℕ} {m m' : Mem} (h : releasePage virt m = .ok () m') :
    m'.pt.tables = m.pt.tables ∧
    m'.pt.entries = Function.update m.pt.entries (pageOf virt) none ∧
    ∀ f, used m'.fa f = true ↔ used m.fa f = true ∧
      ¬ ∃ e, m.pt.entries (pageOf virt) = some e ∧ e.frame = f ∧ Proper f := by
  rw [releasePage, bind_run] at h
  simp only [attempt] at h
  rcases unmap4kAndFreeBitmap_cases virt m with ⟨hfree, hrun⟩ | ⟨e, he, hrun⟩
  · rw [hrun] at h
    obtain ⟨-, rfl⟩ := EStateM.Result.ok.inj h
    refine ⟨rfl, by rw [← hfree, Function.update_eq_self], fun f => ?_⟩
    simp [hfree]
  · rw [hrun] at h
    obtain ⟨-, rfl⟩ := EStateM.Result.ok.inj h
    refine ⟨rfl, rfl, fun f => ?_⟩
    show used (deallocateFrame m.fa e.frame) f = true ↔ _
    rw [deallocateFrame_used, Bool.and_eq_true, decide_eq_true_eq, he]
    apply and_congr_right
    intro _
    constructor
    · rintro hnot ⟨e', he', rfl, hne, hlt⟩
      obtain rfl := Option.some.inj he'
      exact hnot ⟨rfl, hne, hlt⟩
    · rintro hnot ⟨rfl, hne, hlt⟩
      exact hnot ⟨e, rfl, rfl, hne, hlt⟩

section
variable {start : ℕ} (hstart : start % pageSize = 0)
include hstart

theorem pagesFrom_succ (i : ℕ) :
    pagesFrom start (i + 1) = insert (start / pageSize + i) (pagesFrom start i) := by
  ext q
  constructor
  · intro hq
    by_cases hpage : q = start / pageSize + i
    · exact .inl hpage
    · exact .inr ⟨hq.1, page_lt_of_ne hstart hpage hq.2⟩
  · rintro (rfl | hq)
    · exact page_mem_range hstart (Nat.lt_succ_self i)
    · refine ⟨hq.1, hq.2.trans_le ?_⟩
      exact Nat.add_le_add_left (Nat.mul_le_mul_right _ (Nat.le_succ i)) _

theorem next_notMem_pagesFrom (i : ℕ) : start / pageSize + i ∉ pagesFrom start i := by
  intro hmem
  have hdiv : start / pageSize * pageSize = start :=
    Nat.div_mul_cancel (Nat.dvd_of_mod_eq_zero hstart)
  have hlt := hmem.2
  rw [Nat.add_mul, hdiv] at hlt
  exact lt_irrefl _ hlt

theorem mapUserAnonPages_takes {w : Walker} {count : ℕ} {flags : PageTableFlags} {m m' : Mem}
    (hlow : start + count * pageSize ≤ 2 ^ 47)
    (h : mapUserAnonPages w start count flags m = .ok () m') :
    TakesFrames (framesOf m'.pt.entries (pagesFrom start count)) m m' := by
  have hnone : framesOf m.pt.entries (pagesFrom start 0) = ∅ := by
    apply Set.eq_empty_of_forall_notMem
    rintro f ⟨q, hq, -⟩
    have := hq.1
    have := hq.2
    omega
  have hloop := countLoop_ok
    (fun i _ t => TakesFrames (framesOf t.pt.entries (pagesFrom start i)) m t) h ?_ ?_
  · rwa [Nat.zero_add] at hloop
  · show TakesFrames (framesOf m.pt.entries (pagesFrom start 0)) m m
    rw [hnone]
    exact sameFrames_of_eq rfl rfl
  · intro i _ s _ t _ hi hs hrun
    obtain ⟨-, hmap⟩ := virtAddr_bind_ok hrun
    rw [signExtend_of_lt (step_lt (by omega) hlow), pageOf_add_mul] at hmap
    rcases mapNewPage_takes w (start / pageSize + i) flags s with ⟨-, herr⟩ | ⟨-, f, htakes, hok⟩
    · rw [herr] at hmap
      cases hmap
    · rw [hok t hmap, pagesFrom_succ hstart, framesOf_update (next_notMem_pagesFrom hstart i)]
      rw [hmap] at htakes
      exact hs.trans htakes

theorem unmapUserRange_frees {count : ℕ} {m m' : Mem} (hlow : start + count * pageSize ≤ 2 ^ 47)
    (h : unmapUserRange start count m = .ok () m')
    (hproper : ∀ f ∈ framesOf m.pt.entries (pagesFrom start count), Proper f) :
    m'.pt.tables = m.pt.tables ∧ ∀ f, used m'.fa f = true ↔
      used m.fa f = true ∧ f ∉ framesOf m.pt.entries (pagesFrom start count) := by
  -- the pages still to come are mapped as they were
  have hloop := countLoop_ok (fun i _ t => t.pt.tables = m.pt.tables ∧
    (∀ q ∉ pagesFrom start i, t.pt.entries q = m.pt.entries q) ∧
    ∀ f, used t.fa f = true ↔ used m.fa f = true ∧
      ¬ (f ∈ framesOf m.pt.entries (pagesFrom start i) ∧ Proper f)) h ?_ ?_
  · rw [Nat.zero_add] at hloop
    obtain ⟨htables, -, hused⟩ := hloop
    refine ⟨htables, fun f => (hused f).trans (and_congr_right fun _ => not_congr ?_)⟩
    exact and_iff_left_of_imp (hproper f)
  · refine ⟨rfl, fun _ _ => rfl, fun f => (and_iff_left ?_).symm⟩
    rintro ⟨⟨q, hq, -⟩, -⟩
    have := hq.1
    have := hq.2
    omega
  · intro i _ s _ t _ hi hs hrun
    obtain ⟨htables, hrest, hused⟩ := hs
    obtain ⟨htables', hentries, hused'⟩ := releasePage_frees (virtAddr_bind_ok hrun).2
    rw [signExtend_of_lt (step_lt (by omega) hlow), pageOf_add_mul] at hentries hused'
    refine ⟨htables'.trans htables, fun q hq => ?_, fun f => ?_⟩
    · rw [pagesFrom_succ hstart, Set.mem_insert_iff, not_or] at hq
      rw [hentries, Function.update_of_ne hq.1, hrest q hq.2]
    · rw [hused', hused, hrest _ (next_notMem_pagesFrom hstart i), pagesFrom_succ hstart, and_assoc,
        ← not_or]
      refine and_congr_right fun _ => not_congr ⟨?_, ?_⟩
      · rintro (⟨⟨q, hq, e, he, hf⟩, hproper⟩ | ⟨e, he, hf, hproper⟩)
        · exact ⟨⟨q, .inr hq, e, he, hf⟩, hproper⟩
        · exact ⟨⟨_, .inl rfl, e, he, hf⟩, hproper⟩
      · rintro ⟨⟨q, hq | hq, e, he, hf⟩, hproper⟩
        · rw [hq] at he
          exact .inr ⟨e, he, hf, hproper⟩
        · exact .inl ⟨⟨q, hq, e, he, hf⟩, hproper⟩

end

end Rockos.FrameUse
