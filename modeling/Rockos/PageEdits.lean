import Rockos.AddressSpace
import Rockos.MapEdits

/-!
# What the memory calls do to the page table

One statement for each function, about its effect on the leaf entries. Frames
taken for intermediate tables, and frames lost by a failing call, do not appear
in it.
-/
namespace Rockos.PageEdits
open FallibleState PhysMemory Paging KernelState AddressSpace MapEdits

/-! ## Single pages -/

theorem takeFrame_cases (otherwise : Stop) (m : Mem) :
    takeFrame otherwise m = .error otherwise m ∨
    ∃ f m', takeFrame otherwise m = .ok f m' ∧ m'.pt = m.pt := by
  unfold takeFrame
  cases allocateFrame m.fa with
  | none => exact .inl rfl
  | some r => exact .inr ⟨r.1, _, rfl, rfl⟩

theorem takeFrame_ok {otherwise : Stop} {m m' : Mem} {f : ℕ}
    (h : takeFrame otherwise m = .ok f m') :
    ∃ fa, allocateFrame m.fa = some (f, fa) ∧ m' = { m with fa := fa } := by
  unfold takeFrame at h
  cases ha : allocateFrame m.fa with
  | none => simp [ha] at h
  | some r =>
      simp only [ha, EStateM.Result.ok.injEq] at h
      exact ⟨r.2, by rw [← h.1], h.2.symm⟩

def SameEntries (m m' : Mem) : Prop := m'.pt.entries = m.pt.entries

instance : IsPreorder Mem SameEntries where
  refl _ := rfl
  trans _ _ _ h k := k.trans h

theorem linkTable_entries (page : ℕ) : Within SameEntries (linkTable page) := by
  intro m
  rw [linkTable, bind_run]
  rcases takeFrame_cases (.err "FrameAllocationFailed") m with hrun | ⟨f, m', hrun, hpt⟩
  · rw [hrun]
    rfl
  · rw [hrun]
    exact (congrArg PageTable.entries hpt : m'.pt.entries = m.pt.entries)

theorem linkMissing_entries (w : Walker) (page : ℕ) : Within SameEntries (linkMissing w page) :=
  within_bind within_get fun _ => within_countLoop (fun _ _ => linkTable_entries page) _ _ _

theorem mapTo_cases (w : Walker) (page frame : ℕ) (flags : PageTableFlags) (m : Mem) :
    (∃ e m', mapTo w page frame flags m = .error e m' ∧ m'.pt.entries = m.pt.entries) ∨
    (∃ m', mapTo w page frame flags m = .ok () m' ∧ m.pt.entries page = none ∧
      m'.pt.entries = Function.update m.pt.entries page (some ⟨frame, flags⟩)) := by
  have hlink := linkMissing_entries w page m
  rw [mapTo, bind_run]
  cases hrun : linkMissing w page m with
  | error e t =>
      rw [hrun] at hlink
      exact .inl ⟨e, t, rfl, hlink⟩
  | ok _ t =>
      rw [hrun] at hlink
      have ht : t.pt.entries = m.pt.entries := hlink
      rcases writeLeaf_cases w page frame flags t with ⟨reason, hleaf⟩ | ⟨hfree, hleaf⟩
      · exact .inl ⟨_, t, hleaf, ht⟩
      · exact .inr ⟨_, hleaf, by rwa [← ht], by rw [← ht]; rfl⟩

theorem mapNewPage_cases (w : Walker) (page : ℕ) (flags : PageTableFlags) (m : Mem) :
    (∃ e m', mapNewPage w page flags m = .error e m' ∧ m'.pt.entries = m.pt.entries) ∨
    (∃ f m', mapNewPage w page flags m = .ok () m' ∧ m.pt.entries page = none ∧
      m'.pt.entries = Function.update m.pt.entries page (some ⟨f, flags⟩)) := by
  rw [mapNewPage, bind_run]
  rcases takeFrame_cases (.err "()") m with hrun | ⟨f, m', hrun, hpt⟩
  · rw [hrun]
    exact .inl ⟨_, m, rfl, rfl⟩
  · rw [hrun]
    simp only [mapErr]
    rcases mapTo_cases w page f flags m' with ⟨e, t, hmap, ht⟩ | ⟨t, hmap, hfree, ht⟩
    · rw [hmap]
      cases e <;> exact .inl ⟨_, t, rfl, by rw [ht, hpt]⟩
    · rw [hmap]
      exact .inr ⟨f, t, rfl, by rwa [← hpt], by rw [ht, hpt]⟩

/-- With a frame to spare and no table missing, a free page is mapped. -/
theorem mapNewPage_ok {w : Walker} {page f : ℕ} (flags : PageTableFlags) {m : Mem}
    {fa : BitmapFrameAllocator} (hfa : allocateFrame m.fa = some (f, fa))
    (hmissing : w.missing m.pt.tables page = 0) (hblocked : w.blocked m.pt.tables page = false)
    (hfree : m.pt.entries page = none) :
    mapNewPage w page flags m = .ok () (setEntry page (some ⟨f, flags⟩) { m with fa := fa }) := by
  simp [mapNewPage, mapErr, mapTo, linkMissing, writeLeaf, takeFrame, bind_run, hfa, hmissing,
    hblocked, hfree, countLoop]

theorem releasePage_run (virt : ℕ) (m : Mem) : ∃ m', releasePage virt m = .ok () m' ∧
    m'.pt.entries = Function.update m.pt.entries (pageOf virt) none := by
  rw [releasePage, bind_run]
  simp only [attempt]
  rcases unmap4kAndFreeBitmap_cases virt m with ⟨hfree, hrun⟩ | ⟨e, -, hrun⟩
  · rw [hrun]
    exact ⟨m, rfl, by rw [← hfree, Function.update_eq_self]⟩
  · rw [hrun]
    exact ⟨_, rfl, rfl⟩

/-- Releasing a page has an effect only if it is mapped. -/
theorem releasePage_within {R : Mem → Mem → Prop} [IsPreorder Mem R] (virt : ℕ)
    (h : ∀ m e, m.pt.entries (pageOf virt) = some e →
      R m { setEntry (pageOf virt) none m with fa := deallocateFrame m.fa e.frame }) :
    Within R (releasePage virt) := by
  refine within_bind (within_attempt ?_) fun _ => within_pure _
  intro m
  rcases unmap4kAndFreeBitmap_cases virt m with ⟨-, hrun⟩ | ⟨e, he, hrun⟩
  · rw [hrun]
    exact refl m
  · rw [hrun]
    exact h m e he

/-! ## The statics

No operation on pages touches the statics that describe the loaded image. -/

def SameImage (m m' : Mem) : Prop := m'.image = m.image

instance : IsPreorder Mem SameImage where
  refl _ := rfl
  trans _ _ _ h k := k.trans h

theorem takeFrame_image (otherwise : Stop) : Within SameImage (takeFrame otherwise) := by
  intro m
  unfold takeFrame
  cases allocateFrame m.fa with
  | none => rfl
  | some r => rfl

/-- A relation that ignores the allocator and the page table. -/
theorem within_mapTo {R : Mem → Mem → Prop} [IsPreorder Mem R]
    (hfa : ∀ m fa, R m { m with fa := fa }) (hpt : ∀ m pt, R m { m with pt := pt }) (w : Walker)
    (page frame : ℕ) (flags : PageTableFlags) : Within R (mapTo w page frame flags) := by
  have htake : Within R (takeFrame (.err "FrameAllocationFailed")) := by
    intro m
    unfold takeFrame
    cases allocateFrame m.fa with
    | none => exact refl m
    | some r => exact hfa m r.2
  have hlink : Within R (linkTable page) :=
    within_bind htake fun _ => within_modify _ fun m => hpt m _
  refine within_bind (within_bind within_get fun _ => within_countLoop (fun _ _ => hlink) _ _ _)
    fun _ => within_bind within_get fun m => within_ite (within_throw _) ?_
  cases m.pt.entries page with
  | some e => exact within_throw _
  | none => exact within_modify _ fun m => hpt m _

theorem mapTo_image (w : Walker) (page frame : ℕ) (flags : PageTableFlags) :
    Within SameImage (mapTo w page frame flags) :=
  within_mapTo (fun _ _ => rfl) (fun _ _ => rfl) w page frame flags

theorem within_mapErr {R : Mem → Mem → Prop} {α : Type} {reason : String} {x : MemM α}
    (h : Within R x) : Within R (mapErr reason x) := by
  intro m
  have hx := h m
  unfold mapErr
  cases hr : x m with
  | ok a t => simpa [hr] using hx
  | error e t => cases e <;> simpa [hr] using hx

theorem mapNewPage_image (w : Walker) (page : ℕ) (flags : PageTableFlags) :
    Within SameImage (mapNewPage w page flags) :=
  within_bind (takeFrame_image _) fun frame => within_mapErr (mapTo_image w page frame flags)

/-! ## Addresses of pages -/

theorem virtAddr_cases (a : ℕ) (m : Mem) :
    virtAddr a m = .ok (signExtend a) m ∨ virtAddr a m = .error .panic m := by
  unfold virtAddr
  split_ifs <;> simp

theorem pageOf_mul (page : ℕ) : pageOf (page * pageSize) = page :=
  Nat.mul_div_cancel _ (by decide)

theorem translateAddr_isSome (m : Mem) (page : ℕ) :
    (translateAddr m (page * pageSize)).isSome = (m.pt.entries page).isSome := by
  simp [translateAddr, pageOf_mul]

/-! ## Ranges of pages -/

/-- The pages from `first` to `last`. -/
def pageRange (first last : ℕ) : Set ℕ := { q | first ≤ q ∧ q ≤ last }

instance (page : ℕ) : Decidable (CanonicalPage page) := inferInstanceAs (Decidable (_ = true))

/-- The pages from `first` to `last` that have an address, in order. -/
def pageList (first last : ℕ) : List ℕ :=
  (List.range' first (last + 1 - first)).filter fun page => CanonicalPage page

section PageList
variable {first last page q : ℕ}

theorem mem_pageList : q ∈ pageList first last ↔ first ≤ q ∧ q ≤ last ∧ CanonicalPage q := by
  rw [pageList, List.mem_filter, List.mem_range'_1, decide_eq_true_eq]
  constructor
  · rintro ⟨⟨hlo, hhi⟩, hq⟩
    exact ⟨hlo, by omega, hq⟩
  · rintro ⟨hlo, hhi, hq⟩
    exact ⟨⟨hlo, by omega⟩, hq⟩

theorem pageList_of_lt (h : last < first) : pageList first last = [] := by
  rw [pageList, show last + 1 - first = 0 by omega]
  rfl

theorem pageList_cons (hfirst : CanonicalPage first) (hle : first ≤ last) :
    pageList first last = first :: pageList (nextPage first) last := by
  have hlt := lt_nextPage first
  -- between the two pages there is none that has an address
  have hgap : ∀ n, first + 1 + n ≤ nextPage first →
      (List.range' (first + 1) n).filter (fun page => CanonicalPage page) = [] := by
    intro n hn
    rw [List.filter_eq_nil_iff]
    intro q hq
    rw [List.mem_range'_1] at hq
    rw [decide_eq_true_eq]
    intro hcanonical
    have hle := (lt_nextPage_iff hfirst hcanonical).mp (by omega)
    omega
  have hrest : (List.range' (first + 1) (last - first)).filter (fun page => CanonicalPage page) =
      pageList (nextPage first) last := by
    rcases Nat.lt_or_ge last (nextPage first) with hend | hend
    · rw [pageList_of_lt hend]
      exact hgap _ (by omega)
    · rw [show last - first = (nextPage first - (first + 1)) + (last + 1 - nextPage first) by omega,
        ← List.range'_append_1, List.filter_append, hgap _ (by omega), List.nil_append,
        show first + 1 + (nextPage first - (first + 1)) = nextPage first by omega]
      rfl
  rw [← hrest, pageList, show last + 1 - first = last - first + 1 by omega, List.range'_succ,
    List.filter_cons, if_pos (decide_eq_true hfirst)]

theorem mem_of_split {done rest : List ℕ} (h : pageList first last = done ++ page :: rest) :
    page ∈ pageList first last := by
  rw [h]
  exact List.mem_append_cons_self

/-- The pages before one of the list are those with smaller numbers. -/
theorem mem_before_iff {done rest : List ℕ} (h : pageList first last = done ++ page :: rest) :
    q ∈ done ↔ q ∈ pageList first last ∧ q < page := by
  have hsorted : (pageList first last).Pairwise (· < ·) :=
    (List.pairwise_lt_range' 1).filter _
  rw [h] at hsorted
  obtain ⟨-, hrest, hbefore⟩ := List.pairwise_append.mp hsorted
  rw [h, List.mem_append, List.mem_cons]
  constructor
  · intro hq
    exact ⟨.inl hq, hbefore q hq page (List.mem_cons_self ..)⟩
  · rintro ⟨hq | rfl | hq, hlt⟩
    · exact hq
    · exact absurd hlt (lt_irrefl _)
    · exact absurd ((List.pairwise_cons.mp hrest).1 q hq) (by omega)

theorem not_mem_before {done rest : List ℕ} (h : pageList first last = done ++ page :: rest) :
    page ∉ done :=
  fun hmem => lt_irrefl page ((mem_before_iff h).mp hmem).2

/-- A loop over pages anywhere, with an invariant for the list of those done. -/
theorem meets_forPages_list (body : ℕ → MemM Unit) (hfirst : CanonicalPage first)
    (hlast : CanonicalPage last) (I : List ℕ → Mem → Prop) {Err : Stop → Mem → Prop}
    (hbody : ∀ done page rest, pageList first last = done ++ page :: rest →
      Meets (I done) (body page) (fun _ => I (done ++ [page])) Err) :
    Meets (I []) (forPages first last body) (fun _ => I (pageList first last)) Err := by
  refine (meets_forPages (fun page m => (page ≤ last → CanonicalPage page) ∧
    ∃ done, pageList first last = done ++ pageList page last ∧ I done m) ?_).mono
    (fun m hm => ⟨fun _ => hfirst, [], rfl, hm⟩) (fun _ m h => ?_) (fun _ _ h => h)
  · rintro page - hhi m ⟨hpage, done, hsplit, hm⟩
    have hcons := pageList_cons (hpage hhi) hhi
    rw [hcons] at hsplit
    refine (hbody done page _ hsplit).mono (fun _ h => h) (fun _ t ht => ⟨?_, ?_⟩)
      (fun _ _ h => h) m hm
    · exact canonicalPage_nextPage (hpage hhi) hlast
    · exact ⟨done ++ [page], by rw [hsplit, List.append_assoc]; rfl, ht⟩
  · obtain ⟨page, hlt, -, done, hsplit, hI⟩ := h
    rwa [pageList_of_lt hlt, List.append_nil, ← hsplit] at *

theorem within_forPages_list {R : Mem → Mem → Prop} [IsPreorder Mem R] {body : ℕ → MemM Unit}
    (hfirst : CanonicalPage first) (hlast : CanonicalPage last)
    (h : ∀ page ∈ pageList first last, Within R (body page)) :
    Within R (forPages first last body) := by
  intro s
  refine Meets.both (P := R s) ?_ (refl s)
  exact meets_forPages_list body hfirst hlast (fun _ => R s)
    fun _ page _ hsplit => (h page (mem_of_split hsplit)).continues s

/-- The invariant of a loop over pages that returned. -/
theorem forPages_list_ok {body : ℕ → MemM Unit} {m m' : Mem} (I : List ℕ → Mem → Prop)
    (hfirst : CanonicalPage first) (hlast : CanonicalPage last)
    (h : forPages first last body m = .ok () m') (hstart : I [] m)
    (hbody : ∀ done page s t, I done s → body page s = .ok () t → I (done ++ [page]) t) :
    I (pageList first last) m' := by
  have hstep : ∀ done page, Meets (I done) (body page) (fun _ => I (done ++ [page]))
      (fun _ _ => True) := by
    intro done page s hs
    cases hrun : body page s with
    | ok _ t => exact hbody done page s t hs hrun
    | error e t => trivial
  have hloop := meets_forPages_list body hfirst hlast I (fun done page _ _ => hstep done page) m
    hstart
  rwa [h] at hloop

end PageList

/-- The pages from the one that holds address `a` to the one that holds `b`. -/
def pagesOf (a b : ℕ) : List ℕ := pageList (pageOf (signExtend a)) (pageOf (signExtend b))

theorem mem_pagesOf_of_lt {a b q : ℕ} (hb : b < 2 ^ 47) :
    q ∈ pagesOf a b ↔ q ∈ pageRange (pageOf a) (pageOf b) := by
  have hle : a ≤ signExtend a := by
    unfold signExtend
    split_ifs <;> omega
  have hend : pageOf b < 2 ^ 35 := by
    unfold pageOf pageSize
    omega
  rw [pagesOf, mem_pageList, signExtend_of_lt hb, canonicalPage_iff]
  by_cases ha : a < 2 ^ 47
  · rw [signExtend_of_lt ha]
    exact ⟨fun h => ⟨h.1, h.2.1⟩, fun h => ⟨h.1, h.2, .inl (h.2.trans_lt hend)⟩⟩
  · -- both ranges are empty
    have hfirst : 2 ^ 35 ≤ pageOf a := by
      unfold pageOf pageSize
      omega
    have hfirst' : pageOf a ≤ pageOf (signExtend a) := Nat.div_le_div_right hle
    exact ⟨fun h => absurd (h.1.trans h.2.1) (by omega), fun h => absurd (h.1.trans h.2) (by omega)⟩

section
variable {E : ℕ → Option Entry}

theorem growPage_meets (w : Walker) (flags : PageTableFlags) {S : Set ℕ} (done : List ℕ) {page : ℕ}
    (hpage : page ∈ S) :
    Meets (fun m => Adds S (·.flags = flags) E m.pt.entries ∧
        ∀ q ∈ done, (m.pt.entries q).isSome)
      (growPage w flags page)
      (fun _ m => Adds S (·.flags = flags) E m.pt.entries ∧
        ∀ q ∈ done ++ [page], (m.pt.entries q).isSome)
      (fun _ m => Adds S (·.flags = flags) E m.pt.entries) := by
  rintro m ⟨hadds, hdone⟩
  rw [growPage, bind_run]
  simp only [get_run, translateAddr_isSome, List.mem_append, List.mem_singleton]
  split_ifs with hp
  · refine ⟨hadds, fun q hq => ?_⟩
    rcases hq with hq | rfl
    · exact hdone q hq
    · exact hp
  · rcases mapNewPage_cases w page flags m with ⟨e, t, hrun, ht⟩ | ⟨f, t, hrun, hfree, ht⟩
    · rw [hrun]
      simpa [ht] using hadds
    · rw [hrun]
      simp only [ht]
      refine ⟨hadds.update hpage hfree rfl, fun q hq => ?_⟩
      by_cases heq : q = page
      · simp [heq]
      · rw [Function.update_of_ne heq]
        exact hdone q (hq.resolve_right heq)

/-- Growing the heap adds pages of the range and, if it succeeds, leaves none
of them out. -/
theorem mapBrkGrow_meets (w : Walker) (oldEnd : ℕ) {newEnd : ℕ} (hnew : newEnd ≤ userBrkLimit)
    (flags : PageTableFlags) :
    Meets (fun m => m.pt.entries = E) (mapBrkGrow w oldEnd newEnd flags)
      (fun _ m => Adds (pageRange (pageOf oldEnd) (pageOf (newEnd - 1))) (·.flags = flags) E
          m.pt.entries ∧
        ∀ q ∈ pageRange (pageOf oldEnd) (pageOf (newEnd - 1)), (m.pt.entries q).isSome)
      (fun _ m => Adds (pageRange (pageOf oldEnd) (pageOf (newEnd - 1))) (·.flags = flags) E
        m.pt.entries) := by
  have hlow : newEnd - 1 < 2 ^ 47 := by
    unfold userBrkLimit at hnew
    omega
  have hstart : ∀ m : Mem, m.pt.entries = E →
      Adds (pageRange (pageOf oldEnd) (pageOf (newEnd - 1))) (·.flags = flags) E m.pt.entries := by
    intro m hm
    rw [hm]
    exact Adds.refl _
  apply meets_virtAddr_bind (fun _ => hstart)
  intro hfirst
  apply meets_virtAddr_bind (fun _ => hstart)
  intro hlast
  have hloop := meets_forPages_list (growPage w flags) (canonicalPage_pageOf hfirst)
    (canonicalPage_pageOf hlast)
    (fun done t => Adds (pageRange (pageOf oldEnd) (pageOf (newEnd - 1))) (·.flags = flags)
        E t.pt.entries ∧
      ∀ q ∈ done, (t.pt.entries q).isSome)
    (fun done page rest hsplit => growPage_meets w flags done
      ((mem_pagesOf_of_lt hlow).mp (mem_of_split hsplit)))
  refine hloop.mono (fun m hm => ⟨hstart m hm, fun q hq => absurd hq List.not_mem_nil⟩) ?_
    (fun _ _ h => h)
  rintro _ t ⟨hadds, hdone⟩
  exact ⟨hadds, fun q hq => hdone q ((mem_pagesOf_of_lt hlow).mpr hq)⟩

theorem shrinkPage_meets {S : Set ℕ} {page : ℕ} (hpage : page ∈ S) :
    Meets (fun m => Removes S E m.pt.entries) (shrinkPage page)
      (fun _ m => Removes S E m.pt.entries) (fun e _ => e = .panic) := by
  intro m hm
  rw [shrinkPage, bind_run]
  simp only [get_run]
  split_ifs with hp
  · exact hm
  · obtain ⟨t, hrun, ht⟩ := releasePage_run (page * pageSize) m
    rw [hrun]
    simp only [ht, pageOf_mul]
    exact hm.update hpage

/-- Shrinking never reports a failure. -/
theorem mapBrkShrink_meets (newEnd oldEnd : ℕ) :
    Meets (fun m => m.pt.entries = E) (mapBrkShrink newEnd oldEnd)
      (fun _ m => Removes { q | q ∈ pagesOf (alignUp newEnd pageSize) (oldEnd - 1) } E m.pt.entries)
      (fun e _ => e = .panic) := by
  have hstart : ∀ m : Mem, m.pt.entries = E →
      Removes { q | q ∈ pagesOf (alignUp newEnd pageSize) (oldEnd - 1) } E m.pt.entries := by
    intro m hm
    rw [hm]
    exact Removes.refl _
  apply meets_ite (fun _ => meets_pure () hstart)
  intro _
  apply meets_ite (fun _ => meets_pure () hstart)
  intro _
  apply meets_virtAddr_bind (fun _ _ _ => rfl)
  intro hfirst
  apply meets_virtAddr_bind (fun _ _ _ => rfl)
  intro hlast
  have hloop := meets_forPages_list shrinkPage (canonicalPage_pageOf hfirst)
    (canonicalPage_pageOf hlast) (fun _ t => Removes _ E t.pt.entries)
    (fun done page rest hsplit => shrinkPage_meets
      (S := { q | q ∈ pagesOf (alignUp newEnd pageSize) (oldEnd - 1) })
      (mem_of_split hsplit))
  exact hloop.mono hstart (fun _ _ h => h) (fun _ _ h => h)

theorem shrinkPage_ok {page : ℕ} {m m' : Mem} (h : shrinkPage page m = .ok () m') :
    m'.pt.entries = Function.update m.pt.entries page none := by
  simp only [shrinkPage, bind_run, get_run] at h
  split_ifs at h with hp
  · obtain ⟨-, rfl⟩ := EStateM.Result.ok.inj h
    have hnone : m.pt.entries page = none := by
      simpa [translateAddr, pageOf_mul] using hp
    rw [← hnone, Function.update_eq_self]
  · obtain ⟨t, hrun, ht⟩ := releasePage_run (page * pageSize) m
    rw [hrun] at h
    obtain ⟨-, rfl⟩ := EStateM.Result.ok.inj h
    rwa [pageOf_mul] at ht

theorem alignUp_le_mul {x q : ℕ} : alignUp x pageSize ≤ q * pageSize ↔ x ≤ q * pageSize := by
  have hpos : 0 < pageSize := by decide
  rw [alignUp, Nat.mul_le_mul_right_iff hpos, ← Nat.lt_succ_iff, Nat.div_lt_iff_lt_mul hpos,
    Nat.succ_mul]
  omega

/-- The page that holds the new end stays, also when only its first bytes do. -/
theorem mem_shrinkPages {newEnd oldEnd q : ℕ} (hpos : 0 < oldEnd) (hold : oldEnd ≤ userBrkLimit) :
    q ∈ pagesOf (alignUp newEnd pageSize) (oldEnd - 1) ↔
      newEnd ≤ q * pageSize ∧ q * pageSize < oldEnd := by
  have hsize : 0 < pageSize := by decide
  have hlo : pageOf (alignUp newEnd pageSize) ≤ q ↔ newEnd ≤ q * pageSize := by
    rw [← alignUp_le_mul, ← Nat.mul_le_mul_right_iff hsize, alignUp, pageOf_mul]
  have hhi : q ≤ pageOf (oldEnd - 1) ↔ q * pageSize < oldEnd := by
    rw [pageOf, Nat.le_div_iff_mul_le hsize]
    omega
  have hlow : oldEnd - 1 < 2 ^ 47 := by
    unfold userBrkLimit at hold
    omega
  exact (mem_pagesOf_of_lt hlow).trans (and_congr hlo hhi)

/-- If nothing lies between the two ends, there is no page to give up. -/
theorem shrinkPages_of_le {newEnd oldEnd : ℕ} (hlo : userBrkBase ≤ newEnd)
    (hhi : newEnd ≤ userBrkLimit) (hle : oldEnd ≤ alignUp newEnd pageSize) :
    pagesOf (alignUp newEnd pageSize) (oldEnd - 1) = [] := by
  have hlow : alignUp newEnd pageSize < 2 ^ 47 := by
    unfold alignUp pageSize userBrkLimit at *
    omega
  rw [pagesOf, signExtend_of_lt hlow, signExtend_of_lt (by omega)]
  apply pageList_of_lt
  unfold alignUp pageOf pageSize userBrkBase at *
  omega

/-- Exactly the pages between the two ends are gone. -/
theorem mapBrkShrink_ok {newEnd oldEnd : ℕ} {m m' : Mem} (hlo : userBrkBase ≤ newEnd)
    (hhi : newEnd ≤ userBrkLimit) (h : mapBrkShrink newEnd oldEnd m = .ok () m') (q : ℕ) :
    m'.pt.entries q =
      if q ∈ pagesOf (alignUp newEnd pageSize) (oldEnd - 1) then none else m.pt.entries q := by
  have halign : newEnd ≤ alignUp newEnd pageSize := by
    unfold alignUp pageSize
    omega
  unfold mapBrkShrink at h
  split_ifs at h with hempty hnone
  · obtain ⟨-, rfl⟩ := EStateM.Result.ok.inj h
    rw [shrinkPages_of_le hlo hhi (by omega), if_neg List.not_mem_nil]
  · obtain ⟨-, rfl⟩ := EStateM.Result.ok.inj h
    rw [shrinkPages_of_le hlo hhi hnone, if_neg List.not_mem_nil]
  · obtain ⟨hfirst, h⟩ := virtAddr_bind_ok h
    obtain ⟨hlast, h⟩ := virtAddr_bind_ok h
    refine forPages_list_ok (fun done t => ∀ q, t.pt.entries q =
      if q ∈ done then none else m.pt.entries q) (canonicalPage_pageOf hfirst)
      (canonicalPage_pageOf hlast) h (fun q => by rw [if_neg List.not_mem_nil]) ?_ q
    intro done page s t hs hrun q
    rw [shrinkPage_ok hrun]
    by_cases hq : q = page
    · rw [hq, Function.update_self, if_pos (List.mem_append_right _ (List.mem_singleton_self _))]
    · rw [Function.update_of_ne hq, hs q]
      exact if_congr (by simp [hq]) rfl rfl

theorem pageOf_add_mul (start i : ℕ) : pageOf (start + i * pageSize) = start / pageSize + i :=
  Nat.add_mul_div_right _ _ (by decide)

theorem step_lt {start i count top : ℕ} (hi : i < count)
    (htop : start + count * pageSize ≤ top) : start + i * pageSize < top := by
  have hlt : i * pageSize < count * pageSize := Nat.mul_lt_mul_of_pos_right hi (by decide)
  omega

theorem page_mem_range {start i count : ℕ} (hstart : start % pageSize = 0) (hi : i < count) :
    start ≤ (start / pageSize + i) * pageSize ∧
      (start / pageSize + i) * pageSize < start + count * pageSize := by
  have hdiv : start / pageSize * pageSize = start :=
    Nat.div_mul_cancel (Nat.dvd_of_mod_eq_zero hstart)
  have hlt : i * pageSize < count * pageSize := Nat.mul_lt_mul_of_pos_right hi (by decide)
  rw [Nat.add_mul, hdiv]
  omega

theorem page_lt_of_ne {start i q : ℕ} (hstart : start % pageSize = 0)
    (hne : q ≠ start / pageSize + i) (hq : q * pageSize < start + (i + 1) * pageSize) :
    q * pageSize < start + i * pageSize := by
  have hdiv : start / pageSize * pageSize = start :=
    Nat.div_mul_cancel (Nat.dvd_of_mod_eq_zero hstart)
  have hle : q < start / pageSize + i + 1 := by
    refine Nat.lt_of_mul_lt_mul_right (a := pageSize) ?_
    rwa [Nat.add_assoc, Nat.add_mul, hdiv]
  have hlt : q * pageSize < (start / pageSize + i) * pageSize :=
    Nat.mul_lt_mul_of_pos_right (by omega) (by decide)
  rwa [Nat.add_mul, hdiv] at hlt

/-- The pages of `count` page sizes from `start` on. -/
def pagesFrom (start count : ℕ) : Set ℕ :=
  { q | start ≤ q * pageSize ∧ q * pageSize < start + count * pageSize }

/-- Anonymous pages are mapped only where nothing was mapped. -/
theorem anonPage_meets (w : Walker) {start : ℕ} (hstart : start % pageSize = 0) {i count : ℕ}
    (hi : i < count) (hlow : start + count * pageSize ≤ 2 ^ 47) (flags : PageTableFlags) :
    Meets (fun m => Adds (pagesFrom start count) (·.flags = flags) E m.pt.entries ∧
        ∀ q ∈ pagesFrom start i, E q = none ∧ ∃ f, m.pt.entries q = some ⟨f, flags⟩)
      (virtAddr (start + i * pageSize) >>= fun v => mapNewPage w (pageOf v) flags)
      (fun _ m => Adds (pagesFrom start count) (·.flags = flags) E m.pt.entries ∧
        ∀ q ∈ pagesFrom start (i + 1), E q = none ∧ ∃ f, m.pt.entries q = some ⟨f, flags⟩)
      (fun _ m => Adds (pagesFrom start count) (·.flags = flags) E m.pt.entries) := by
  rw [virtAddr_of_lt (step_lt hi hlow), pure_bind, pageOf_add_mul]
  rintro m ⟨hadds, hdone⟩
  rcases mapNewPage_cases w (start / pageSize + i) flags m with
    ⟨e, t, hmap, ht⟩ | ⟨f, t, hmap, hfree, ht⟩
  · rw [hmap]
    simpa [ht] using hadds
  · rw [hmap]
    simp only [ht]
    refine ⟨hadds.update (page_mem_range hstart hi) hfree rfl, fun q hq => ?_⟩
    by_cases hpage : q = start / pageSize + i
    · subst hpage
      refine ⟨?_, f, Function.update_self ..⟩
      cases hE : E (start / pageSize + i) with
      | none => rfl
      | some e => rw [hadds.of_some hE] at hfree; cases hfree
    · rw [Function.update_of_ne hpage]
      exact hdone q ⟨hq.1, page_lt_of_ne hstart hpage hq.2⟩

theorem mapUserAnonPages_meets (w : Walker) {start : ℕ} (hstart : start % pageSize = 0)
    {count : ℕ} (hlow : start + count * pageSize ≤ 2 ^ 47) (flags : PageTableFlags) :
    Meets (fun m => m.pt.entries = E) (mapUserAnonPages w start count flags)
      (fun _ m => Adds (pagesFrom start count) (·.flags = flags) E m.pt.entries ∧
        ∀ q ∈ pagesFrom start count, E q = none ∧ ∃ f, m.pt.entries q = some ⟨f, flags⟩)
      (fun _ m => Adds (pagesFrom start count) (·.flags = flags) E m.pt.entries) := by
  refine (meets_countLoop (fun i _ m =>
    Adds (pagesFrom start count) (·.flags = flags) E m.pt.entries ∧
      ∀ q ∈ pagesFrom start i, E q = none ∧ ∃ f, m.pt.entries q = some ⟨f, flags⟩) 0 count ()
    fun i _ _ hi => anonPage_meets w hstart (by omega) hlow flags).mono ?_ ?_ (fun _ _ h => h)
  · rintro m rfl
    exact ⟨Adds.refl _, fun q hq => absurd hq.1 (by have := hq.2; omega)⟩
  · intro _ m h
    rwa [Nat.zero_add] at h

/-- The pages that a loop over page addresses comes to. -/
def steppedPages (start count : ℕ) : List ℕ :=
  (List.range count).map fun i => pageOf (signExtend (start + i * pageSize))

theorem steppedPages_succ (start count : ℕ) : steppedPages start (count + 1) =
    steppedPages start count ++ [pageOf (signExtend (start + count * pageSize))] := by
  simp [steppedPages, List.range_succ]

theorem mem_steppedPages {start count q : ℕ} : q ∈ steppedPages start count ↔
    ∃ i < count, pageOf (signExtend (start + i * pageSize)) = q := by
  simp [steppedPages]

theorem mem_steppedPages_of_le {start count q : ℕ} (hstart : start % pageSize = 0)
    (hlow : start + count * pageSize ≤ 2 ^ 47) :
    q ∈ steppedPages start count ↔ q ∈ pagesFrom start count := by
  have hdiv : start / pageSize * pageSize = start :=
    Nat.div_mul_cancel (Nat.dvd_of_mod_eq_zero hstart)
  rw [mem_steppedPages]
  constructor
  · rintro ⟨i, hi, rfl⟩
    rw [signExtend_of_lt (step_lt hi hlow), pageOf_add_mul]
    exact page_mem_range hstart hi
  · rintro ⟨hlo, hhi⟩
    have hle : start / pageSize ≤ q :=
      Nat.le_of_mul_le_mul_right (hdiv.trans_le hlo) (show 0 < pageSize by decide)
    have hi : q - start / pageSize < count := by
      rw [← hdiv, ← Nat.add_mul] at hhi
      have hlt := Nat.lt_of_mul_lt_mul_right hhi
      omega
    refine ⟨q - start / pageSize, hi, ?_⟩
    rw [signExtend_of_lt (step_lt hi hlow), pageOf_add_mul]
    omega

theorem unmapUserRange_entries {start count : ℕ} {m m' : Mem}
    (h : unmapUserRange start count m = .ok () m') (q : ℕ) :
    m'.pt.entries q = if q ∈ steppedPages start count then none else m.pt.entries q := by
  have hloop := countLoop_ok (fun i _ t => ∀ q, t.pt.entries q =
    if q ∈ steppedPages start i then none else m.pt.entries q) h
    (fun q => by rw [if_neg (by simp [steppedPages])]) ?_ q
  · rwa [Nat.zero_add] at hloop
  · intro i _ s _ t _ _ hs hrun q
    obtain ⟨t', hrel, ht⟩ := releasePage_run (signExtend (start + i * pageSize)) s
    rw [(virtAddr_bind_ok hrun).2] at hrel
    obtain ⟨-, rfl⟩ := EStateM.Result.ok.inj hrel
    rw [ht, steppedPages_succ]
    by_cases hq : q = pageOf (signExtend (start + i * pageSize))
    · rw [hq, Function.update_self, if_pos (List.mem_append_right _ (List.mem_singleton_self _))]
    · rw [Function.update_of_ne hq, hs q]
      exact if_congr (by simp [hq]) rfl rfl

theorem unmapUserRange_ok {start count : ℕ} (hstart : start % pageSize = 0)
    (hlow : start + count * pageSize ≤ 2 ^ 47) {m m' : Mem}
    (h : unmapUserRange start count m = .ok () m') (q : ℕ) :
    m'.pt.entries q =
      if start ≤ q * pageSize ∧ q * pageSize < start + count * pageSize then none
      else m.pt.entries q := by
  rw [unmapUserRange_entries h]
  exact if_congr (mem_steppedPages_of_le hstart hlow) rfl rfl

theorem unmapUserRange_meets (start count : ℕ) :
    Meets (fun m => m.pt.entries = E) (unmapUserRange start count)
      (fun _ m => Removes { q | q ∈ steppedPages start count } E m.pt.entries)
      (fun e _ => e = .panic) := by
  refine (meets_countLoop (fun _ _ m => Removes _ E m.pt.entries) 0 count () ?_).mono
    (by rintro m rfl; exact Removes.refl _) (fun _ _ h => h) (fun _ _ h => h)
  intro i _ _ hi
  have hmem : pageOf (signExtend (start + i * pageSize)) ∈ steppedPages start count :=
    mem_steppedPages.mpr ⟨i, by omega, rfl⟩
  apply meets_virtAddr_bind (fun _ _ _ => rfl)
  intro _ m hm
  obtain ⟨t, hrel, ht⟩ := releasePage_run (signExtend (start + i * pageSize)) m
  simp only [hrel, ht]
  exact hm.update hmem

end

end Rockos.PageEdits
