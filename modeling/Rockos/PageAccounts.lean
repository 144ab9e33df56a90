import Rockos.FrameAccounts
import Rockos.PointerChecks
import Rockos.UserMemory

/-!
# No page is left behind

The books of a process, its heap end and its areas, say which pages of the heap
and mapping windows it has. Here they are compared with the page table in both
directions, and the pages with the frames that are gone from the allocator,
along runs of calls that succeed or change no memory.

The windows rest on `NEXT_MMAP`, which only ever moves up, also for requests that
are then refused, and wraps around. A run in which it has wrapped is served
below the windows.
-/
namespace Rockos.PageAccounts
open FallibleState PhysMemory Paging KernelState AddressSpace PageEdits MapEdits FrameAccounts
open FrameSafety UserMemory PointerChecks Runs

/-! ## Frames -/

/-- The pages from the heap base to the end of the mapping window. -/
def window : Finset ℕ := Finset.Ico (pageOf userBrkBase) (pageOf userMmapLimit)

theorem mem_window {q : ℕ} :
    q ∈ window ↔ userBrkBase ≤ q * pageSize ∧ q * pageSize < userMmapLimit := by
  simp only [window, Finset.mem_Ico, pageOf, userBrkBase, userMmapLimit, pageSize]
  omega

/-- The number of pages of the windows that are mapped. -/
def windowPages (m : Mem) : ℕ := filled window m.pt.entries

/-- The frames of the windows can be given back, and none has been lost. -/
structure Tidy (total : ℕ) (m : Mem) : Prop where
  safe : FrameSafe m
  reserved : used m.fa 0 = true
  frames : ∀ q ∈ window, ∀ e, m.pt.entries q = some e → e.frame ≠ 0 ∧ e.frame < frameBitmapBits
  total : balance m + windowPages m = total

section
variable {total : ℕ} {m m' : Mem} {page : ℕ}

theorem Tidy.mapNewPage {w : Walker} {flags : PageTableFlags} (h : Tidy total m)
    (hpage : page ∈ window) (hrun : mapNewPage w page flags m = .ok () m') : Tidy total m' := by
  have hgrows := (mapNewPage_grows w page flags).ok hrun
  have hbalance := mapNewPage_balance hrun
  have hsafe : FrameSafe m' := (mapNewPage_safe w page flags).ok hrun h.safe
  obtain ⟨f, m₁, htake, hmap⟩ := bind_ok hrun
  obtain ⟨fa, ha, rfl⟩ := takeFrame_ok htake
  rcases mapTo_cases w page f flags { m with fa := fa } with
    ⟨e, t, herr, -⟩ | ⟨t, hok, hfree, hentries⟩
  · rw [mapErr_ok hmap] at herr
    cases herr
  · rw [mapErr_ok hmap] at hok
    obtain ⟨-, rfl⟩ := EStateM.Result.ok.inj hok
    refine ⟨hsafe, hgrows.marked 0 h.reserved, fun q hq e he => ?_, ?_⟩
    · rw [hentries] at he
      by_cases hqp : q = page
      · rw [hqp, Function.update_self, Option.some.injEq] at he
        rw [← he]
        refine ⟨?_, allocateFrame_lt ha⟩
        rintro rfl
        have hreserved := h.reserved
        rw [allocateFrame_unused ha] at hreserved
        cases hreserved
      · rw [Function.update_of_ne hqp] at he
        exact h.frames q hq e he
    · have hcount := filled_update_some hpage hfree (⟨f, flags⟩ : Entry)
      rw [windowPages, hentries, hcount, ← h.total, windowPages]
      show balance m' + (filled window m.pt.entries + 1) = _
      omega

theorem Tidy.releasePage {virt : ℕ} (h : Tidy total m) (hpage : pageOf virt ∈ window)
    (hrun : releasePage virt m = .ok () m') : Tidy total m' := by
  have hsafe : FrameSafe m' := (releasePage_safe virt).ok hrun h.safe
  simp only [Paging.releasePage, bind_run, attempt] at hrun
  rcases unmap4kAndFreeBitmap_cases virt m with ⟨-, hun⟩ | ⟨e, he, hun⟩
  · rw [hun] at hrun
    obtain ⟨-, rfl⟩ := EStateM.Result.ok.inj hrun
    exact h
  · rw [hun] at hrun
    obtain ⟨-, rfl⟩ := EStateM.Result.ok.inj hrun
    obtain ⟨hne, hlt⟩ := h.frames _ hpage e he
    refine ⟨hsafe, ?_, fun q hq e' he' => ?_, ?_⟩
    · show used (deallocateFrame m.fa e.frame) 0 = true
      rw [deallocateFrame_used, h.reserved]
      simp [hne.symm]
    · have he'' : Function.update m.pt.entries (pageOf virt) none q = some e' := he'
      by_cases hqp : q = pageOf virt
      · rw [hqp, Function.update_self] at he''
        cases he''
      · rw [Function.update_of_ne hqp] at he''
        exact h.frames q hq e' he''
    · have hfree := deallocateFrame_countFree (h.safe.exclusive.marked _ _ he) hne hlt
      have hcount := filled_update_none hpage he
      have htotal := h.total
      rw [balance, spare, windowPages] at htotal ⊢
      show countFree (deallocateFrame m.fa e.frame).bitmap + m.pt.tables.length +
        filled window (Function.update m.pt.entries (pageOf virt) none) = total
      omega

theorem Tidy.brkShrink {newEnd oldEnd : ℕ} (h : Tidy total m) (hlo : userBrkBase ≤ newEnd)
    (hhi : oldEnd ≤ userBrkLimit) (hrun : mapBrkShrink newEnd oldEnd m = .ok () m') :
    Tidy total m' := by
  have hlimit : userBrkLimit = 0x410000 := rfl
  have hlimit' : userMmapLimit = 0x480000 := rfl
  unfold mapBrkShrink at hrun
  split_ifs at hrun with hempty hnone
  · obtain ⟨-, rfl⟩ := EStateM.Result.ok.inj hrun
    exact h
  · obtain ⟨-, rfl⟩ := EStateM.Result.ok.inj hrun
    exact h
  · have hlow : oldEnd - 1 < 2 ^ 47 := by omega
    have hup : alignUp newEnd pageSize < 2 ^ 47 := by omega
    rw [virtAddr_of_lt hup, virtAddr_of_lt hlow] at hrun
    have hloop := forPages_ok (fun _ t => Tidy total t) hrun h ?_
    · exact hloop.choose_spec.2
    intro page s t hfirst hlast hs hstep
    obtain ⟨hpageLo, hpageHi⟩ := (mem_shrinkPages (by omega) hhi).mp
      ((mem_pagesOf_of_lt hlow).mpr ⟨hfirst, hlast⟩)
    simp only [shrinkPage, bind_run, get_run] at hstep
    split_ifs at hstep
    · obtain ⟨-, rfl⟩ := EStateM.Result.ok.inj hstep
      exact hs
    · exact hs.releasePage (by rw [pageOf_mul]; exact mem_window.mpr ⟨by omega, by omega⟩) hstep

theorem Tidy.brkGrow {w : Walker} {oldEnd newEnd : ℕ} {flags : PageTableFlags} (h : Tidy total m)
    (hlo : userBrkBase ≤ oldEnd) (hlt : oldEnd < newEnd) (hhi : newEnd ≤ userMmapLimit)
    (hrun : mapBrkGrow w oldEnd newEnd flags m = .ok () m') : Tidy total m' := by
  have hlimit : userMmapLimit = 0x480000 := rfl
  rw [mapBrkGrow, virtAddr_of_lt (show oldEnd < 2 ^ 47 by omega),
    virtAddr_of_lt (show newEnd - 1 < 2 ^ 47 by omega)] at hrun
  have hloop := forPages_ok (fun _ t => Tidy total t) hrun h ?_
  · exact hloop.choose_spec.2
  intro page s t hfirst hlast hs hstep
  have hpage : page ∈ window := by
    simp only [window, Finset.mem_Ico, pageOf, userBrkBase, userMmapLimit, pageSize] at *
    omega
  simp only [growPage, bind_run, get_run] at hstep
  split_ifs at hstep
  · obtain ⟨-, rfl⟩ := EStateM.Result.ok.inj hstep
    exact hs
  · exact hs.mapNewPage hpage hstep

theorem page_mem_window {start count i : ℕ} (haligned : start % pageSize = 0)
    (hlo : userBrkBase ≤ start) (hhi : start + count * pageSize ≤ userMmapLimit) (hi : i < count) :
    pageOf (signExtend (start + i * pageSize)) ∈ window := by
  obtain ⟨h₁, h₂⟩ := page_mem_range haligned hi
  rw [signExtend_of_lt (step_lt hi (hhi.trans (by decide))), pageOf_add_mul, mem_window]
  omega

theorem Tidy.anonPages {w : Walker} {start count : ℕ} {flags : PageTableFlags} (h : Tidy total m)
    (haligned : start % pageSize = 0) (hlo : userBrkBase ≤ start)
    (hhi : start + count * pageSize ≤ userMmapLimit)
    (hrun : mapUserAnonPages w start count flags m = .ok () m') : Tidy total m' := by
  refine countLoop_ok (fun _ _ t => Tidy total t) hrun h fun i _ s _ t _ hi hs hstep => ?_
  exact hs.mapNewPage (page_mem_window haligned hlo hhi (by omega)) (virtAddr_bind_ok hstep).2

theorem Tidy.unmapRange {start count : ℕ} (h : Tidy total m) (haligned : start % pageSize = 0)
    (hlo : userBrkBase ≤ start) (hhi : start + count * pageSize ≤ userMmapLimit)
    (hrun : unmapUserRange start count m = .ok () m') : Tidy total m' := by
  refine countLoop_ok (fun _ _ t => Tidy total t) hrun h fun i _ s _ t _ hi hs hstep => ?_
  exact hs.releasePage (page_mem_window haligned hlo hhi (by omega)) (virtAddr_bind_ok hstep).2

end

/-! ## Pages -/

/-- The books of the process claim the page. -/
def Booked (p : Process) (q : ℕ) : Prop :=
  (userBrkBase ≤ q * pageSize ∧ q * pageSize < alignUp p.brkEnd pageSize) ∨
    ∃ a ∈ p.vmAreas, a.virtStart ≤ q * pageSize ∧ q * pageSize < a.virtEnd

theorem lt_alignUp_iff {x q : ℕ} : q * pageSize < alignUp x pageSize ↔ q * pageSize < x := by
  rw [← not_le, ← not_le, alignUp_le_mul]

/-- The books promise no page that is not mapped, and leave no mapped page out. -/
structure ExactBooks (E : ℕ → Option Entry) (p : Process) : Prop where
  books : Books E p
  booked : ∀ q ∈ window, (E q).isSome → Booked p q

section
variable {E E' : ℕ → Option Entry} {p : Process} {q : ℕ}

theorem ExactBooks.isSome_iff (h : ExactBooks E p) (hq : q ∈ window) :
    (E q).isSome ↔ Booked p q := by
  constructor
  · exact h.booked q hq
  · rintro (⟨hlo, hhi⟩ | ⟨a, ha, h₁, h₂⟩)
    · exact h.books.heap_mapped q hlo (lt_alignUp_iff.mp hhi)
    · obtain ⟨e, he, -⟩ := (h.books.areas a ha).mapped q h₁ h₂
      rw [he]
      rfl

theorem ExactBooks.grow {addr : ℕ} (h : ExactBooks E p) (hlt : p.brkEnd < addr)
    (hhi : addr ≤ userBrkLimit)
    (hadds : Adds (pageRange (pageOf p.brkEnd) (pageOf (addr - 1))) (·.flags = userDataFlags) E E')
    (hall : ∀ q ∈ pageRange (pageOf p.brkEnd) (pageOf (addr - 1)), (E' q).isSome) :
    ExactBooks E' { p with brkEnd := addr } := by
  refine ⟨h.books.grow hlt hhi hadds hall, fun q hq hsome => ?_⟩
  have hwindow := (mem_window.mp hq).1
  rcases hadds q with hsame | ⟨hnew, -⟩
  · rw [hsame] at hsome
    rcases h.booked q hq hsome with ⟨-, hheap⟩ | harea
    · rw [lt_alignUp_iff] at hheap
      exact .inl ⟨hwindow, lt_alignUp_iff.mpr (hheap.trans hlt)⟩
    · exact .inr harea
  · have hle : q * pageSize ≤ addr - 1 := (Nat.le_div_iff_mul_le (by decide)).mp hnew.2
    exact .inl ⟨hwindow, lt_alignUp_iff.mpr (by simp only; omega)⟩

theorem ExactBooks.shrink {addr : ℕ} (h : ExactBooks E p) (hlo : userBrkBase ≤ addr)
    (hlt : addr < p.brkEnd)
    (hgone : ∀ q, E' q =
      if q ∈ pagesOf (alignUp addr pageSize) (p.brkEnd - 1) then none else E q)
    (hrem : Removes { q | q ∈ pagesOf (alignUp addr pageSize) (p.brkEnd - 1) } E E') :
    ExactBooks E' { p with brkEnd := addr } := by
  refine ⟨h.books.shrink hlo hlt hrem, fun q hq hsome => ?_⟩
  rw [hgone] at hsome
  split_ifs at hsome with hin
  · cases hsome
  · rw [mem_shrinkPages (by omega) h.books.brk_hi] at hin
    rcases h.booked q hq hsome with ⟨hbase, hheap⟩ | harea
    · rw [lt_alignUp_iff] at hheap
      exact .inl ⟨hbase, lt_alignUp_iff.mpr (by simp only; omega)⟩
    · exact .inr harea

theorem ExactBooks.addArea {id start count prot : ℕ} (h : ExactBooks E p)
    (haligned : start % pageSize = 0) (hcount : 0 < count) (hlo : userMmapBase ≤ start)
    (hhi : start + count * pageSize ≤ userMmapLimit)
    (hadds : Adds (pagesFrom start count) (·.flags = mmapFlags prot) E E')
    (hnew : ∀ q ∈ pagesFrom start count, E q = none ∧ ∃ f, E' q = some ⟨f, mmapFlags prot⟩) :
    ExactBooks E' { p with
      vmAreas := p.vmAreas ++ [⟨id, start, count, protWrite prot, protExec prot⟩] } := by
  refine ⟨h.books.addArea haligned hcount hlo hhi hadds hnew, fun q hq hsome => ?_⟩
  rcases hadds q with hsame | ⟨hin, -⟩
  · rw [hsame] at hsome
    refine (h.booked q hq hsome).imp_right fun ⟨a, ha, hpage⟩ => ⟨a, ?_, hpage⟩
    exact List.mem_append_left _ ha
  · exact .inr ⟨_, List.mem_append_right _ (List.mem_singleton_self _), hin.1, hin.2⟩

/-- The area that is dropped has lost all its pages: its length is a whole number
of them. -/
theorem ExactBooks.dropArea {addr len : ℕ} {a : VmArea} (h : ExactBooks E p) (ha : a ∈ p.vmAreas)
    (hspan : spansExactly addr (saturatingAdd addr len) a = true)
    (hgone : ∀ q, E' q =
      if addr ≤ q * pageSize ∧ q * pageSize < addr + len / pageSize * pageSize then none else E q)
    (hrem : Removes (pagesFrom addr (len / pageSize)) E E') :
    ExactBooks E' { p with
      vmAreas := p.vmAreas.filter fun b => !spansExactly addr (saturatingAdd addr len) b } := by
  refine ⟨h.books.dropArea ha hspan hrem, fun q hq hsome => ?_⟩
  rw [hgone] at hsome
  split_ifs at hsome with hin
  · cases hsome
  refine (h.booked q hq hsome).imp_right fun ⟨b, hb, hpage⟩ => ⟨b, ?_, hpage⟩
  refine List.mem_filter.mpr ⟨hb, ?_⟩
  by_contra hdrop
  simp only [Bool.not_eq_true', Bool.not_eq_false] at hdrop
  obtain ⟨hstart, hend⟩ := spansExactly_iff.mp hdrop
  refine hin ⟨by omega, ?_⟩
  have hhi : b.virtEnd ≤ 0x480000 := (h.books.areas b hb).hi
  have hwhole : len / pageSize * pageSize = len := by
    have hvirt : b.virtEnd = b.virtStart + b.pages * pageSize := rfl
    have hlen : len = b.pages * pageSize := by
      simp only [saturatingAdd, u64Max] at hend
      omega
    rw [hlen, Nat.mul_div_cancel _ (by decide)]
  simp only [saturatingAdd, u64Max] at hend
  omega

theorem ExactBooks.filter_unknown {addr hi : ℕ} (h : ExactBooks E p)
    (hunknown : ∀ a ∈ p.vmAreas, spansExactly addr hi a = false) :
    ExactBooks E { p with vmAreas := p.vmAreas.filter fun a => !spansExactly addr hi a } := by
  have hall : (p.vmAreas.filter fun a => !spansExactly addr hi a) = p.vmAreas :=
    List.filter_eq_self.mpr fun a ha => by simp [hunknown a ha]
  rw [hall]
  exact h

end

/-! ## The calls -/

/-- Books, page table and allocator agree. -/
structure BooksBalanced (total : ℕ) (k : Kernel) : Prop where
  exact : ∃ p, k.current = some p ∧ ExactBooks k.mem.pt.entries p
  next : k.nextMmap % pageSize = 0
  tidy : Tidy total k.mem

/-- A call that does not succeed leaves memory alone. -/
def FailsClean (w : Walker) (c : MemCall) (k : Kernel) : Prop :=
  ∀ v k', memStep w c k = some (v, k') → v = errno 12 ∨ v = errno 22 → k'.mem = k.mem

/-- `NEXT_MMAP` has not wrapped around when it is asked for an address. A request
that is refused for its length does not ask. -/
def Unwrapped (c : MemCall) (k : Kernel) : Prop :=
  ∀ len prot, c = .mmap 0 len prot → len ≠ 0 → len ≤ userMmapLimit - userMmapBase →
    userMmapBase ≤ k.nextMmap

section
variable {total : ℕ} {k k' : Kernel} {v : UInt64} {p : Process}

theorem BooksBalanced.update {m : Mem} (hcur : k.current = some p)
    (hnext : k.nextMmap % pageSize = 0) (f : Process → Process)
    (hexact : ExactBooks m.pt.entries (f p)) (htidy : Tidy total m) :
    BooksBalanced total ((setMem m k).updateCurrent f) := by
  refine ⟨⟨f p, ?_, hexact⟩, hnext, htidy⟩
  rw [current_updateCurrent]
  exact congrArg (Option.map f) hcur

/-- The common shape of `brk` and `mmap`. -/
theorem BooksBalanced.editThen {edit : MemM Unit} {books : Kernel → Kernel} {u : UInt64}
    (h : BooksBalanced total k) (hsettled : v = errno 12 ∨ v = errno 22 → k'.mem = k.mem)
    (hok : ∀ m, edit k.mem = .ok () m → BooksBalanced total (books (setMem m k)))
    (hrun : editThen edit books u k = .ok v k') : BooksBalanced total k' := by
  rcases editThen_cases hrun with ⟨m, hx, -, rfl⟩ | ⟨reason, m, -, hv, rfl⟩
  · exact hok m hx
  · have hm : m = k.mem := hsettled (.inl hv)
    subst hm
    exact h

theorem BooksBalanced.brk {w : Walker} {addr : ℕ} (h : BooksBalanced total k)
    (hsettled : v = errno 12 ∨ v = errno 22 → k'.mem = k.mem)
    (hrun : sysBrk w addr k = .ok v k') : BooksBalanced total k' := by
  obtain ⟨p, hcur, hexact⟩ := h.exact
  have hbrkLo := hexact.books.brk_lo
  have hbrkHi := hexact.books.brk_hi
  have hlimit : userBrkLimit ≤ userMmapLimit := by decide
  cases sysBrk_returns hcur hrun with
  | same _ hk _ => exact hk ▸ h
  | refused _ hk _ => exact hk ▸ h
  | shrink hlo hhi hlt hedit =>
      refine h.editThen hsettled (fun m hx => ?_) hedit
      have hrem := mapBrkShrink_meets (E := k.mem.pt.entries) addr p.brkEnd k.mem rfl
      rw [hx] at hrem
      exact BooksBalanced.update hcur h.next _
        (hexact.shrink hlo hlt (mapBrkShrink_ok hlo hhi hx) hrem)
        (h.tidy.brkShrink hlo hbrkHi hx)
  | grow _ hhi hlt hedit =>
      refine h.editThen hsettled (fun m hx => ?_) hedit
      have hspec := mapBrkGrow_meets (E := k.mem.pt.entries) w p.brkEnd hhi userDataFlags k.mem rfl
      rw [hx] at hspec
      exact BooksBalanced.update hcur h.next _ (hexact.grow hlt hhi hspec.1 hspec.2)
        (h.tidy.brkGrow hbrkLo hlt (hhi.trans hlimit) hx)

theorem BooksBalanced.mmapAt {w : Walker} {addr nPages prot : ℕ} (h : BooksBalanced total k)
    (haligned : addr % pageSize = 0) (hcount : 0 < nPages) (hlo : userMmapBase ≤ addr)
    (hhi : addr + nPages * pageSize ≤ userMmapLimit)
    (hsettled : v = errno 12 ∨ v = errno 22 → k'.mem = k.mem)
    (hrun : mmapAt w addr nPages prot k = .ok v k') : BooksBalanced total k' := by
  obtain ⟨p, hcur, hexact⟩ := h.exact
  refine h.editThen hsettled (fun m hx => ?_) hrun
  have hspec := mapUserAnonPages_meets (E := k.mem.pt.entries) w haligned
    (hhi.trans (by decide)) (mmapFlags prot) k.mem rfl
  rw [hx] at hspec
  have hbase : userBrkBase ≤ addr := le_trans (by decide) hlo
  refine BooksBalanced.update (k := { k with vmAreaNextId := (k.vmAreaNextId + 1) % 2 ^ 64 })
    (m := m) hcur h.next _ ?_ ?_
  · exact hexact.addArea haligned hcount hlo hhi hspec.1 hspec.2
  · exact h.tidy.anonPages haligned hbase hhi hx

theorem BooksBalanced.bump (h : BooksBalanced total k) (len : ℕ) :
    BooksBalanced total (bumpMmap len k) := by
  refine ⟨h.exact, ?_, h.tidy⟩
  have hnext := h.next
  simp only [bumpMmap, pageSize] at *
  omega

theorem BooksBalanced.mmap {w : Walker} {addr len prot : ℕ} (h : BooksBalanced total k)
    (hsettled : v = errno 12 ∨ v = errno 22 → k'.mem = k.mem)
    (hnext : addr = 0 → len ≠ 0 → len ≤ userMmapLimit - userMmapBase → userMmapBase ≤ k.nextMmap)
    (hrun : sysMmap w addr len prot k = .ok v k') : BooksBalanced total k' := by
  cases sysMmap_returns hrun with
  | refused _ hk _ => exact hk ▸ h
  | full _ hk _ _ => exact hk ▸ h.bump len
  | bumped hlen haddr hroom hat =>
      refine (h.bump len).mmapAt h.next (pageCount_pos (by omega))
        (hnext haddr (by omega) (by omega)) ?_ hsettled hat
      simp only [saturatingAdd, u64Max, userMmapLimit] at hroom ⊢
      omega
  | fixed hlen _ haligned hlo hhi hat =>
      refine h.mmapAt haligned (pageCount_pos (by omega)) hlo ?_ hsettled hat
      -- the length is rounded up to whole pages, but the window ends on a page
      simp only [saturatingAdd, u64Max, userMmapLimit, pageCount, pageSize] at *
      omega

theorem BooksBalanced.munmap {addr len : ℕ} (h : BooksBalanced total k)
    (hrun : sysMunmap addr len k = .ok v k') : BooksBalanced total k' := by
  obtain ⟨p, hcur, hexact⟩ := h.exact
  cases sysMunmap_returns hcur hrun with
  | refused _ hk _ => exact hk ▸ h
  | unknown _ hk hunknown =>
      rw [hk]
      exact BooksBalanced.update (m := k.mem) hcur h.next _ (hexact.filter_unknown hunknown) h.tidy
  | edit haligned _ a ha hspan m hk hedit =>
      have hrem := unmapUserRange_meets (E := k.mem.pt.entries) addr (len / pageSize) k.mem rfl
      have hsound := hexact.books.areas a ha
      have hhi : addr + len / pageSize * pageSize ≤ userMmapLimit :=
        (spanned_le hsound.hi hspan).trans hsound.hi
      have hlow : addr + len / pageSize * pageSize ≤ 2 ^ 47 := hhi.trans (by decide)
      have hlo : userBrkBase ≤ addr := by
        rw [← (spansExactly_iff.mp hspan).1]
        exact le_trans (by decide) hsound.lo
      rcases hedit with ⟨hx, -⟩ | ⟨⟨reason, hx⟩, -⟩
      · rw [hx] at hrem
        rw [hk]
        exact BooksBalanced.update (m := m) hcur h.next _
          (hexact.dropArea ha hspan (unmapUserRange_ok haligned hlow hx)
            (hrem.mono fun q hq => (mem_steppedPages_of_le haligned hlow).mp hq))
          (h.tidy.unmapRange haligned hlo hhi hx)
      · rw [hx] at hrem
        cases hrem

theorem BooksBalanced.step {w : Walker} {c : MemCall} (h : BooksBalanced total k)
    (hsettled : FailsClean w c k) (hunwrapped : Unwrapped c k)
    (hstep : memStep w c k = some (v, k')) : BooksBalanced total k' := by
  have hsame := hsettled v k' hstep
  rw [memStep_eq_some] at hstep
  cases c with
  | brk addr => exact h.brk hsame hstep
  | mmap addr len prot =>
      refine h.mmap hsame (fun haddr => ?_) hstep
      exact hunwrapped len prot (by rw [haddr])
  | munmap addr len => exact h.munmap hstep

end

theorem windowPages_fresh {k : Kernel} (h : FreshSpace k) : windowPages k.mem = 0 := by
  rw [windowPages, filled, Finset.card_eq_zero, Finset.filter_eq_empty_iff]
  intro q hq
  simp [h.empty q (mem_window.mp hq).1 (mem_window.mp hq).2]

/-- A fresh process on sound memory starts with balanced accounts. -/
theorem balanced_of_fresh {k : Kernel} (h : FreshSpace k) (hsafe : FrameSafe k.mem)
    (hreserved : used k.mem.fa 0 = true) : BooksBalanced (balance k.mem) k := by
  have hempty : ∀ q ∈ window, k.mem.pt.entries q = none := fun q hq =>
    h.empty q (mem_window.mp hq).1 (mem_window.mp hq).2
  obtain ⟨⟨p, hcur, hbooks⟩, -, -⟩ := h.sound
  refine ⟨⟨p, hcur, hbooks, fun q hq hsome => ?_⟩, ?_, hsafe, hreserved, fun q hq e he => ?_, ?_⟩
  · rw [hempty q hq] at hsome
    cases hsome
  · rw [h.next]
    rfl
  · rw [hempty q hq] at he
    cases he
  · rw [windowPages_fresh h, Nat.add_zero]

/-- Along every run whose calls succeed or leave memory alone, and which gets no
address from a `NEXT_MMAP` that has wrapped around: exactly the pages in the
books are mapped, and the frames that are gone are those pages and tables. -/
theorem pages_accounted (w : Walker) (k k' : Kernel) (tr : List (MemCall × UInt64))
    (hfresh : FreshSpace k) (hsafe : FrameSafe k.mem) (hreserved : used k.mem.fa 0 = true)
    (hrun : Run (memStep w) k tr k')
    (hcalls : ∀ x c y, Takes (memStep w) k tr x c y → FailsClean w c x ∧ Unwrapped c x) :
    (∃ p, k'.current = some p ∧
      ∀ q ∈ window, (k'.mem.pt.entries q).isSome ↔ Booked p q) ∧
    spare k.mem + k.mem.pt.tables.length =
      spare k'.mem + k'.mem.pt.tables.length + windowPages k'.mem := by
  have hbalanced : BooksBalanced (balance k.mem) k' := by
    refine hrun.invariant_taken (balanced_of_fresh hfresh hsafe hreserved) fun x c y htakes hx => ?_
    obtain ⟨hsettled, hunwrapped⟩ := hcalls x c y htakes
    obtain ⟨_, _, _, -, -, hstep⟩ := htakes
    exact hx.step hsettled hunwrapped hstep
  obtain ⟨p, hcur, hexact⟩ := hbalanced.exact
  exact ⟨⟨p, hcur, fun q hq => hexact.isSome_iff hq⟩, hbalanced.tidy.total.symm⟩

/-- An end in the middle of a page: two pages are mapped, and two frames gone. -/
theorem pages_accounted_growth : ∃ k',
    Run (memStep flatWalker) smallMachine [(.brk 0x405001, 0x405001)] k' ∧
      windowPages k'.mem = 2 ∧ spare smallMachine.mem = spare k'.mem + 2 := by
  have hok : (memStep flatWalker (.brk 0x405001) smallMachine).map
        (fun x => (x.1, windowPages x.2.mem, x.2.mem.pt.tables.length)) = some (0x405001, 2, 0) ∧
      used smallMachine.mem.fa 0 = true := by decide +kernel
  obtain ⟨hok, hreserved⟩ := hok
  obtain ⟨⟨v, k'⟩, hstep, hx⟩ := Option.map_eq_some_iff.mp hok
  simp only [Prod.mk.injEq] at hx
  obtain ⟨rfl, hpages, htables⟩ := hx
  have hsafe : FrameSafe smallMachine.mem :=
    Pristine.safe (k := smallMachine)
      ⟨fun _ => rfl, by simp [smallMachine, processInit, statics, memInit]⟩
  have haccounts := pages_accounted flatWalker smallMachine k' _ smallMachine_fresh hsafe hreserved
    (.single hstep) (by
      intro x c y htakes
      obtain ⟨rfl, rfl⟩ := takes_singleton htakes
      refine ⟨fun v' k'' hstep' hv => ?_, fun len prot hc => by cases hc⟩
      rw [hstep, Option.some.injEq, Prod.mk.injEq] at hstep'
      obtain ⟨rfl, -⟩ := hstep'
      exact absurd hv (by decide))
  have htotal := haccounts.2
  have hempty : smallMachine.mem.pt.tables.length = 0 := rfl
  rw [hpages, htables, hempty, Nat.add_zero, Nat.add_zero] at htotal
  exact ⟨k', .single hstep, hpages, htotal⟩

/-! ## After a wrap -/

/-- A run all of whose calls succeed or leave memory alone. -/
def SettledRun (w : Walker) (k : Kernel) (tr : List (MemCall × UInt64)) (k' : Kernel) : Prop :=
  Run (memStep w) k tr k' ∧ ∀ x c y, Takes (memStep w) k tr x c y → FailsClean w c x

section
variable {w : Walker} {k k₁ k' : Kernel} {tr : List (MemCall × UInt64)} {c : MemCall} {v : UInt64}

theorem SettledRun.nil (k : Kernel) : SettledRun w k [] k :=
  ⟨.done k, fun _ _ _ h => (takes_nil h).elim⟩

theorem SettledRun.cons (hstep : memStep w c k = some (v, k₁))
    (hv : v = errno 12 ∨ v = errno 22 → k₁.mem = k.mem) (h : SettledRun w k₁ tr k') :
    SettledRun w k ((c, v) :: tr) k' := by
  refine ⟨.step hstep h.1, fun x c' y htakes => ?_⟩
  rcases takes_cons hstep htakes with ⟨rfl, rfl⟩ | hrest
  · intro v' k'' hstep' hv'
    rw [hstep, Option.some.injEq, Prod.mk.injEq] at hstep'
    obtain ⟨rfl, rfl⟩ := hstep'
    exact hv hv'
  · exact h.2 x c' y hrest

/-- A request that no longer fits still moves `NEXT_MMAP`. -/
theorem mmap_full {len prot : ℕ} (hlen : ¬ (len = 0 ∨ len > userMmapLimit - userMmapBase))
    (hfull : saturatingAdd k.nextMmap (pageCount len * pageSize) > userMmapLimit) :
    memStep w (.mmap 0 len prot) k = some (errno 12, bumpMmap len k) := by
  rw [memStep_eq_some, MemCall.run, sysMmap, if_neg hlen, if_pos rfl]
  simp only [bind_run, get_run, modify_run, if_pos hfull, pure_run, bumpMmap]

/-- The largest request that passes the argument checks. -/
def wholeWindow : MemCall := .mmap 0 0x70000 0

theorem wholeWindow_refused (h : 0x411000 ≤ k.nextMmap) :
    memStep w wholeWindow k =
      some (errno 12, { k with nextMmap := (k.nextMmap + 0x70000) % 2 ^ 64 }) := by
  have hsize : pageCount 0x70000 * pageSize = 0x70000 := by decide
  have hfull : saturatingAdd k.nextMmap (pageCount 0x70000 * pageSize) > userMmapLimit := by
    rw [hsize, saturatingAdd]
    simp only [u64Max, userMmapLimit]
    omega
  rw [wholeWindow, mmap_full (by decide) hfull, bumpMmap, hsize]

/-- Refused requests move `NEXT_MMAP`, in the end past the top. -/
theorem SettledRun.refusals {n : ℕ} (hlo : 0x411000 ≤ k.nextMmap)
    (hhi : k.nextMmap + n * 0x70000 < 2 ^ 64)
    (h : SettledRun w { k with nextMmap := (k.nextMmap + (n + 1) * 0x70000) % 2 ^ 64 } tr k') :
    SettledRun w k (List.replicate (n + 1) (wholeWindow, errno 12) ++ tr) k' := by
  induction n generalizing k with
  | zero =>
      rw [Nat.zero_add, Nat.one_mul] at h
      exact SettledRun.cons (wholeWindow_refused hlo) (fun _ => rfl) h
  | succ n ih =>
      rw [List.replicate_succ, List.cons_append]
      refine SettledRun.cons (wholeWindow_refused hlo) (fun _ => rfl) (ih ?_ ?_ ?_)
      · simp only
        omega
      · simp only
        omega
      · have hnext : (k.nextMmap + 0x70000) % 2 ^ 64 + (n + 1) * 0x70000 =
            k.nextMmap + (n + 1 + 1) * 0x70000 := by omega
        simp only [hnext]
        exact h

/-- One page, wherever `NEXT_MMAP` points. -/
theorem mmap_onePage {f : ℕ} {fa : BitmapFrameAllocator}
    (hfa : allocateFrame k.mem.fa = some (f, fa))
    (hfree : k.mem.pt.entries (pageOf k.nextMmap) = none)
    (hroom : k.nextMmap + 0x1000 ≤ userMmapLimit) : ∃ k',
    memStep flatWalker (.mmap 0 0x1000 2) k = some (UInt64.ofNat k.nextMmap, k') ∧
      k'.nextMmap = (k.nextMmap + 0x1000) % 2 ^ 64 ∧
      k'.mem = setEntry (pageOf k.nextMmap) (some ⟨f, mmapFlags 2⟩) { k.mem with fa := fa } := by
  have hfits : ¬ saturatingAdd k.nextMmap (pageCount 0x1000 * pageSize) > userMmapLimit := by
    simp only [saturatingAdd, u64Max, pageCount, pageSize, userMmapLimit] at *
    omega
  have hlow : k.nextMmap < 2 ^ 47 := by
    simp only [userMmapLimit] at hroom
    omega
  have hpage := mapNewPage_ok (w := flatWalker) (mmapFlags 2) hfa rfl rfl hfree
  have hone : pageCount 0x1000 = 1 := by decide
  have hmap : mapUserAnonPages flatWalker k.nextMmap (pageCount 0x1000) (mmapFlags 2) k.mem =
      .ok () (setEntry (pageOf k.nextMmap) (some ⟨f, mmapFlags 2⟩) { k.mem with fa := fa }) := by
    rw [hone]
    simp [mapUserAnonPages, countLoop, virtAddr_of_lt hlow, hpage]
  have hsize : pageCount 0x1000 * pageSize = 0x1000 := by decide
  refine ⟨pushArea k.nextMmap (pageCount 0x1000) 2 (setMem (setEntry (pageOf k.nextMmap)
    (some ⟨f, mmapFlags 2⟩) { k.mem with fa := fa }) (bumpMmap 0x1000 k)), ?_, ?_, rfl⟩
  · rw [memStep_eq_some, MemCall.run, sysMmap, if_neg (by decide), if_pos rfl]
    simp only [bind_run, get_run, modify_run, if_neg hfits]
    simp only [mmapAt, editThen, bind_run, onMem, zoom, attempt, hmap, modify_run, pure_run]
    rfl
  · show (k.nextMmap + pageCount 0x1000 * pageSize) % 2 ^ 64 = _
    rw [hsize]

end

/-- A page of the windows counts, and one below them does not. -/
theorem windowPages_stray {m : Mem} {e e' : Entry}
    (h : m.pt.entries = Function.update (Function.update smallMachine.mem.pt.entries
      (pageOf 0x410000) (some e)) (pageOf 0x11000) (some e')) : windowPages m = 1 := by
  have hlow : pageOf 0x11000 ∉ window := by
    rw [mem_window]
    decide
  have hin : pageOf 0x410000 ∈ window := by
    rw [mem_window]
    decide
  have hfresh := windowPages_fresh smallMachine_fresh
  rw [windowPages] at hfresh
  rw [windowPages, h, filled_update_outside hlow, filled_update_some hin rfl, hfresh]

/-- 40210710958656 refused requests take `NEXT_MMAP` past the top of the address
space to 0x11000, and the next page is mapped there: its frame is gone, and no
page of the windows has it. -/
theorem pages_unaccounted : ∃ tr k', SettledRun flatWalker smallMachine tr k' ∧
    spare smallMachine.mem + smallMachine.mem.pt.tables.length ≠
      spare k'.mem + k'.mem.pt.tables.length + windowPages k'.mem := by
  have hframes : ((allocateFrame smallMachine.mem.fa).bind fun r => allocateFrame r.2).isSome := by
    decide +kernel
  obtain ⟨⟨f₂, fa₂⟩, hbind⟩ := Option.isSome_iff_exists.mp hframes
  obtain ⟨⟨f₁, fa₁⟩, hfa₁, hfa₂⟩ := Option.bind_eq_some_iff.mp hbind
  obtain ⟨k₁, hstep₁, hnext₁, hmem₁⟩ := mmap_onePage hfa₁ rfl (by decide)
  have hbase : smallMachine.nextMmap = 0x410000 := rfl
  rw [hbase] at hstep₁ hnext₁ hmem₁
  obtain ⟨n, hn⟩ : ∃ n, n = 40210710958655 := ⟨_, rfl⟩
  have hwrapped : (k₁.nextMmap + (n + 1) * 0x70000) % 2 ^ 64 = 0x11000 := by omega
  obtain ⟨k₂, hk₂⟩ : ∃ k₂ : Kernel, k₂ =
    { k₁ with nextMmap := (k₁.nextMmap + (n + 1) * 0x70000) % 2 ^ 64 } := ⟨_, rfl⟩
  have hmem₂ : k₂.mem = k₁.mem := by rw [hk₂]
  have hnext₂ : k₂.nextMmap = 0x11000 := by rw [hk₂, ← hwrapped]
  have hfree : k₂.mem.pt.entries (pageOf k₂.nextMmap) = none := by
    rw [hmem₂, hmem₁, hnext₂]
    rfl
  obtain ⟨k₃, hstep₃, -, hmem₃⟩ := mmap_onePage (k := k₂) (by rw [hmem₂, hmem₁]; exact hfa₂) hfree
    (by rw [hnext₂]; decide)
  rw [hnext₂] at hstep₃ hmem₃
  have hlast := SettledRun.cons hstep₃ (fun hv => absurd hv (by decide)) (SettledRun.nil k₃)
  rw [hk₂] at hlast
  refine ⟨_, k₃, SettledRun.cons hstep₁ (fun hv => absurd hv (by decide))
    (SettledRun.refusals (by omega) (by omega) hlast), ?_⟩
  · have hspare₁ : countFree fa₁.bitmap + 1 = spare smallMachine.mem := allocateFrame_countFree hfa₁
    have hspare₂ : countFree fa₂.bitmap + 1 = countFree fa₁.bitmap := allocateFrame_countFree hfa₂
    have hspare : spare k₃.mem = countFree fa₂.bitmap := by rw [hmem₃]; rfl
    have htables : k₃.mem.pt.tables.length = smallMachine.mem.pt.tables.length := by
      rw [hmem₃, hmem₂, hmem₁]
      rfl
    have hentries : k₃.mem.pt.entries = Function.update (Function.update
        smallMachine.mem.pt.entries (pageOf 0x410000) (some ⟨f₁, mmapFlags 2⟩))
        (pageOf 0x11000) (some ⟨f₂, mmapFlags 2⟩) := by
      rw [hmem₃, hmem₂, hmem₁]
      rfl
    have hpages : windowPages k₃.mem = 1 := windowPages_stray hentries
    -- two frames are gone, and one page of the windows is mapped
    rw [hspare, htables, hpages, ← hspare₁, ← hspare₂]
    generalize countFree fa₂.bitmap = left
    generalize smallMachine.mem.pt.tables.length = tables
    omega

end Rockos.PageAccounts
