import Rockos.FrameUse
import Rockos.Syscall

/-!
# Failed memory calls

`brk` and `mmap` map their pages one by one and stop at the first that cannot be
mapped. Neither gives back what it has taken by then, and `mmap` without an
address also keeps `NEXT_MMAP` where it has moved it.
-/
namespace Rockos.FailedCalls
open FallibleState PhysMemory Paging ElfLoader KernelState AddressSpace PageEdits FrameAccounts
open FrameUse Syscall

theorem ofNat_ne_errno {a n : ℕ} (ha : a ≤ userMmapLimit) (hpos : 0 < n) (hn : n < 4096) :
    UInt64.ofNat a ≠ errno n := by
  intro h
  have hval := congrArg UInt64.toNat h
  simp only [errno, UInt64.toNat_ofNat'] at hval
  have hlimit : userMmapLimit = 0x480000 := rfl
  omega

/-- An edit that fails has taken nothing if there was nothing to take, and has
lost a frame otherwise. -/
theorem edit_failed {edit : MemM Unit} {m t : Mem} {reason : String}
    (hmeets : Meets (fun s => s = m) edit (fun _ s => s = m ∨ Drawn m s) (GaveUp m))
    (hrun : edit m = .error (.err reason) t) :
    (spare m = 0 ∧ t = m) ∨ (spare m ≠ 0 ∧ ¬ SameFrames m t) := by
  have hgave := hmeets m rfl
  rw [hrun] at hgave
  rcases hgave with hpanic | ⟨rfl, hzero⟩ | hdrawn
  · cases hpanic
  · exact .inl ⟨hzero, rfl⟩
  · exact .inr ⟨hdrawn.spare_ne, hdrawn.not_sameFrames⟩

/-! ## brk -/

/-- The heap, its pages and the free frames are what they were. -/
structure BrkUndone (k k' : Kernel) : Prop where
  brkEnd : k'.current.map Process.brkEnd = k.current.map Process.brkEnd
  pages : ∀ q, userBrkBase ≤ q * pageSize → q * pageSize < userBrkLimit →
    (k'.mem.pt.entries q).isSome = (k.mem.pt.entries q).isSome
  frames : SameFrames k.mem k'.mem

theorem BrkUndone.refl (k : Kernel) : BrkUndone k k :=
  ⟨rfl, fun _ _ _ => rfl, sameFrames_of_eq rfl rfl⟩

theorem sysBrk_of_limit_lt (w : Walker) {addr : ℕ} {k : Kernel} {p : Process}
    (hcaller : k.current = some p) (h : userBrkLimit < addr) :
    sysBrk w addr k = .ok (errno 12) k := by
  simp only [sysBrk, bind_run, get_run, hcaller]
  rw [if_neg (by omega), if_pos (.inr h)]
  rfl

/-- A refused `brk` has no effect exactly if the address was out of range or
there was no frame to take. -/
theorem brk_error_atomic_iff (w : Walker) (addr : ℕ) (k k' : Kernel) (p : Process)
    (hcaller : k.current = some p) (h : sysBrk w addr k = .ok (errno 12) k') :
    BrkUndone k k' ↔ addr < userBrkBase ∨ userBrkLimit < addr ∨ spare k.mem = 0 := by
  have haddr : addr ≤ userBrkLimit → UInt64.ofNat addr ≠ errno 12 := by
    intro hle
    exact ofNat_ne_errno (hle.trans (by decide)) (by decide) (by decide)
  cases sysBrk_returns hcaller h with
  | same hv hk hsame =>
      subst hk
      refine iff_of_true (BrkUndone.refl k') ?_
      rcases hsame with rfl | rfl
      · exact .inl (by decide)
      · by_contra hnot
        exact haddr (by omega) hv.symm
  | refused _ hk hrange =>
      subst hk
      exact iff_of_true (BrkUndone.refl k') (by omega)
  | shrink hlo hhi _ hrun =>
      rcases editThen_cases hrun with ⟨m, -, hv, -⟩ | ⟨reason, m, hedit, -, -⟩
      · exact absurd hv.symm (haddr hhi)
      · -- releasing pages cannot fail
        have hmeets := mapBrkShrink_meets addr p.brkEnd (E := k.mem.pt.entries) k.mem rfl
        rw [hedit] at hmeets
        cases hmeets
  | grow hlo hhi _ hrun =>
      rcases editThen_cases hrun with ⟨m, -, hv, -⟩ | ⟨reason, m, hedit, -, rfl⟩
      · exact absurd hv.symm (haddr hhi)
      · rcases edit_failed (mapBrkGrow_draws w _ _ _ k.mem) hedit with
          ⟨hzero, rfl⟩ | ⟨hspare, hlost⟩
        · exact iff_of_true (BrkUndone.refl k) (.inr (.inr hzero))
        · apply iff_of_false
          · intro hundone
            exact hlost hundone.frames
          · omega

/-- The first process, with one frame left once it has been loaded. -/
def tight : Kernel := boot 0x10000204000 0x444444448000
  (statics (final (kernelMain flatWalker spinElf (memInit [⟨1, 68, .usable⟩]))))

theorem tight_current : ∃ p, tight.current = some p ∧ p.brkEnd = 0x404000 := ⟨_, rfl, rfl⟩

theorem brk_error_atomic_out_of_range : ∃ k', sysBrk flatWalker 0x500000 tight = .ok (errno 12) k' ∧
    BrkUndone tight k' := by
  obtain ⟨p, hcaller, -⟩ := tight_current
  have hrun : sysBrk flatWalker 0x500000 tight = .ok (errno 12) tight :=
    sysBrk_of_limit_lt flatWalker hcaller (by decide)
  exact ⟨tight, hrun, (brk_error_atomic_iff _ _ _ _ p hcaller hrun).mpr (.inr (.inl (by decide)))⟩

/-- The last frame goes to the first of two pages. -/
structure LastFrame (m : Mem) (f : ℕ) (fa : BitmapFrameAllocator) : Prop where
  takes : allocateFrame m.fa = some (f, fa)
  none_left : allocateFrame fa = none

theorem LastFrame.first {m : Mem} {f : ℕ} {fa : BitmapFrameAllocator} (h : LastFrame m f fa)
    {page : ℕ} (hfree : m.pt.entries page = none) (flags : PageTableFlags) :
    mapNewPage flatWalker page flags m =
      .ok () (setEntry page (some ⟨f, flags⟩) { m with fa := fa }) :=
  mapNewPage_ok flags h.takes rfl rfl hfree

theorem LastFrame.second {m : Mem} {f : ℕ} {fa : BitmapFrameAllocator} (h : LastFrame m f fa)
    (page q : ℕ) (e : Option Entry) (flags : PageTableFlags) :
    mapNewPage flatWalker q flags (setEntry page e { m with fa := fa }) =
      .error (.err "()") (setEntry page e { m with fa := fa }) := by
  simp [mapNewPage, takeFrame, setEntry, bind_run, h.none_left]

theorem tight_lastFrame : ∃ f fa, LastFrame tight.mem f fa ∧ tight.mem.pt.entries 0x404 = none ∧
    tight.mem.pt.entries 0x405 = none ∧ tight.mem.pt.entries 0x410 = none := by
  have hrun : (allocateFrame tight.mem.fa).map (fun x => x.2.bitmap.toList.all (· == 0xFF)) =
        some true ∧ tight.mem.pt.entries 0x404 = none ∧ tight.mem.pt.entries 0x405 = none ∧
      tight.mem.pt.entries 0x410 = none := by decide +kernel
  obtain ⟨hfull, hfree⟩ := hrun
  obtain ⟨r, hr, hfull⟩ := Option.map_eq_some_iff.mp hfull
  exact ⟨r.1, r.2, ⟨hr, allocateFrame_of_full hfull⟩, hfree⟩

theorem LastFrame.brk {k : Kernel} {p : Process} {f : ℕ} {fa : BitmapFrameAllocator}
    (h : LastFrame k.mem f fa) (hcaller : k.current = some p) (hend : p.brkEnd = 0x404000)
    (hfree : k.mem.pt.entries 0x404 = none) (hfree' : k.mem.pt.entries 0x405 = none) :
    ∃ k', sysBrk flatWalker 0x406000 k = .ok (errno 12) k' ∧ ¬ BrkUndone k k' := by
  have hgrow : mapBrkGrow flatWalker 0x404000 0x406000 userDataFlags k.mem = .error (.err "()")
      (setEntry 0x404 (some ⟨f, userDataFlags⟩) { k.mem with fa := fa }) := by
    have hfirst : growPage flatWalker userDataFlags 0x404 k.mem =
        .ok () (setEntry 0x404 (some ⟨f, userDataFlags⟩) { k.mem with fa := fa }) := by
      simp [growPage, bind_run, translateAddr, pageOf, pageSize, hfree, h.first hfree]
    have hsecond : growPage flatWalker userDataFlags 0x405
        (setEntry 0x404 (some ⟨f, userDataFlags⟩) { k.mem with fa := fa }) =
        .error (.err "()") (setEntry 0x404 (some ⟨f, userDataFlags⟩) { k.mem with fa := fa }) := by
      have hopen : (translateAddr (setEntry 0x404 (some ⟨f, userDataFlags⟩)
          { k.mem with fa := fa }) (0x405 * pageSize)).isSome = false := by
        simp [translateAddr, pageOf, pageSize, setEntry, hfree']
      rw [growPage, bind_run, get_run]
      simp only [hopen]
      exact h.second 0x404 0x405 _ userDataFlags
    simp [mapBrkGrow, forPages, countLoop, nextPage, virtAddr, signExtend, canonical, bind_run,
      pageOf, pageSize, hfirst, hsecond]
  refine ⟨setMem (setEntry 0x404 (some ⟨f, userDataFlags⟩) { k.mem with fa := fa }) k, ?_, ?_⟩
  · simp [sysBrk, commitBrk, editThen, bind_run, hcaller, hend, userBrkBase, userBrkLimit, onMem,
      zoom, attempt, hgrow, Stop.isErr]
  · intro hundone
    have hsame := hundone.pages 0x404 (by decide) (by decide)
    rw [hfree] at hsame
    simp [setMem, setEntry] at hsame

/-- Two pages are asked for and there is a frame for one of them: it stays
mapped behind the end of the heap. -/
theorem brk_failure_keeps_page : Reachable machine tight ∧
    ∃ k', sysBrk flatWalker 0x406000 tight = .ok (errno 12) k' ∧ ¬ BrkUndone tight k' := by
  obtain ⟨p, hcaller, hend⟩ := tight_current
  obtain ⟨f, fa, hlast, hfree, hfree', -⟩ := tight_lastFrame
  exact ⟨⟨_, _, _, [], .done _⟩, hlast.brk hcaller hend hfree hfree'⟩

/-! ## mmap -/

/-- The books of `mmap`, the mapped pages and the free frames are what they
were. -/
structure MmapUndone (k k' : Kernel) : Prop where
  next : k'.nextMmap = k.nextMmap
  areas : k'.current.map Process.vmAreas = k.current.map Process.vmAreas
  pages : ∀ q, (k'.mem.pt.entries q).isSome = (k.mem.pt.entries q).isSome
  frames : SameFrames k.mem k'.mem

theorem MmapUndone.refl (k : Kernel) : MmapUndone k k :=
  ⟨rfl, rfl, fun _ => rfl, sameFrames_of_eq rfl rfl⟩

/-- The requests `mmap` refuses before it has done anything. -/
def BadRequest (addr len : ℕ) : Prop :=
  len = 0 ∨ len > userMmapLimit - userMmapBase ∨
    addr ≠ 0 ∧ (addr % pageSize ≠ 0 ∨ addr < userMmapBase ∨ saturatingAdd addr len > userMmapLimit)

instance (addr len : ℕ) : Decidable (BadRequest addr len) :=
  inferInstanceAs (Decidable (_ ∨ _))

theorem sysMmap_of_badRequest {addr len : ℕ} (w : Walker) (prot : ℕ) (k : Kernel)
    (h : BadRequest addr len) : sysMmap w addr len prot k = .ok (errno 22) k := by
  unfold sysMmap
  by_cases hlen : len = 0 ∨ len > userMmapLimit - userMmapBase
  · rw [if_pos hlen]
    rfl
  · rw [if_neg hlen]
    rcases h with h | h | ⟨haddr, h⟩
    · exact absurd (.inl h) hlen
    · exact absurd (.inr h) hlen
    · rw [if_neg haddr]
      split_ifs with haligned hrange
      · rfl
      · rfl
      · rcases h with h | h
        · exact absurd h haligned
        · exact absurd h hrange

/-- Any other request gets as far as mapping pages, with `NEXT_MMAP` already
moved if no address was given. -/
theorem sysMmap_accepted {w : Walker} {addr len prot : ℕ} {k k' : Kernel} {v : UInt64}
    (hgood : ¬ BadRequest addr len) (h : sysMmap w addr len prot k = .ok v k') :
    (addr = 0 ∧ k'.nextMmap = (bumpMmap len k).nextMmap) ∨
    (addr ≠ 0 ∧ addr ≤ userMmapLimit ∧ editThen (mapUserAnonPages w addr (pageCount len)
      (mmapFlags prot)) (pushArea addr (pageCount len) prot) (UInt64.ofNat addr) k = .ok v k') := by
  have hlen : ¬ (len = 0 ∨ len > userMmapLimit - userMmapBase) := by
    intro hbad
    exact hgood (by rcases hbad with h | h <;> simp [BadRequest, h])
  unfold sysMmap at h
  rw [if_neg hlen] at h
  by_cases haddr : addr = 0
  · left
    refine ⟨haddr, ?_⟩
    rw [if_pos haddr] at h
    simp only [bind_run, get_run, modify_run] at h
    split_ifs at h with hroom
    · obtain ⟨-, rfl⟩ := EStateM.Result.ok.inj h
      rfl
    · rw [mmapAt] at h
      rcases editThen_cases h with ⟨m, -, -, rfl⟩ | ⟨reason, m, -, -, rfl⟩
      · rfl
      · rfl
  · right
    have hfits : addr % pageSize = 0 ∧ ¬ (addr < userMmapBase ∨
        saturatingAdd addr len > userMmapLimit) := by
      constructor
      · by_contra hne
        exact hgood (.inr (.inr ⟨haddr, .inl hne⟩))
      · intro hrange
        exact hgood (.inr (.inr ⟨haddr, .inr hrange⟩))
    rw [if_neg haddr, if_neg (by rw [hfits.1]; simp), if_neg hfits.2, mmapAt] at h
    refine ⟨haddr, ?_, h⟩
    have hsat : addr ≤ saturatingAdd addr len ∨ u64Max ≤ saturatingAdd addr len := by
      rw [saturatingAdd]
      omega
    have hmax : userMmapLimit < u64Max := by decide
    omega

theorem bumpMmap_moves (k : Kernel) {len : ℕ} (hpos : len ≠ 0)
    (hlen : len ≤ userMmapLimit - userMmapBase) : (bumpMmap len k).nextMmap ≠ k.nextMmap := by
  have hcount := pageCount_pos hpos
  have hle : pageCount len * pageSize ≤ len + pageSize - 1 := Nat.div_mul_le_self _ _
  have hsize : userMmapLimit - userMmapBase = 0x70000 := rfl
  have hpage : pageSize = 4096 := rfl
  show (k.nextMmap + pageCount len * pageSize) % 2 ^ 64 ≠ k.nextMmap
  have hbump : 0 < pageCount len * pageSize := Nat.mul_pos hcount (by decide)
  generalize pageCount len * pageSize = bump at *
  omega

/-- A refused `mmap` has no effect exactly if the request was bad, or named an
address while there was no frame to take. -/
theorem mmap_error_atomic_iff (w : Walker) (addr len prot : ℕ) (k k' : Kernel) (v : UInt64)
    (h : sysMmap w addr len prot k = .ok v k') (herr : v = errno 12 ∨ v = errno 22) :
    MmapUndone k k' ↔ BadRequest addr len ∨ addr ≠ 0 ∧ spare k.mem = 0 := by
  by_cases hbad : BadRequest addr len
  · rw [sysMmap_of_badRequest w prot k hbad] at h
    obtain ⟨-, rfl⟩ := EStateM.Result.ok.inj h
    exact iff_of_true (MmapUndone.refl k) (.inl hbad)
  rcases sysMmap_accepted hbad h with ⟨hzero, hnext⟩ | ⟨haddr, hle, hrun⟩
  · apply iff_of_false
    · intro hundone
      have hpos : len ≠ 0 := fun hlen => hbad (.inl hlen)
      have hlen : len ≤ userMmapLimit - userMmapBase := by
        by_contra hlen
        exact hbad (.inr (.inl (by omega)))
      exact bumpMmap_moves k hpos hlen (hnext.symm.trans hundone.next)
    · rintro (hcond | hcond)
      · exact hbad hcond
      · exact hcond.1 hzero
  · rcases editThen_cases hrun with ⟨m, -, hv, -⟩ | ⟨reason, m, hedit, -, rfl⟩
    · rcases herr with herr | herr
      · exact absurd (hv.symm.trans herr) (ofNat_ne_errno hle (by decide) (by decide))
      · exact absurd (hv.symm.trans herr) (ofNat_ne_errno hle (by decide) (by decide))
    · rcases edit_failed (mapUserAnonPages_draws w _ _ _ k.mem) hedit with
        ⟨hzero, rfl⟩ | ⟨hspare, hlost⟩
      · exact iff_of_true (MmapUndone.refl k) (.inr ⟨haddr, hzero⟩)
      · apply iff_of_false
        · intro hundone
          exact hlost hundone.frames
        · rintro (hcond | hcond)
          · exact hbad hcond
          · exact hspare hcond.2

theorem mmap_error_atomic_misaligned : ∃ k',
    sysMmap flatWalker 0x410001 0x1000 3 tight = .ok (errno 22) k' ∧ MmapUndone tight k' := by
  have hbad : BadRequest 0x410001 0x1000 := by decide
  have hrun := sysMmap_of_badRequest flatWalker 3 tight hbad
  exact ⟨tight, hrun, (mmap_error_atomic_iff _ _ _ _ _ _ _ hrun (.inr rfl)).mpr (.inl hbad)⟩

theorem LastFrame.mmap {k : Kernel} {f : ℕ} {fa : BitmapFrameAllocator}
    (h : LastFrame k.mem f fa) (hnext : k.nextMmap = 0x410000)
    (hfree : k.mem.pt.entries 0x410 = none) :
    ∃ k', sysMmap flatWalker 0 0x2000 3 k = .ok (errno 12) k' ∧ ¬ MmapUndone k k' ∧
      (k'.mem.pt.entries 0x410).isSome = true ∧ k'.nextMmap = 0x412000 := by
  have hmap : mapUserAnonPages flatWalker 0x410000 2 (mmapFlags 3) k.mem =
      .error (.err "()") (setEntry 0x410 (some ⟨f, mmapFlags 3⟩) { k.mem with fa := fa }) := by
    simp [mapUserAnonPages, countLoop, virtAddr, signExtend, canonical, bind_run, pageOf, pageSize,
      h.first hfree, h.second]
  refine ⟨setMem (setEntry 0x410 (some ⟨f, mmapFlags 3⟩) { k.mem with fa := fa })
    (bumpMmap 0x2000 k), ?_, ?_, ?_, ?_⟩
  · have hcount : pageCount 0x2000 = 2 := rfl
    simp [sysMmap, mmapAt, editThen, bind_run, userMmapBase, userMmapLimit, hnext, hcount,
      saturatingAdd, pageSize, u64Max, onMem, zoom, attempt, hmap, Stop.isErr, bumpMmap, setMem]
  · intro hundone
    have hsame := hundone.pages 0x410
    rw [hfree] at hsame
    simp [setMem, setEntry] at hsame
  · simp [setMem, setEntry]
  · simp [setMem, bumpMmap, hnext, pageCount, pageSize]

/-- Two pages are asked for and there is a frame for one of them: it stays
mapped, and `NEXT_MMAP` has moved past both. -/
theorem mmap_failure_keeps_page : Reachable machine tight ∧
    ∃ k', sysMmap flatWalker 0 0x2000 3 tight = .ok (errno 12) k' ∧ ¬ MmapUndone tight k' ∧
      (k'.mem.pt.entries 0x410).isSome = true ∧ k'.nextMmap = 0x412000 := by
  obtain ⟨f, fa, hlast, -, -, hfree⟩ := tight_lastFrame
  exact ⟨⟨_, _, _, [], .done _⟩, hlast.mmap rfl hfree⟩

end Rockos.FailedCalls
