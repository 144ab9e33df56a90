import Rockos.PageEdits
import Rockos.Runs

/-!
# The pointer checks are sound for the heap and for mappings

A process keeps two kinds of books about its address space, the heap end and
the list of areas. `Books` says what they promise about the page table. Orphan
pages, left behind by calls that failed half way, are allowed: a heap page
beyond the end must only have the flags of heap pages, since a later growth
takes it over, and an orphan in the mapping window makes a later mapping over
it fail.
-/
namespace Rockos.PointerChecks
open FallibleState PhysMemory Paging KernelState AddressSpace PageEdits MapEdits Runs

/-- An area is made of whole mapped pages of the mapping window. -/
structure AreaSound (E : ℕ → Option Entry) (a : VmArea) : Prop where
  aligned : a.virtStart % pageSize = 0
  nonempty : 0 < a.pages
  lo : userMmapBase ≤ a.virtStart
  hi : a.virtEnd ≤ userMmapLimit
  mapped : ∀ q, a.virtStart ≤ q * pageSize → q * pageSize < a.virtEnd →
    ∃ e, E q = some e ∧ e.flags.present = true ∧ e.flags.userAccessible = true ∧
      (a.writable = true → e.flags.writable = true)

def Apart (a b : VmArea) : Prop := a.virtEnd ≤ b.virtStart ∨ b.virtEnd ≤ a.virtStart

instance : Std.Symm Apart where
  symm _ _ := Or.symm

structure Books (E : ℕ → Option Entry) (p : Process) : Prop where
  brk_lo : userBrkBase ≤ p.brkEnd
  brk_hi : p.brkEnd ≤ userBrkLimit
  heap_flags : ∀ q e, q * pageSize < userBrkLimit → userBrkBase ≤ q * pageSize → E q = some e →
    e.flags = userDataFlags
  heap_mapped : ∀ q, userBrkBase ≤ q * pageSize → q * pageSize < p.brkEnd → (E q).isSome
  areas : ∀ a ∈ p.vmAreas, AreaSound E a
  apart : p.vmAreas.Pairwise Apart

section
variable {E E' : ℕ → Option Entry} {p : Process} {a b : VmArea}

theorem AreaSound.of_adds {S : Set ℕ} {good : Entry → Prop} (h : AreaSound E a)
    (hadds : Adds S good E E') : AreaSound E' a := by
  refine { h with mapped := fun q h₁ h₂ => ?_ }
  obtain ⟨e, he, hflags⟩ := h.mapped q h₁ h₂
  exact ⟨e, hadds.of_some he, hflags⟩

theorem AreaSound.of_removes {S : Set ℕ} (h : AreaSound E a) (hrem : Removes S E E')
    (hout : ∀ q ∈ S, ¬(a.virtStart ≤ q * pageSize ∧ q * pageSize < a.virtEnd)) :
    AreaSound E' a := by
  refine { h with mapped := fun q h₁ h₂ => ?_ }
  rw [hrem.outside fun hq => hout q hq ⟨h₁, h₂⟩]
  exact h.mapped q h₁ h₂

/-- Areas that share no page are apart, because they are made of whole pages. -/
theorem AreaSound.apart_of_pages (ha : AreaSound E a) (hb : b.virtStart % pageSize = 0)
    (hpages : 0 < b.pages)
    (hshare : ∀ q, ¬((a.virtStart ≤ q * pageSize ∧ q * pageSize < a.virtEnd) ∧
      (b.virtStart ≤ q * pageSize ∧ q * pageSize < b.virtEnd))) : Apart a b := by
  by_contra hnot
  simp only [Apart, not_or, not_le] at hnot
  have hA : a.virtStart < a.virtEnd := by
    have := Nat.mul_lt_mul_of_pos_right ha.nonempty (show 0 < pageSize by decide)
    simp only [VmArea.virtEnd]
    omega
  have hB : b.virtStart < b.virtEnd := by
    have := Nat.mul_lt_mul_of_pos_right hpages (show 0 < pageSize by decide)
    simp only [VmArea.virtEnd]
    omega
  rcases Nat.le_total a.virtStart b.virtStart with hle | hle
  · refine hshare (b.virtStart / pageSize) ?_
    rw [Nat.div_mul_cancel (Nat.dvd_of_mod_eq_zero hb)]
    omega
  · refine hshare (a.virtStart / pageSize) ?_
    rw [Nat.div_mul_cancel (Nat.dvd_of_mod_eq_zero ha.aligned)]
    omega

/-! ## The heap -/

theorem mem_growRange {oldEnd newEnd q : ℕ} (h₁ : oldEnd ≤ q * pageSize)
    (h₂ : q * pageSize < newEnd) : q ∈ pageRange (pageOf oldEnd) (pageOf (newEnd - 1)) := by
  constructor
  · rw [← pageOf_mul q]
    exact Nat.div_le_div_right h₁
  · exact (Nat.le_div_iff_mul_le (by decide)).mpr (by omega)

theorem Books.of_adds {S : Set ℕ} (h : Books E p)
    (hadds : Adds S (·.flags = userDataFlags) E E') : Books E' p := by
  refine ⟨h.brk_lo, h.brk_hi, ?_, ?_, fun a ha => (h.areas a ha).of_adds hadds, h.apart⟩
  · intro q e h₁ h₂ he
    rcases hadds q with heq | ⟨-, -, e', he', hflags⟩
    · exact h.heap_flags q e h₁ h₂ (by rwa [← heq])
    · rw [he, Option.some.injEq] at he'
      rwa [he']
  · exact fun q h₁ h₂ => hadds.isSome (h.heap_mapped q h₁ h₂)

theorem Books.grow {S : Set ℕ} (h : Books E p) {addr : ℕ} (hlo : p.brkEnd < addr)
    (hhi : addr ≤ userBrkLimit) (hadds : Adds S (·.flags = userDataFlags) E E')
    (hall : ∀ q ∈ pageRange (pageOf p.brkEnd) (pageOf (addr - 1)), (E' q).isSome) :
    Books E' { p with brkEnd := addr } := by
  have hE' := h.of_adds hadds
  have := h.brk_lo
  refine { hE' with brk_lo := by simp only; omega, brk_hi := hhi, heap_mapped := ?_ }
  intro q h₁ h₂
  rcases Nat.lt_or_ge (q * pageSize) p.brkEnd with hlt | hge
  · exact hE'.heap_mapped q h₁ hlt
  · exact hall q (mem_growRange hge h₂)

theorem Books.shrink (h : Books E p) {addr : ℕ} (hlo : userBrkBase ≤ addr) (hlt : addr < p.brkEnd)
    (hrem : Removes { q | q ∈ pagesOf (alignUp addr pageSize) (p.brkEnd - 1) } E E') :
    Books E' { p with brkEnd := addr } := by
  have hhi := h.brk_hi
  have hbounds : ∀ q ∈ pagesOf (alignUp addr pageSize) (p.brkEnd - 1),
      addr ≤ q * pageSize ∧ q * pageSize < p.brkEnd := fun q hq =>
    (mem_shrinkPages (by omega) hhi).mp hq
  refine ⟨hlo, by simp only; omega, ?_, ?_, ?_, h.apart⟩
  · exact fun q e h₁ h₂ he => h.heap_flags q e h₁ h₂ (hrem.of_some he)
  · intro q h₁ h₂
    rw [hrem.outside fun hq => absurd (hbounds q hq).1 (by simp only at h₂; omega)]
    exact h.heap_mapped q h₁ (by simp only at h₂; omega)
  · intro a ha
    have hsound := h.areas a ha
    refine hsound.of_removes hrem fun q hq hin => ?_
    have := (hbounds q hq).2
    have hbase : userBrkLimit ≤ a.virtStart := hsound.lo
    omega

/-! ## Mappings -/

theorem Books.addPages (h : Books E p) {start count : ℕ} {flags : PageTableFlags}
    (hlo : userMmapBase ≤ start)
    (hadds : Adds (pagesFrom start count) (·.flags = flags) E E') : Books E' p := by
  refine ⟨h.brk_lo, h.brk_hi, ?_, ?_, fun a ha => (h.areas a ha).of_adds hadds, h.apart⟩
  · intro q e h₁ h₂ he
    rw [hadds.outside fun hq => absurd (hlo.trans hq.1) (by rw [not_le]; exact h₁)] at he
    exact h.heap_flags q e h₁ h₂ he
  · exact fun q h₁ h₂ => hadds.isSome (h.heap_mapped q h₁ h₂)

theorem Books.addArea (h : Books E p) {id start count : ℕ} {prot : ℕ}
    (haligned : start % pageSize = 0) (hcount : 0 < count) (hlo : userMmapBase ≤ start)
    (hhi : start + count * pageSize ≤ userMmapLimit)
    (hadds : Adds (pagesFrom start count) (·.flags = mmapFlags prot) E E')
    (hnew : ∀ q ∈ pagesFrom start count, E q = none ∧ ∃ f, E' q = some ⟨f, mmapFlags prot⟩) :
    Books E' { p with
      vmAreas := p.vmAreas ++ [⟨id, start, count, protWrite prot, protExec prot⟩] } := by
  have hE' := h.addPages hlo hadds
  refine { hE' with areas := ?_, apart := ?_ }
  · intro a ha
    rcases List.mem_append.mp ha with ha | ha
    · exact hE'.areas a ha
    · rw [List.mem_singleton.mp ha]
      refine ⟨haligned, hcount, hlo, hhi, fun q h₁ h₂ => ?_⟩
      obtain ⟨-, f, hf⟩ := hnew q ⟨h₁, h₂⟩
      exact ⟨_, hf, rfl, rfl, fun hw => hw⟩
  · refine List.pairwise_append.mpr ⟨h.apart, List.pairwise_singleton _ _, ?_⟩
    intro a ha b hb
    rw [List.mem_singleton.mp hb]
    refine (h.areas a ha).apart_of_pages haligned hcount fun q hq => ?_
    -- a shared page was mapped before the call, so it could not be mapped by it
    obtain ⟨e, he, -⟩ := (h.areas a ha).mapped q hq.1.1 hq.1.2
    rw [(hnew q hq.2).1] at he
    cases he

theorem Books.filter (h : Books E p) (keep : VmArea → Bool) :
    Books E { p with vmAreas := p.vmAreas.filter keep } :=
  { h with
    areas := fun a ha => h.areas a (List.mem_filter.mp ha).1
    apart := h.apart.filter _ }

theorem spansExactly_iff {addr hi : ℕ} {a : VmArea} :
    spansExactly addr hi a = true ↔ a.virtStart = addr ∧ a.virtEnd = hi := by
  simp [spansExactly]

/-- The pages that are unmapped with an area end no later than it. -/
theorem spanned_le {addr len : ℕ} {a : VmArea} (hhi : a.virtEnd ≤ userMmapLimit)
    (hspan : spansExactly addr (saturatingAdd addr len) a = true) :
    addr + len / pageSize * pageSize ≤ a.virtEnd := by
  have hend := (spansExactly_iff.mp hspan).2
  have hdiv := Nat.div_mul_le_self len pageSize
  simp only [saturatingAdd, u64Max, userMmapLimit] at hend hhi
  omega

/-- The pages taken away are those of the area taken off the books. -/
theorem Books.dropArea (h : Books E p) {addr len : ℕ} {a : VmArea} (ha : a ∈ p.vmAreas)
    (hspan : spansExactly addr (saturatingAdd addr len) a = true)
    (hrem : Removes (pagesFrom addr (len / pageSize)) E E') :
    Books E' { p with
      vmAreas := p.vmAreas.filter fun b => !spansExactly addr (saturatingAdd addr len) b } := by
  obtain ⟨hstart, hend⟩ := spansExactly_iff.mp hspan
  have hsound := h.areas a ha
  have hhi : a.virtEnd ≤ 0x480000 := hsound.hi
  have hlo : 0x410000 ≤ a.virtStart := hsound.lo
  have hlen := spanned_le hsound.hi hspan
  refine ⟨h.brk_lo, h.brk_hi, ?_, ?_, ?_, h.apart.filter _⟩
  · exact fun q e h₁ h₂ he => h.heap_flags q e h₁ h₂ (hrem.of_some he)
  · intro q h₁ h₂
    have hbrk : p.brkEnd ≤ 0x410000 := h.brk_hi
    rw [hrem.outside fun hq => absurd hq.1 (by simp only at h₂; omega)]
    exact h.heap_mapped q h₁ h₂
  · intro b hb
    obtain ⟨hb, hkeep⟩ := List.mem_filter.mp hb
    have hne : a ≠ b := by
      rintro rfl
      simp [hspan] at hkeep
    refine (h.areas b hb).of_removes hrem fun q hq hin => ?_
    have hq₁ : addr ≤ q * pageSize := hq.1
    have hq₂ : q * pageSize < addr + len / pageSize * pageSize := hq.2
    rcases h.apart.forall ha hb hne with hap | hap <;> omega

end

/-! ## The calls -/

/-- The books of the running process are right, and `NEXT_MMAP` has moved by
`moved` bytes without wrapping. -/
def Sound (moved : ℕ) (k : Kernel) : Prop :=
  (∃ p, k.current = some p ∧ Books k.mem.pt.entries p) ∧
    k.nextMmap = userMmapBase + moved ∧ moved % pageSize = 0

section
variable {k k' : Kernel} {moved : ℕ} {v : UInt64}

theorem Sound.update {p : Process} (hcur : k.current = some p)
    (hnext : k.nextMmap = userMmapBase + moved ∧ moved % pageSize = 0) (m : Mem)
    (f : Process → Process) (h : Books m.pt.entries (f p)) :
    Sound moved ((setMem m k).updateCurrent f) := by
  refine ⟨⟨f p, ?_, h⟩, hnext⟩
  rw [current_updateCurrent]
  exact congrArg (Option.map f) hcur

theorem Sound.edit {p : Process} (hcur : k.current = some p)
    (hnext : k.nextMmap = userMmapBase + moved ∧ moved % pageSize = 0) (m : Mem)
    (h : Books m.pt.entries p) : Sound moved (setMem m k) :=
  ⟨⟨p, hcur, h⟩, hnext⟩

theorem editThen_sound {edit : MemM Unit} {books : Kernel → Kernel} {u : UInt64}
    (hok : ∀ m, edit k.mem = .ok () m → Sound moved (books (setMem m k)))
    (herr : ∀ reason m, edit k.mem = .error (.err reason) m → Sound moved (setMem m k))
    (hrun : editThen edit books u k = .ok v k') : Sound moved k' := by
  rcases editThen_cases hrun with ⟨m, hx, -, rfl⟩ | ⟨reason, m, hx, -, rfl⟩
  · exact hok m hx
  · exact herr reason m hx

theorem sysBrk_sound (w : Walker) (addr : ℕ) (h : Sound moved k)
    (hrun : sysBrk w addr k = .ok v k') : Sound moved k' := by
  obtain ⟨⟨p, hcur, hbooks⟩, hnext⟩ := id h
  cases sysBrk_returns hcur hrun with
  | same _ hk _ => exact hk ▸ h
  | refused _ hk _ => exact hk ▸ h
  | shrink hlo _ hlt hedit =>
      have hspec := mapBrkShrink_meets (E := k.mem.pt.entries) addr p.brkEnd k.mem rfl
      refine editThen_sound (fun m hx => ?_) (fun reason m hx => ?_) hedit
      · rw [hx] at hspec
        exact Sound.update hcur hnext m _ (hbooks.shrink hlo hlt hspec)
      · rw [hx] at hspec
        cases hspec
  | grow hlo hhi hlt hedit =>
      have hspec := mapBrkGrow_meets (E := k.mem.pt.entries) w p.brkEnd hhi userDataFlags k.mem rfl
      refine editThen_sound (fun m hx => ?_) (fun reason m hx => ?_) hedit
      · rw [hx] at hspec
        exact Sound.update hcur hnext m _ (hbooks.grow hlt hhi hspec.1 hspec.2)
      · rw [hx] at hspec
        exact Sound.edit hcur hnext m (hbooks.of_adds hspec)

theorem mmapAt_sound (w : Walker) {addr nPages : ℕ} (prot : ℕ) (h : Sound moved k)
    (haligned : addr % pageSize = 0) (hcount : 0 < nPages) (hlo : userMmapBase ≤ addr)
    (hhi : addr + nPages * pageSize ≤ userMmapLimit)
    (hrun : mmapAt w addr nPages prot k = .ok v k') : Sound moved k' := by
  obtain ⟨⟨p, hcur, hbooks⟩, hnext⟩ := h
  have hspec := mapUserAnonPages_meets (E := k.mem.pt.entries) w haligned
    (hhi.trans (by decide)) (mmapFlags prot) k.mem rfl
  rw [mmapAt] at hrun
  refine editThen_sound (fun m hx => ?_) (fun reason m hx => ?_) hrun
  · rw [hx] at hspec
    exact Sound.update (k := { k with vmAreaNextId := _ }) hcur hnext m _
      (hbooks.addArea haligned hcount hlo hhi hspec.1 hspec.2)
  · rw [hx] at hspec
    exact Sound.edit hcur hnext m (hbooks.addPages hlo hspec)

/-- How far one call moves `NEXT_MMAP`. -/
def mmapBump (addr len : ℕ) : ℕ :=
  if len = 0 ∨ len > userMmapLimit - userMmapBase then 0 else
    if addr = 0 then pageCount len * pageSize else 0

theorem Sound.bump {len : ℕ} (h : Sound moved k)
    (hwrap : userMmapBase + (moved + pageCount len * pageSize) < 2 ^ 64) :
    Sound (moved + pageCount len * pageSize) (bumpMmap len k) := by
  obtain ⟨hbooks, hnext, hmoved⟩ := h
  refine ⟨hbooks, ?_, by rw [Nat.add_mul_mod_self_right]; exact hmoved⟩
  rw [bumpMmap, hnext, Nat.add_assoc, Nat.mod_eq_of_lt hwrap]

theorem sysMmap_sound (w : Walker) (addr len prot : ℕ) (h : Sound moved k)
    (hwrap : userMmapBase + (moved + mmapBump addr len) < 2 ^ 64)
    (hrun : sysMmap w addr len prot k = .ok v k') : Sound (moved + mmapBump addr len) k' := by
  unfold mmapBump at *
  cases sysMmap_returns hrun with
  | refused _ hk hbad =>
      split_ifs with hlen haddr
      · exact hk ▸ h
      · exact absurd haddr (hbad.resolve_left hlen)
      · exact hk ▸ h
  | full _ hk hlen haddr =>
      rw [if_neg hlen, if_pos haddr] at hwrap ⊢
      exact hk ▸ h.bump hwrap
  | bumped hlen haddr hroom hat =>
      rw [if_neg hlen, if_pos haddr] at hwrap ⊢
      obtain ⟨-, hnext, hmoved⟩ := id h
      rw [hnext] at hroom hat
      refine mmapAt_sound w prot (h.bump hwrap) ?_ (pageCount_pos (by omega))
        (Nat.le_add_right _ _) ?_ hat
      · rw [Nat.add_mod, hmoved]
        decide
      · simp only [saturatingAdd, u64Max, userMmapLimit] at hroom ⊢
        omega
  | fixed hlen haddr haligned hlo hhi hat =>
      rw [if_neg hlen, if_neg haddr]
      refine mmapAt_sound w prot h haligned (pageCount_pos (by omega)) hlo ?_ hat
      -- the length is rounded up to whole pages, but the window ends on a page
      simp only [saturatingAdd, u64Max, userMmapLimit, pageCount, pageSize] at *
      omega

theorem sysMunmap_sound (addr len : ℕ) (h : Sound moved k)
    (hrun : sysMunmap addr len k = .ok v k') : Sound moved k' := by
  obtain ⟨⟨p, hcur, hbooks⟩, hnext⟩ := id h
  cases sysMunmap_returns hcur hrun with
  | refused _ hk _ => exact hk ▸ h
  | unknown _ hk _ => exact hk ▸ Sound.update hcur hnext k.mem _ (hbooks.filter _)
  | edit haligned _ a ha hspan m hk hedit =>
      have hspec := unmapUserRange_meets (E := k.mem.pt.entries) addr (len / pageSize) k.mem rfl
      have harea := (hbooks.areas a ha).hi
      have hlow : addr + len / pageSize * pageSize ≤ 2 ^ 47 :=
        (spanned_le harea hspan).trans (harea.trans (by decide))
      rcases hedit with ⟨hx, -⟩ | ⟨⟨reason, hx⟩, -⟩
      · rw [hx] at hspec
        exact hk ▸ Sound.update hcur hnext m _ (hbooks.dropArea ha hspan
          (hspec.mono fun q hq => (mem_steppedPages_of_le haligned hlow).mp hq))
      · rw [hx] at hspec
        cases hspec

end

/-! ## Runs of memory calls -/

inductive MemCall where
  | brk (addr : ℕ)
  | mmap (addr len prot : ℕ)
  | munmap (addr len : ℕ)
  deriving DecidableEq, Repr

def MemCall.run (w : Walker) : MemCall → KernelM UInt64
  | .brk addr => sysBrk w addr
  | .mmap addr len prot => sysMmap w addr len prot
  | .munmap addr len => sysMunmap addr len

def MemCall.bump : MemCall → ℕ
  | .mmap addr len _ => mmapBump addr len
  | .brk _ | .munmap _ _ => 0

/-- One call, if it returns. -/
def memStep (w : Walker) (c : MemCall) (k : Kernel) : Option (UInt64 × Kernel) :=
  match c.run w k with
  | .ok v k' => some (v, k')
  | .error _ _ => none

theorem memStep_eq_some {w : Walker} {c : MemCall} {k k' : Kernel} {v : UInt64} :
    memStep w c k = some (v, k') ↔ c.run w k = .ok v k' := by
  unfold memStep
  cases c.run w k with
  | ok a t => simp
  | error e t => simp

theorem memStep_sound (w : Walker) (c : MemCall) {k k' : Kernel} {v : UInt64} {moved : ℕ}
    (h : Sound moved k) (hwrap : userMmapBase + (moved + c.bump) < 2 ^ 64)
    (hstep : memStep w c k = some (v, k')) : Sound (moved + c.bump) k' := by
  rw [memStep_eq_some] at hstep
  cases c with
  | brk addr => exact sysBrk_sound w addr h hstep
  | mmap addr len prot => exact sysMmap_sound w addr len prot h hwrap hstep
  | munmap addr len => exact sysMunmap_sound addr len h hstep

theorem run_sound (w : Walker) {k k' : Kernel} {tr : List (MemCall × UInt64)} {moved : ℕ}
    (hrun : Run (memStep w) k tr k') (h : Sound moved k)
    (hwrap : userMmapBase + (moved + (tr.map fun e => e.1.bump).sum) < 2 ^ 64) :
    Sound (moved + (tr.map fun e => e.1.bump).sum) k' := by
  induction hrun generalizing moved with
  | done k => simpa using h
  | step hstep _ ih =>
      simp only [List.map_cons, List.sum_cons, ← Nat.add_assoc] at hwrap ⊢
      exact ih (memStep_sound w _ h (by omega) hstep) (by omega)

/-! ## The checks -/

/-- The address is in a page that user code may access. -/
def UserMapped (m : Mem) (va : ℕ) : Prop :=
  ∃ e, m.pt.entries (pageOf va) = some e ∧ e.flags.present = true ∧ e.flags.userAccessible = true

def UserWritable (m : Mem) (va : ℕ) : Prop :=
  ∃ e, m.pt.entries (pageOf va) = some e ∧ e.flags.present = true ∧
    e.flags.userAccessible = true ∧ e.flags.writable = true

theorem UserWritable.mapped {m : Mem} {va : ℕ} (h : UserWritable m va) : UserMapped m va := by
  obtain ⟨e, he, hp, hu, -⟩ := h
  exact ⟨e, he, hp, hu⟩

theorem pageOf_mul_le (va : ℕ) : pageOf va * pageSize ≤ va := Nat.div_mul_le_self va pageSize

theorem aligned_le_pageOf {base va : ℕ} (haligned : base % pageSize = 0) (h : base ≤ va) :
    base ≤ pageOf va * pageSize := by
  rw [← Nat.div_mul_cancel (Nat.dvd_of_mod_eq_zero haligned)]
  exact Nat.mul_le_mul_right _ (Nat.div_le_div_right h)

section
variable {k : Kernel} {p : Process} {addr hi va : ℕ}

theorem coversBrkHeap_writable (hcur : k.current = some p) (h : Books k.mem.pt.entries p)
    (hcovers : coversBrkHeap k addr hi = true) (hlo : addr ≤ va) (hva : va < hi) :
    UserWritable k.mem va := by
  simp only [coversBrkHeap, hcur, Bool.and_eq_true, decide_eq_true_eq] at hcovers
  obtain ⟨⟨hbase, hend⟩, hlimit⟩ := hcovers
  have hge : userBrkBase ≤ pageOf va * pageSize := aligned_le_pageOf (by decide) (by omega)
  have hle := pageOf_mul_le va
  obtain ⟨e, he⟩ := Option.isSome_iff_exists.mp (h.heap_mapped (pageOf va) hge (by omega))
  have hflags := h.heap_flags _ e (by omega) hge he
  exact ⟨e, he, by simp [hflags, userDataFlags]⟩

theorem coversMmap_mapped {counts : VmArea → Bool} (hcur : k.current = some p)
    (h : Books k.mem.pt.entries p) (hcovers : coversMmap counts k addr hi = true)
    (hlo : addr ≤ va) (hva : va < hi) :
    ∃ a, counts a = true ∧ ∃ e, k.mem.pt.entries (pageOf va) = some e ∧ e.flags.present = true ∧
      e.flags.userAccessible = true ∧ (a.writable = true → e.flags.writable = true) := by
  simp only [coversMmap, hcur, List.any_eq_true, Bool.and_eq_true, decide_eq_true_eq] at hcovers
  obtain ⟨a, ha, ⟨hcounts, hstart⟩, hend⟩ := hcovers
  have hsound := h.areas a ha
  have hle := pageOf_mul_le va
  exact ⟨a, hcounts, hsound.mapped (pageOf va) (aligned_le_pageOf hsound.aligned (by omega))
    (by omega)⟩

theorem coversMmapRead_mapped (hcur : k.current = some p) (h : Books k.mem.pt.entries p)
    (hcovers : coversMmapRead k addr hi = true) (hlo : addr ≤ va) (hva : va < hi) :
    UserMapped k.mem va := by
  obtain ⟨a, -, e, he, hp, hu, -⟩ := coversMmap_mapped hcur h hcovers hlo hva
  exact ⟨e, he, hp, hu⟩

theorem coversMmapWrite_writable (hcur : k.current = some p) (h : Books k.mem.pt.entries p)
    (hcovers : coversMmapWrite k addr hi = true) (hlo : addr ≤ va) (hva : va < hi) :
    UserWritable k.mem va := by
  obtain ⟨a, ha, e, he, hp, hu, hw⟩ := coversMmap_mapped hcur h hcovers hlo hva
  exact ⟨e, he, hp, hu, hw ha⟩

end

/-- A process with an empty heap and no areas, and nothing mapped in the range
from the heap base to the end of the mapping window. -/
structure FreshSpace (k : Kernel) : Prop where
  current : ∃ p, k.current = some p ∧ p.brkEnd = userBrkBase ∧ p.vmAreas = []
  next : k.nextMmap = userMmapBase
  empty : ∀ q, userBrkBase ≤ q * pageSize → q * pageSize < userMmapLimit →
    k.mem.pt.entries q = none

theorem FreshSpace.sound {k : Kernel} (h : FreshSpace k) : Sound 0 k := by
  obtain ⟨p, hcur, hbrk, hareas⟩ := h.current
  refine ⟨⟨p, hcur, ?_⟩, h.next, rfl⟩
  refine ⟨hbrk.ge, by rw [hbrk]; decide, ?_, ?_, by simp [hareas], by simp [hareas]⟩
  · intro q e h₁ h₂ he
    rw [h.empty q h₂ (h₁.trans (by decide))] at he
    cases he
  · intro q h₁ h₂
    omega

/-- Accepted heap and mapping pointers are backed by user pages, writable ones
where a write check accepted them, and the areas are disjoint runs of whole
pages of the mapping window. -/
theorem pointer_checks_sound (w : Walker) (k k' : Kernel) (tr : List (MemCall × UInt64))
    (hfresh : FreshSpace k) (hrun : Run (memStep w) k tr k')
    (hwrap : userMmapBase + (tr.map fun e => e.1.bump).sum < 2 ^ 64) :
    (∀ addr hi va, addr ≤ va → va < hi →
      (coversBrkHeap k' addr hi = true ∨ coversMmapRead k' addr hi = true →
        UserMapped k'.mem va) ∧
      (coversBrkHeap k' addr hi = true ∨ coversMmapWrite k' addr hi = true →
        UserWritable k'.mem va)) ∧
    ∃ p, k'.current = some p ∧ p.vmAreas.Pairwise Apart ∧
      ∀ a ∈ p.vmAreas, a.virtStart % pageSize = 0 ∧ 0 < a.pages ∧
        userMmapBase ≤ a.virtStart ∧ a.virtEnd ≤ userMmapLimit := by
  have hsound := run_sound w hrun hfresh.sound (by simpa using hwrap)
  obtain ⟨⟨p, hcur, hbooks⟩, -⟩ := hsound
  refine ⟨fun addr hi va hlo hva => ⟨?_, ?_⟩, p, hcur, hbooks.apart, fun a ha => ?_⟩
  · rintro (hc | hc)
    · exact (coversBrkHeap_writable hcur hbooks hc hlo hva).mapped
    · exact coversMmapRead_mapped hcur hbooks hc hlo hva
  · rintro (hc | hc)
    · exact coversBrkHeap_writable hcur hbooks hc hlo hva
    · exact coversMmapWrite_writable hcur hbooks hc hlo hva
  · have ha := hbooks.areas a ha
    exact ⟨ha.aligned, ha.nonempty, ha.lo, ha.hi⟩

/-- The first process on a machine with 63 usable frames and no table missing. -/
def smallMachine : Kernel := processInit 0 0 (statics (memInit [⟨1, 64, .usable⟩]))

theorem smallMachine_fresh : FreshSpace smallMachine :=
  ⟨⟨_, rfl, rfl, rfl⟩, rfl, fun _ _ _ => rfl⟩

theorem smallMachine_grow : ∃ f fa,
    mapBrkGrow flatWalker 0x404000 0x405000 userDataFlags smallMachine.mem =
      .ok () (setEntry 0x404 (some ⟨f, userDataFlags⟩) { smallMachine.mem with fa := fa }) := by
  have hclear : ByteBitmap.testBit smallMachine.mem.fa.bitmap 1 = false :=
    (new_testBit _ (by decide)).mpr
    ⟨by decide, ⟨⟨1, 64, .usable⟩, by decide, by decide⟩, by decide, by decide⟩
  obtain ⟨f, fa, hfa⟩ := allocateFrame_of_clear (by decide) hclear
  have hfree : smallMachine.mem.pt.entries 0x404 = none := rfl
  have hpage := mapNewPage_ok (w := flatWalker) userDataFlags hfa rfl rfl hfree
  refine ⟨f, fa, ?_⟩
  simp [mapBrkGrow, forPages, countLoop, growPage, virtAddr, canonical, signExtend, bind_run,
    pageOf, pageSize, translateAddr, hfree, hpage]

theorem pointer_checks_sound_growth :
    ∃ k, Run (memStep flatWalker) smallMachine [(.brk 0x405000, 0x405000)] k ∧
      coversBrkHeap k 0x404000 0x405000 = true ∧ UserWritable k.mem 0x404FFF := by
  obtain ⟨f, fa, hgrow⟩ := smallMachine_grow
  have hstep : memStep flatWalker (.brk 0x405000) smallMachine = some (0x405000,
      setBrkEnd 0x405000 (setMem (setEntry 0x404 (some ⟨f, userDataFlags⟩)
        { smallMachine.mem with fa := fa }) smallMachine)) := by
    have hcur : smallMachine.current = some (Process.new 1 none 0
      (SyscallFrame.bootstrapUser 0x400000 0x402000 0x202)) := rfl
    simp [memStep, MemCall.run, sysBrk, commitBrk, editThen, bind_run, map_run, hcur, onMem, zoom,
      attempt, Process.new, userBrkBase, userBrkLimit, hgrow]
  have hcovers : coversBrkHeap (setBrkEnd 0x405000 (setMem (setEntry 0x404
      (some ⟨f, userDataFlags⟩) { smallMachine.mem with fa := fa }) smallMachine))
      0x404000 0x405000 = true := by
    rfl
  have hsound :=
    pointer_checks_sound flatWalker _ _ _ smallMachine_fresh (.single hstep) (by decide)
  exact ⟨_, .single hstep, hcovers,
    (hsound.1 0x404000 0x405000 0x404FFF (by decide) (by decide)).2 (.inl hcovers)⟩

end Rockos.PointerChecks
