import Rockos.FailedCalls

/-!
# Unmapping what was just mapped

`mmap` rounds the length up to whole pages and records the area by its pages;
`munmap` looks for an area that ends where the length it is given ends. The two
agree on whole pages only.
-/
namespace Rockos.MmapRoundTrip
open FallibleState PhysMemory Paging KernelState AddressSpace PageEdits MapEdits FrameAccounts
open FrameUse FailedCalls Syscall

/-- The areas of the caller, the mapped pages and the free frames are what they
were. -/
structure Restored (k k' : Kernel) : Prop where
  areas : k'.current.map Process.vmAreas = k.current.map Process.vmAreas
  pages : ∀ q, (k'.mem.pt.entries q).isSome = (k.mem.pt.entries q).isSome
  frames : SameFrames k.mem k'.mem

/-- What `mmap` without an address has done when it returns one. -/
structure AreaMade (w : Walker) (len prot : ℕ) (k k' : Kernel) (m : Mem) : Prop where
  pos : len ≠ 0
  room : k.nextMmap + pageCount len * pageSize ≤ userMmapLimit
  edit : mapUserAnonPages w k.nextMmap (pageCount len) (mmapFlags prot) k.mem = .ok () m
  kernel : k' = pushArea k.nextMmap (pageCount len) prot (setMem m (bumpMmap len k))

theorem sysMmap_made {w : Walker} {len prot : ℕ} {k k' : Kernel} {a : UInt64}
    (h : sysMmap w 0 len prot k = .ok a k') (hok : a ≠ errno 12 ∧ a ≠ errno 22) :
    a.toNat = k.nextMmap ∧ ∃ m, AreaMade w len prot k k' m := by
  cases sysMmap_returns h with
  | refused hv _ _ => exact absurd hv hok.2
  | full hv _ _ _ => exact absurd hv hok.1
  | fixed _ hzero _ _ _ _ => exact absurd rfl hzero
  | bumped hlen _ hroom hrun =>
      have hroom' : k.nextMmap + pageCount len * pageSize ≤ userMmapLimit := by
        have hmax : userMmapLimit < u64Max := by decide
        rw [saturatingAdd] at hroom
        omega
      have hlt : k.nextMmap < 2 ^ 64 := by
        have hlimit : userMmapLimit = 0x480000 := rfl
        omega
      rw [mmapAt] at hrun
      rcases editThen_cases hrun with ⟨m, hedit, rfl, hk⟩ | ⟨_, m, _, hv, _⟩
      · refine ⟨UInt64.toNat_ofNat_of_lt hlt, m, ?_, hroom', hedit, hk⟩
        intro hzero
        exact hlen (.inl hzero)
      · exact absurd hv hok.1

theorem len_le_pages (len : ℕ) : len ≤ pageCount len * pageSize := by
  have h := Nat.div_add_mod (len + pageSize - 1) pageSize
  have hmod := Nat.mod_lt (len + pageSize - 1) (show 0 < pageSize by decide)
  rw [Nat.mul_comm] at h
  rw [pageCount]
  omega

theorem pages_eq_len_iff {len : ℕ} : pageCount len * pageSize = len ↔ len % pageSize = 0 := by
  constructor
  · intro h
    rw [← h]
    exact Nat.mul_mod_left _ _
  · intro h
    obtain ⟨n, rfl⟩ := Nat.dvd_of_mod_eq_zero h
    have hpage : pageSize = 4096 := rfl
    rw [pageCount]
    have hdiv : (pageSize * n + pageSize - 1) / pageSize = n := by
      rw [hpage]
      omega
    rw [hdiv, Nat.mul_comm]

section
variable {w : Walker} {len prot : ℕ} {p : Process} {k k₁ : Kernel} {m : Mem}

theorem AreaMade.mem (h : AreaMade w len prot k k₁ m) : k₁.mem = m := by
  rw [h.kernel]
  rfl

/-- The caller has one more area. -/
theorem AreaMade.caller (h : AreaMade w len prot k k₁ m) (hcaller : k.current = some p) :
    ∃ area, area.virtStart = k.nextMmap ∧ area.pages = pageCount len ∧
      k₁.current = some { p with vmAreas := p.vmAreas ++ [area] } := by
  refine ⟨⟨k.vmAreaNextId, k.nextMmap, pageCount len, protWrite prot, protExec prot⟩, rfl, rfl, ?_⟩
  rw [h.kernel]
  unfold pushArea
  rw [current_updateCurrent]
  have hsame : Kernel.current { setMem m (bumpMmap len k) with
      vmAreaNextId := ((setMem m (bumpMmap len k)).vmAreaNextId + 1) % 2 ^ 64 } = k.current := rfl
  rw [hsame, hcaller]
  rfl

theorem AreaMade.pages_lt (h : AreaMade w len prot k k₁ m) :
    k.nextMmap + len ≤ userMmapLimit :=
  (Nat.add_le_add_left (len_le_pages len) _).trans h.room

theorem saturatingAdd_eq {a b : ℕ} (h : a + b ≤ userMmapLimit) : saturatingAdd a b = a + b :=
  Nat.min_eq_left (h.trans (by decide))

/-- The new area is the one `munmap` looks for only if its length is whole pages. -/
theorem spansExactly_new {area : VmArea} (hstart : area.virtStart = k.nextMmap)
    (hpages : area.pages = pageCount len) :
    spansExactly k.nextMmap (k.nextMmap + len) area = true ↔ len % pageSize = 0 := by
  rw [← pages_eq_len_iff, spansExactly, VmArea.virtEnd, hstart, hpages]
  simp

theorem unmapUserRange_returns {start count : ℕ} (hhi : start + count * pageSize ≤ userMmapLimit)
    (m : Mem) : ∃ m', unmapUserRange start count m = .ok () m' := by
  have hloop : Meets (fun _ => True) (unmapUserRange start count) (fun _ _ => True)
      (fun _ _ => False) := by
    refine meets_countLoop (fun _ _ _ => True) 0 count () ?_
    intro i _ _ hi s _
    have hlt : start + i * pageSize < 2 ^ 47 := step_lt (by omega) (hhi.trans (by decide))
    obtain ⟨t, hrel, -⟩ := releasePage_run (start + i * pageSize) s
    rw [virtAddr_of_lt hlt, pure_bind, hrel]
    trivial
  obtain ⟨_, m', hrun, -⟩ := hloop.returns (s := m) trivial
  exact ⟨m', hrun⟩

/-- The pages and the frames after a run of pages was mapped and unmapped. -/
theorem unmap_restores {count : ℕ} {start : ℕ} {flags : PageTableFlags} {m₀ m' : Mem}
    (hstart : start % pageSize = 0) (hlow : start + count * pageSize ≤ 2 ^ 47)
    (hreserved : used m₀.fa 0 = true)
    (hmap : mapUserAnonPages w start count flags m₀ = .ok () m)
    (hunmap : unmapUserRange start count m = .ok () m') :
    m'.pt.entries = m₀.pt.entries ∧ SameFrames m₀ m' := by
  obtain ⟨new, hspends⟩ := mapUserAnonPages_takes hstart hlow hmap
  have hproper : ∀ f ∈ framesOf m.pt.entries (pagesFrom start count), Proper f := by
    intro f hf
    have hfree := hspends.fresh f (.inl hf)
    constructor
    · rintro rfl
      rw [hreserved] at hfree
      cases hfree
    · by_contra hge
      simp [used, Nat.le_of_not_lt hge] at hfree
  obtain ⟨htables, hused⟩ := unmapUserRange_frees hstart hlow hunmap hproper
  constructor
  · have hadds := mapUserAnonPages_meets w hstart hlow flags (E := m₀.pt.entries) m₀ rfl
    rw [hmap] at hadds
    funext q
    rw [unmapUserRange_ok hstart hlow hunmap q]
    split_ifs with hq
    · exact (hadds.2 q hq).1.symm
    · exact hadds.1.outside hq
  · refine ⟨new, htables.trans hspends.tables, fun f => ?_, fun f hf => ?_, by simp⟩
    · rw [hused, hspends.used]
      have hfresh : f ∈ framesOf m.pt.entries (pagesFrom start count) →
          used m₀.fa f ≠ true ∧ f ∉ new.map Prod.snd := by
        intro hf
        exact ⟨by simp [hspends.fresh f (.inl hf)], hspends.apart f hf⟩
      simp only [Set.mem_empty_iff_false, false_or]
      tauto
    · rcases hf with hf | hf
      · cases hf
      · exact hspends.fresh f (.inr hf)

/-- A `munmap` that finds its area and can unmap it. -/
theorem sysMunmap_of_area {addr len : ℕ} {k : Kernel} {m' : Mem} {b : VmArea}
    (haligned : addr % pageSize = 0) (hlen : len ≠ 0) (hcaller : k.current = some p)
    (hb : b ∈ p.vmAreas) (hspan : spansExactly addr (saturatingAdd addr len) b = true)
    (hunmap : unmapUserRange addr (len / pageSize) k.mem = .ok () m') :
    sysMunmap addr len k = .ok 0 (setMem m' (dropAreas addr (saturatingAdd addr len) k)) := by
  have hany : p.vmAreas.any (spansExactly addr (saturatingAdd addr len)) = true :=
    List.any_eq_true.mpr ⟨b, hb, hspan⟩
  have hmem : (dropAreas addr (saturatingAdd addr len) k).mem = k.mem := rfl
  unfold sysMunmap
  rw [if_neg (by omega)]
  simp only [bind_run, get_run, modify_run, hcaller, Option.elim_some, hany, Bool.not_true,
    Bool.false_eq_true, if_false, onMem, zoom, attempt, hmem, hunmap]
  rfl

theorem current_dropAreas (addr hi : ℕ) (m' : Mem) (k : Kernel) (hcaller : k.current = some p) :
    (setMem m' (dropAreas addr hi k)).current.map Process.vmAreas =
      some (p.vmAreas.filter fun b => !spansExactly addr hi b) := by
  have hsame : (setMem m' (dropAreas addr hi k)).current = (dropAreas addr hi k).current := rfl
  rw [hsame, dropAreas, current_updateCurrent, hcaller]
  rfl

theorem AreaMade.munmap (h : AreaMade w len prot k k₁ m) (hcaller : k.current = some p)
    (hreserved : used k.mem.fa 0 = true) (hstart : k.nextMmap % pageSize = 0)
    (hlen : len % pageSize = 0)
    (hareas : ∀ b ∈ p.vmAreas, spansExactly k.nextMmap (k.nextMmap + len) b = false) :
    ∃ k₂, sysMunmap k.nextMmap len k₁ = .ok 0 k₂ ∧ Restored k k₂ := by
  obtain ⟨area, hvirt, hpages, hcaller₁⟩ := h.caller hcaller
  have hhi := saturatingAdd_eq h.pages_lt
  have hspan := (spansExactly_new hvirt hpages).mpr hlen
  have hcount : len / pageSize = pageCount len :=
    Nat.div_eq_of_eq_mul_left (by decide) (pages_eq_len_iff.mpr hlen).symm
  obtain ⟨m', hunmap⟩ := unmapUserRange_returns h.room m
  have hrun : sysMunmap k.nextMmap len k₁ = _ :=
    sysMunmap_of_area hstart h.pos hcaller₁ (b := area) (by simp) (by rw [hhi]; exact hspan)
      (by rw [hcount, h.mem]; exact hunmap)
  rw [hhi] at hrun
  obtain ⟨hentries, hframes⟩ :=
    unmap_restores hstart (h.room.trans (by decide)) hreserved h.edit hunmap
  refine ⟨_, hrun, ?_, fun q => ?_, hframes⟩
  · rw [current_dropAreas _ _ _ _ hcaller₁, hcaller]
    have hkeep : p.vmAreas.filter (fun b => !spansExactly k.nextMmap (k.nextMmap + len) b) =
        p.vmAreas := by
      apply List.filter_eq_self.mpr
      intro b hb
      rw [hareas b hb]
      rfl
    rw [List.filter_append, hkeep]
    simp [hspan]
  · show (m'.pt.entries q).isSome = _
    rw [hentries]

theorem AreaMade.of_munmap {k₂ : Kernel} (h : AreaMade w len prot k k₁ m)
    (hcaller : k.current = some p) (hrun : sysMunmap k.nextMmap len k₁ = .ok 0 k₂)
    (hareas : k₂.current.map Process.vmAreas = k.current.map Process.vmAreas) :
    k.nextMmap % pageSize = 0 ∧ len % pageSize = 0 ∧
      ∀ b ∈ p.vmAreas, spansExactly k.nextMmap (k.nextMmap + len) b = false := by
  obtain ⟨area, hvirt, hpages, hcaller₁⟩ := h.caller hcaller
  have hhi := saturatingAdd_eq h.pages_lt
  cases sysMunmap_returns hcaller₁ hrun with
  | refused hv _ _ => exact absurd hv (by decide)
  | unknown hv _ _ => exact absurd hv (by decide)
  | edit hstart _ b hb hspan m' hk _ =>
      subst hk
      rw [hhi] at hspan hareas
      rw [current_dropAreas _ _ _ _ hcaller₁, hcaller] at hareas
      have hfilter := Option.some.inj hareas
      -- whatever is left was not asked for
      have hold : ∀ c ∈ p.vmAreas, spansExactly k.nextMmap (k.nextMmap + len) c = false := by
        intro c hc
        rw [← hfilter] at hc
        simpa using (List.mem_filter.mp hc).2
      refine ⟨hstart, ?_, hold⟩
      rcases List.mem_append.mp hb with hb | hb
      · rw [hold b hb] at hspan
        cases hspan
      · rw [List.mem_singleton.mp hb] at hspan
        exact (spansExactly_new hvirt hpages).mp hspan

end

/-- Unmapping the area that was just mapped restores everything exactly if its
length is whole pages and no older area of the caller ends at the same place. -/
theorem mmap_munmap_restores_iff (w : Walker) (len prot : ℕ) (k k₁ : Kernel) (a : UInt64)
    (p : Process) (hcaller : k.current = some p) (hreserved : used k.mem.fa 0 = true)
    (h : sysMmap w 0 len prot k = .ok a k₁) (hok : a ≠ errno 12 ∧ a ≠ errno 22) :
    (∃ k₂, sysMunmap a.toNat len k₁ = .ok 0 k₂ ∧ Restored k k₂) ↔
      k.nextMmap % pageSize = 0 ∧ len % pageSize = 0 ∧
        ∀ b ∈ p.vmAreas, spansExactly k.nextMmap (k.nextMmap + len) b = false := by
  obtain ⟨haddr, m, hmade⟩ := sysMmap_made h hok
  rw [haddr]
  constructor
  · rintro ⟨k₂, hrun, hrestored⟩
    exact hmade.of_munmap hcaller hrun hrestored.areas
  · rintro ⟨hstart, hlen, hareas⟩
    exact hmade.munmap hcaller hreserved hstart hlen hareas

theorem mmap_munmap_restores_page : ∃ k₁ k₂,
    sysMmap flatWalker 0 0x1000 3 started = .ok 0x410000 k₁ ∧
      sysMunmap 0x410000 0x1000 k₁ = .ok 0 k₂ ∧ Restored started k₂ := by
  have hrun : (returned (sysMmap flatWalker 0 0x1000 3 started)).map (·.1) = some 0x410000 ∧
      used started.mem.fa 0 = true := by decide +kernel
  obtain ⟨p, hcaller, hareas⟩ : ∃ p, started.current = some p ∧ p.vmAreas = [] := ⟨_, rfl, rfl⟩
  obtain ⟨v, k₁, hmmap, hv⟩ := ok_of_returned hrun.1
  have hv : v = 0x410000 := hv
  subst hv
  obtain ⟨k₂, hmunmap, hrestored⟩ := (mmap_munmap_restores_iff flatWalker 0x1000 3 started k₁ _ p
    hcaller hrun.2 hmmap (by decide)).mpr ⟨rfl, rfl, by simp [hareas]⟩
  exact ⟨k₁, k₂, hmmap, hmunmap, hrestored⟩

/-- Of a hundred bytes a page is mapped, and `munmap` does not find it again. -/
theorem mmap_munmap_loses_page : ∃ k₁ k₂,
    sysMmap flatWalker 0 100 3 started = .ok 0x410000 k₁ ∧
      sysMunmap 0x410000 100 k₁ = .ok (errno 22) k₂ ∧ ¬ Restored started k₂ := by
  have hrun : (returned (sysMmap flatWalker 0 100 3 started)).map (fun x => (x.1,
      (returned (sysMunmap 0x410000 100 x.2)).map fun y =>
        (y.1, (y.2.mem.pt.entries 0x410).isSome))) = some (0x410000, some (errno 22, true)) ∧
      (started.mem.pt.entries 0x410).isSome = false := by decide +kernel
  obtain ⟨v, k₁, hmmap, hx⟩ := ok_of_returned hrun.1
  obtain ⟨hv, hx⟩ := Prod.mk.inj hx
  obtain ⟨v', k₂, hmunmap, hy⟩ := ok_of_returned hx
  obtain ⟨hv', hpage⟩ := Prod.mk.inj hy
  refine ⟨k₁, k₂, hmmap.trans (by rw [← hv]), hmunmap.trans (by rw [← hv']), ?_⟩
  intro hrestored
  have hsame := hrestored.pages 0x410
  rw [hrun.2] at hsame
  exact Bool.noConfusion (hpage.symm.trans hsame)

end Rockos.MmapRoundTrip
