import Rockos.ExecStack
import Rockos.LoadedPages
import Rockos.OldImage
import Rockos.Syscall
import Rockos.TwoRuns

/-!
# Loading the same program again (elf.rs)

`load_elf_exec` unmaps everything from the text base to the image end and loads
the new program over it. The loader had mapped the pages of the segments,
wherever they are, and the user stack lies right behind the first page of the
text. So a program can be loaded over itself only if it fits the page at the
text base: a page below stays mapped and is refused, and a longer image takes
the stack with it.
-/
namespace Rockos.Reexec
open FallibleState PhysMemory Paging ElfLoader PageEdits FrameAccounts LoadedImage LoadedPages
open OldImage ExecStack TwoRuns Syscall

/-! ## Unmapping -/

/-- Frames come back, and the tables stay. -/
def Releases (m m' : Mem) : Prop := m'.pt.tables = m.pt.tables ∧ spare m ≤ spare m'

instance : IsPreorder Mem Releases where
  refl _ := ⟨rfl, le_rfl⟩
  trans _ _ _ h k := ⟨k.1.trans h.1, h.2.trans k.2⟩

theorem releasePage_releases (virt : ℕ) : Within Releases (releasePage virt) :=
  releasePage_within virt fun m e _ => ⟨rfl, countFree_le_deallocateFrame m.fa e.frame⟩

theorem unmapOldImage_releases : Within Releases unmapOldImageBestEffort := by
  intro m
  rw [unmapOldImage_eq]
  refine within_countLoop (fun i _ => ?_) 0 _ () m
  exact within_bind (within_virtAddr _) fun _ => within_bind within_get fun _ =>
    within_ite (releasePage_releases _) (within_pure _)

/-! ## Repeating the load -/

def textPage : ℕ := pageOf userTextBase

/-- The second run finds the same pages mapped, and frames for the text page if
that is still to be mapped. -/
structure ReloadReady (w : Walker) (s t : Mem) : Prop where
  mapped : ∀ q, (t.pt.entries q).isSome = (s.pt.entries q).isSome
  frames : s.pt.entries textPage = none → w.missing t.pt.tables textPage < spare t

section
variable {w : Walker} {image : List UInt8}

theorem virtAddr_bind_repeats {α : Type} {a : ℕ} {f : ℕ → MemM α}
    (h : Repeats (ReloadReady w) (f (signExtend a))) :
    Repeats (ReloadReady w) (virtAddr a >>= f) := by
  unfold virtAddr
  split_ifs
  · exact h
  · intro _ _ _ _ _ hrun
    cases hrun

theorem addU64_bind_repeats {α : Type} {a b : ℕ} {f : ℕ → MemM α}
    (h : Repeats (ReloadReady w) (f (a + b))) : Repeats (ReloadReady w) (addU64 a b >>= f) := by
  unfold addU64
  split_ifs
  · exact h
  · intro _ _ _ _ _ hrun
    cases hrun

theorem phdrAddress_repeats (phoff : ℕ) (ph : ProgramHeader) (seg : ℕ) (old : Option ℕ) :
    Repeats (ReloadReady w) (phdrAddress phoff ph seg old) :=
  repeats_ite (fun _ => addU64_bind_repeats (repeats_pure _)) fun _ => repeats_pure _

theorem zeroedPage_repeats (hw : Steady w) (flags : PageTableFlags) :
    Repeats (ReloadReady w) (zeroedPage w textPage flags) := by
  intro s t _ u hst hrun
  have hmaps : Maps w [textPage] flags s.pt.entries u.pt.entries := by
    have hmeets := @zeroedPage_meets w textPage [] flags s.pt.entries List.not_mem_nil s Maps.nil
    rwa [hrun] at hmeets
  have htext : textPage ∈ [textPage] := List.mem_singleton_self _
  have hvacant := hmaps.vacant textPage htext
  have hframes := hst.frames hvacant.free
  rcases takeFrame_counts (.err "frame OOM") t with ⟨hzero, -⟩ | ⟨f, fa, -, htake, hcount⟩
  · omega
  have hvacant' : Vacant w (zeroFrame f { t with fa := fa }).pt.entries textPage := by
    refine ⟨?_, hvacant.clear⟩
    have hmapped := hst.mapped textPage
    rwa [hvacant.free, Option.isSome_none, Option.isSome_eq_false_iff, Option.isNone_iff_eq_none]
      at hmapped
  have hspare : spare (zeroFrame f { t with fa := fa }) + 1 = spare t := hcount
  obtain ⟨v, hmap, hentries⟩ := mapTo_returns hw hvacant'
    (show w.missing t.pt.tables _ ≤ _ by omega) f flags
  refine ⟨v, ?_, ?_, ?_⟩
  · rw [zeroedPage, bind_of_ok htake, bind_of_ok (modify_run _ _), mapErr, hmap]
  · intro q
    rw [hentries]
    by_cases hq : q = textPage
    · obtain ⟨f', hf'⟩ := hmaps.entry textPage htext
      rw [hq, Function.update_self, hf']
      rfl
    · rw [Function.update_of_ne hq, hmaps.others q fun hmem => hq (List.mem_singleton.mp hmem)]
      exact hst.mapped q
  · intro hnone
    obtain ⟨f', hf'⟩ := hmaps.entry textPage htext
    rw [hf'] at hnone
    cases hnone

theorem copySegment_repeats (seg pOffset pFilesz : ℕ) :
    Repeats (ReloadReady w) (copySegment image seg pOffset pFilesz) := by
  refine repeats_countLoop () fun j _ _ _ => addU64_bind_repeats (repeats_ite
    (fun _ => repeats_throw _) fun _ => addU64_bind_repeats (virtAddr_bind_repeats ?_))
  intro s t _ u hst hrun
  simp only [bind_run, get_run] at hrun ⊢
  cases hs : translateAddr s (signExtend (seg + j)) with
  | none => simp [hs] at hrun
  | some phys =>
      have hsome : (translateAddr t (signExtend (seg + j))).isSome = true := by
        rw [translateAddr, Option.isSome_map, hst.mapped, ← Option.isSome_map, ← translateAddr, hs]
        rfl
      obtain ⟨phys', ht⟩ := Option.isSome_iff_exists.mp hsome
      simp only [hs, modify_run, EStateM.Result.ok.injEq] at hrun
      obtain ⟨-, rfl⟩ := hrun
      rw [ht]
      exact ⟨_, rfl, hst.mapped, hst.frames⟩

/-- The segment lies in the text page. -/
def InText (ph : ProgramHeader) : Prop :=
  userTextBase ≤ ph.vaddr ∧ ph.vaddr + ph.memsz ≤ userTextBase + pageSize

theorem InText.lt {ph : ProgramHeader} (h : InText ph) : ph.vaddr + ph.memsz < 2 ^ 47 :=
  h.2.trans_lt (by decide)

theorem InText.bounds {ph : ProgramHeader} (h : InText ph) (hmem : ph.memsz ≠ 0) :
    pageOf ph.vaddr = textPage ∧ pageOf (ph.vaddr + ph.memsz - 1) = textPage := by
  have h₁ := h.1
  have h₂ := h.2
  simp only [textPage, pageOf, userTextBase, pageSize] at *
  omega

theorem InText.mem_pages {ph : ProgramHeader} (h : InText ph) (hmem : ph.memsz ≠ 0) {q : ℕ} :
    q ∈ pages ph ↔ q = textPage := by
  obtain ⟨hfirst, hlast⟩ := h.bounds hmem
  rw [mem_pages_of_lt h.lt, hfirst, hlast]
  exact ⟨fun hq => le_antisymm hq.2 hq.1, fun hq => ⟨hq.ge, hq.le⟩⟩

theorem loadSegment_repeats (hw : Steady w) {ph : ProgramHeader} (hmem : ph.memsz ≠ 0)
    (htext : InText ph) (phoff : ℕ) (acc : LoadAcc) :
    Repeats (ReloadReady w) (loadSegment w image 0 phoff ph acc) := by
  obtain ⟨hfirst, hlast⟩ := htext.bounds hmem
  have hlt := htext.lt
  simp only [loadSegment, Nat.add_zero, Nat.mod_eq_of_lt (show ph.vaddr < 2 ^ 64 by omega)]
  refine repeats_bind (phdrAddress_repeats _ _ _ _) fun _ => virtAddr_bind_repeats
    (addU64_bind_repeats (virtAddr_bind_repeats (virtAddr_bind_repeats ?_)))
  rw [signExtend_of_lt hlt, signExtend_of_lt (show ph.vaddr < 2 ^ 47 by omega),
    signExtend_of_lt (show ph.vaddr + ph.memsz - 1 < 2 ^ 47 by omega), hfirst, hlast]
  refine repeats_bind ?_ fun _ => repeats_bind (copySegment_repeats _ _ _) fun _ => repeats_pure _
  rw [mapSegment, forPages_self]
  exact zeroedPage_repeats hw _

theorem loadElfMapped_repeats (hw : Steady w) (htext : ∀ ph ∈ loadHeaders image, InText ph) :
    Repeats (ReloadReady w) (loadElfMapped w image 0) := by
  unfold loadElfMapped
  unfold loadHeaders at htext
  cases hh : fileHeader image with
  | error reason => exact repeats_throw _
  | ok h =>
      simp only [hh] at htext ⊢
      refine repeats_bind (repeats_countLoop _ fun i acc _ hi => ?_) fun acc => ?_
      · refine addU64_bind_repeats (addU64_bind_repeats (repeats_ite (fun _ => repeats_throw _)
          fun _ => repeats_ite (fun _ => repeats_pure _) fun htype => repeats_ite
          (fun _ => repeats_throw _) fun _ => repeats_ite (fun _ => repeats_pure _) fun hmem => ?_))
        have hseg : headerAt image h i ∈ segments image h h.phnum :=
          mem_segments.mpr ⟨⟨i, by omega, rfl⟩, not_not.mp htype, hmem⟩
        exact loadSegment_repeats hw hmem (htext _ hseg) _ _
      · cases acc.phdrVa with
        | none => exact repeats_throw _
        | some phdr => exact repeats_pure _

end

/-! ## The stack -/

theorem block_ne_nil (md : ElfLoadedMeta) (argv envp : List (List UInt8)) :
    block md argv envp ≠ [] := by
  intro hnil
  have hlen := length_block md argv envp
  rw [hnil, List.length_nil, blockSize, headerSize, AddressSpace.alignUp] at hlen
  omega

/-- The first byte of the block goes to the stack page, so that must be mapped. -/
theorem buildExecStack_mapped {md : ElfLoadedMeta} {argv envp : List (List UInt8)} {m m' : Mem}
    {rsp : ℕ} (h : buildExecStack md argv envp m = .ok rsp m') :
    (m.pt.entries (pageOf stackLo)).isSome := by
  unfold buildExecStack at h
  rw [execStackBlock_eq] at h
  split_ifs at h with hfits
  · obtain ⟨_, m₁, hwrite, -⟩ := bind_ok h
    cases hblock : block md argv envp with
    | nil => exact absurd hblock (block_ne_nil md argv envp)
    | cons b bs =>
        rw [hblock, writeUserBytes] at hwrite
        obtain ⟨_, m₂, hbyte, -⟩ := bind_ok hwrite
        obtain ⟨-, hbyte⟩ := virtAddr_bind_ok hbyte
        rw [signExtend_of_lt (by decide)] at hbyte
        simp only [bind_run, get_run, ← stackLo_eq] at hbyte
        cases he : m.pt.entries (pageOf stackLo) with
        | none => simp [translateAddr, he] at hbyte
        | some e => rfl
  · cases h

/-! ## The whole call -/

section
variable {w : Walker} {image : List UInt8} {argv envp : List (List UInt8)} {m m₁ m₂ : Mem}
  {entry : ℕ}

theorem loadElfExec_parts {m₃ : Mem} {r : ℕ × ℕ}
    (h : loadElfExec w image 0 argv envp m₂ = .ok r m₃) :
    ∃ md t₀ t₁, unmapOldImageBestEffort m₂ = .ok () t₀ ∧
      loadElfMapped w image 0 t₀ = .ok (r.1, md) t₁ ∧ (t₁.pt.entries (pageOf stackLo)).isSome := by
  rw [loadElfExec] at h
  obtain ⟨_, t₀, hun, h⟩ := bind_ok h
  obtain ⟨⟨entry, md⟩, t₁, hload, h⟩ := bind_ok h
  obtain ⟨_, t₂, hmeta, h⟩ := bind_ok h
  obtain ⟨-, rfl⟩ := EStateM.Result.ok.inj hmeta
  obtain ⟨rsp, t₃, hstack, h⟩ := bind_ok h
  obtain ⟨rfl, -⟩ := EStateM.Result.ok.inj h
  have hmapped := buildExecStack_mapped hstack
  exact ⟨md, t₀, t₁, hun, hload, hmapped⟩

/-- The stack page comes right behind the text page, so it survives only if the
image ends there. -/
theorem imageEnd_le_of_stack_kept
    (hkept : ((emptied m₂).pt.entries (pageOf stackLo)).isSome) :
    m₂.image.imageEnd ≤ userTextBase + pageSize := by
  by_contra hlong
  have hstack : pageOf stackLo ∈ oldPages m₂ :=
    mem_oldPages.mpr ⟨1, by omega, by decide⟩
  rw [emptied_entries, if_pos hstack] at hkept
  cases hkept

theorem mem_oldPages_of_onePage (h : m₂.image.imageEnd = userTextBase + pageSize) {q : ℕ} :
    q ∈ oldPages m₂ ↔ q = textPage := by
  rw [mem_oldPages, h]
  constructor
  · rintro ⟨i, hi, rfl⟩
    obtain rfl : i = 0 := by
      simp only [pageSize] at hi
      omega
    decide
  · rintro rfl
    exact ⟨0, by decide, by decide⟩

/-- Nothing below the text base is given back, and the stack page must survive. -/
theorem inText_of_reexec {m₃ : Mem} {r : ℕ × ℕ}
    (hstack : (m.pt.entries (pageOf stackLo)).isSome) (hload : loadElf w image 0 m = .ok entry m₁)
    (hpt : m₂.pt = m₁.pt) (himage : m₂.image = m₁.image)
    (hexec : loadElfExec w image 0 argv envp m₂ = .ok r m₃) :
    ∀ ph ∈ loadHeaders image, InText ph := by
  obtain ⟨md, t, hfirst, rfl⟩ := loadElf_parts hload
  obtain ⟨md', t₀, t₁, hun, hsecond, htop⟩ := loadElfExec_parts hexec
  obtain ⟨hplaced, hend, -⟩ := loadElfMapped_pages hfirst
  obtain ⟨hplaced', -⟩ := loadElfMapped_pages hsecond
  have hout : ∀ ph ∈ loadHeaders image, pageOf stackLo ∉ pages ph := by
    intro ph hph hq
    rw [(hplaced.vacant ph hph _ hq).free] at hstack
    cases hstack
  obtain rfl := unmapOldImage_ok hun
  have hshort : m₂.image.imageEnd ≤ userTextBase + pageSize := by
    rw [hplaced'.others _ hout] at htop
    exact imageEnd_le_of_stack_kept htop
  intro ph hph
  have hle : ph.vaddr + ph.memsz ≤ userTextBase + pageSize := by
    have hle : ph.vaddr + ph.memsz ≤ md.imageEnd := hend.2 ⟨ph, hph, rfl⟩
    have hmax : md.imageEnd ≤ m₂.image.imageEnd := by
      rw [himage]
      exact le_max_left _ _
    omega
  refine ⟨?_, hle⟩
  -- the first page of the segment was mapped, and it is vacant when it is mapped again
  by_contra hlow
  have hmem := (segment_of_mem hph).2
  have hq : pageOf ph.vaddr ∈ pages ph :=
    (mem_pages_of_lt (hle.trans_lt (by decide))).mpr ⟨le_rfl, Nat.div_le_div_right (by omega)⟩
  have hvacant := (hplaced'.vacant ph hph _ hq).free
  obtain ⟨f, hf⟩ := hplaced.entry ph hph _ hq
  have hbelow : pageOf ph.vaddr ∉ oldPages m₂ := by
    rw [mem_oldPages]
    rintro ⟨i, hi, hpage⟩
    rw [signExtend_of_lt (by simp only [userTextBase, pageSize] at *; omega)] at hpage
    simp only [pageOf, userTextBase, pageSize] at *
    omega
  rw [emptied_entries, if_neg hbelow, hpt] at hvacant
  have hsome : (applyUserMeta md t).pt.entries (pageOf ph.vaddr) =
    some ⟨f, segmentFlags ph.flags⟩ := hf
  rw [hsome] at hvacant
  cases hvacant

/-- Of a program in the text page nothing is left, and nothing else is lost. -/
theorem ready_of_inText {t₀ : Mem} (htext : ∀ ph ∈ loadHeaders image, InText ph)
    (hload : loadElf w image 0 m = .ok entry m₁) (hpt : m₂.pt = m₁.pt)
    (himage : m₂.image = m₁.image) (hframes : w.missing m₂.pt.tables textPage < spare m₂)
    (hun : unmapOldImageBestEffort m₂ = .ok () t₀) : ReloadReady w m t₀ := by
  obtain ⟨md, t, hfirst, rfl⟩ := loadElf_parts hload
  obtain ⟨hplaced, hend, -⟩ := loadElfMapped_pages hfirst
  obtain ⟨ph, hph, hphEnd⟩ := hend.1
  have hpage : ∀ ph ∈ loadHeaders image, ∀ q, q ∈ pages ph ↔ q = textPage := fun ph hph _ =>
    (htext ph hph).mem_pages (segment_of_mem hph).2
  have hone : m₂.image.imageEnd = userTextBase + pageSize := by
    rw [himage]
    exact max_eq_right (hphEnd ▸ (htext ph hph).2)
  obtain ⟨htables, hspare⟩ := unmapOldImage_releases.ok hun
  constructor
  · intro q
    rw [unmapOldImage_ok hun, emptied_entries]
    by_cases hq : q = textPage
    · rw [if_pos ((mem_oldPages_of_onePage hone).mpr hq), (hplaced.vacant ph hph q
        ((hpage ph hph q).mpr hq)).free]
    · rw [if_neg fun hin => hq ((mem_oldPages_of_onePage hone).mp hin), hpt]
      have hothers : (applyUserMeta md t).pt.entries q = m.pt.entries q :=
        hplaced.others q fun ph hph hin => hq ((hpage ph hph q).mp hin)
      rw [hothers]
  · intro _
    rw [htables]
    omega

end

/-- A program that was loaded can be loaded over itself if and only if all its
segments lie in the page at the text base. -/
theorem reexec_ok_iff (w : Walker) (image : List UInt8) (argv envp : List (List UInt8))
    (m m₁ m₂ : Mem) (entry : ℕ) (hw : Steady w)
    (hstack : (m.pt.entries (pageOf (userStackTop - pageSize))).isSome)
    (hload : loadElf w image 0 m = .ok entry m₁) (hpt : m₂.pt = m₁.pt)
    (himage : m₂.image = m₁.image)
    (hframes : w.missing m₂.pt.tables (pageOf userTextBase) < spare m₂)
    (hfits : blockSize argv envp ≤ pageSize) :
    (∃ rsp m₃, loadElfExec w image 0 argv envp m₂ = .ok (entry, rsp) m₃) ↔
      ∀ ph ∈ loadHeaders image, userTextBase ≤ ph.vaddr ∧
        ph.vaddr + ph.memsz ≤ userTextBase + pageSize := by
  constructor
  · rintro ⟨rsp, m₃, hexec⟩
    exact inText_of_reexec hstack hload hpt himage hexec
  · intro htext
    obtain ⟨md, t, hfirst, rfl⟩ := loadElf_parts hload
    obtain ⟨hplaced, hend, -⟩ := loadElfMapped_pages hfirst
    have himg : m₂.image.imageEnd ≤ 2 ^ 48 := by
      obtain ⟨ph, hph, hphEnd⟩ := hend.1
      rw [himage]
      exact max_le (hphEnd ▸ (htext ph hph).2.trans (by decide)) (by decide)
    have hun := unmapOldImage_returns himg
    have hready := ready_of_inText htext hload hpt himage hframes hun
    obtain ⟨t₁, hsecond, hready₁⟩ := loadElfMapped_repeats hw htext m _ _ t hready hfirst
    -- the stack page is still there
    have htop : ((applyUserMeta md t₁).pt.entries (pageOf stackLo)).isSome := by
      have hmapped : (t₁.pt.entries (pageOf stackLo)).isSome := by
        rw [hready₁.mapped, hplaced.isSome_iff]
        exact .inl hstack
      exact hmapped
    obtain ⟨e, he⟩ := Option.isSome_iff_exists.mp htop
    have hbuild := buildExecStack_run md argv envp he
    rw [if_pos hfits] at hbuild
    refine ⟨stackLo, storePhys (e.frame * pageSize) (block md argv envp) (applyUserMeta md t₁), ?_⟩
    rw [loadElfExec, bind_of_ok hun, bind_of_ok hsecond, bind_of_ok (modify_run _ _),
      bind_of_ok hbuild]
    rfl

theorem reexec_ok_spin : ∃ m₁ m₃,
    loadElf flatWalker spinElf 0 stackMapped = .ok 0x400078 m₁ ∧
      loadElfExec flatWalker spinElf 0 [] [] m₁ = .ok (0x400078, 0x401000) m₃ := by
  have hrun : (returned (loadElf flatWalker spinElf 0 stackMapped)).map
        (fun x => (x.1, (allocateFrame x.2.fa).isSome)) = some (0x400078, true) ∧
      (stackMapped.pt.entries (pageOf (userStackTop - pageSize))).isSome ∧
      ∀ ph ∈ loadHeaders spinElf, userTextBase ≤ ph.vaddr ∧
        ph.vaddr + ph.memsz ≤ userTextBase + pageSize := by decide +kernel
  obtain ⟨hok, hstack, htext⟩ := hrun
  obtain ⟨entry, m₁, hload, hx⟩ := ok_of_returned hok
  simp only [Prod.mk.injEq] at hx
  obtain ⟨rfl, hsome⟩ := hx
  obtain ⟨rsp, m₃, hexec⟩ := (reexec_ok_iff flatWalker spinElf [] [] stackMapped m₁ m₁ _
    (fun _ _ => rfl) hstack hload rfl rfl (missing_lt_spare hsome _) (by decide)).mpr htext
  obtain rfl : rsp = 0x401000 := (loadElfExec_ok hexec).2
  exact ⟨m₁, m₃, hload, hexec⟩

/-- A segment laid out like that of the embedded program: it starts in the page
below the text base. -/
def lowElf : List UInt8 :=
  patch (patch spinElf 80 (leBytes 8 0x3FF000)) 104 (leBytes 8 0x100B)

theorem reexec_refused : ∃ m₁ m₃,
    loadElf flatWalker lowElf 0 stackMapped = .ok 0x400078 m₁ ∧ (allocateFrame m₁.fa).isSome ∧
      loadElfExec flatWalker lowElf 0 [] [] m₁ = .error (.err "map_to") m₃ := by
  have hrun : (returned (loadElf flatWalker lowElf 0 stackMapped)).map
      (fun x => (x.1, (allocateFrame x.2.fa).isSome,
        (failed (loadElfExec flatWalker lowElf 0 [] [] x.2)).map (·.1))) =
      some (0x400078, true, some (.err "map_to")) := by decide +kernel
  obtain ⟨entry, m₁, hload, hx⟩ := ok_of_returned hrun
  simp only [Prod.mk.injEq] at hx
  obtain ⟨rfl, hsome, hexec⟩ := hx
  obtain ⟨e, m₃, hexec, rfl⟩ := error_of_failed hexec
  exact ⟨m₁, m₃, hload, hsome, hexec⟩

/-! ## The context a program starts in -/

/-- The program can be entered, and the word it pushes first goes to its stack
page. -/
structure Runnable (m : Mem) (entry rsp : ℕ) : Prop where
  text : ∃ e, m.pt.entries (pageOf entry) = some e ∧ e.flags.userAccessible = true ∧
    e.flags.noExecute = false
  stack : (m.pt.entries (pageOf (userStackTop - pageSize))).isSome
  push : ∀ va, rsp - 8 ≤ va → va < rsp → userStackTop - pageSize ≤ va ∧ va < userStackTop

/-- The argument block lies at the low end of the stack page, so what is pushed
first goes to the page of the text. -/
theorem push_hits_text {w : Walker} {image : List UInt8} {bias : ℕ} {argv envp : List (List UInt8)}
    {m m' : Mem} {entry rsp va : ℕ}
    (h : loadElfExec w image bias argv envp m = .ok (entry, rsp) m') (hlo : rsp - 8 ≤ va)
    (hhi : va < rsp) : pageOf va = pageOf userTextBase := by
  obtain ⟨-, rfl⟩ := loadElfExec_ok h
  have hstack : userStackTop - pageSize = 0x401000 := rfl
  rw [hstack] at hlo hhi
  show va / 4096 = 0x400000 / 4096
  omega

/-- No program that is loaded starts in a context it can run in. -/
theorem exec_context_never_runnable (w : Walker) (image : List UInt8)
    (argv envp : List (List UInt8)) (m m' : Mem) (entry rsp : ℕ)
    (h : loadElfExec w image 0 argv envp m = .ok (entry, rsp) m') : ¬ Runnable m' entry rsp := by
  intro hrunnable
  have hrsp := (loadElfExec_ok h).2
  have hpos : 0 < userStackTop - pageSize := by decide
  have hpage : pageOf (rsp - 1) = pageOf userTextBase :=
    push_hits_text h (by omega) (by omega)
  have hstack := (hrunnable.push (rsp - 1) (by omega) (by omega)).1
  have hle : pageOf (userStackTop - pageSize) ≤ pageOf (rsp - 1) := Nat.div_le_div_right hstack
  rw [hpage] at hle
  exact absurd hle (by decide)

/-- The first program, loaded from `/init`. -/
theorem exec_context_spin : ∃ m', loadElfExec flatWalker spinElf 0 [] [] started.mem =
    .ok (0x400078, 0x401000) m' ∧ ¬ Runnable m' 0x400078 0x401000 := by
  have hrun : (returned (loadElfExec flatWalker spinElf 0 [] [] started.mem)).map (·.1) =
      some (0x400078, 0x401000) := by decide +kernel
  obtain ⟨r, m', hexec, hr⟩ := ok_of_returned hrun
  have hr : r = (0x400078, 0x401000) := hr
  subst hr
  exact ⟨m', hexec, exec_context_never_runnable _ _ _ _ _ _ _ _ hexec⟩

/-- The eight bytes below the stack pointer are the end of the read-only page
of the text, so the first push faults. -/
theorem exec_context_push_faults : ∃ m' e, loadElfExec flatWalker spinElf 0 [] [] started.mem =
    .ok (0x400078, 0x401000) m' ∧ m'.pt.entries (pageOf (0x401000 - 8)) = some e ∧
      e.flags.writable = false ∧ ¬ Runnable m' 0x400078 0x401000 := by
  have hrun : (returned (loadElfExec flatWalker spinElf 0 [] [] started.mem)).map
      (fun x => (x.1, (x.2.pt.entries (pageOf (0x401000 - 8))).map (·.flags.writable))) =
      some ((0x400078, 0x401000), some false) := by decide +kernel
  obtain ⟨r, m', hexec, hx⟩ := ok_of_returned hrun
  obtain ⟨hr, hflags⟩ := Prod.mk.inj hx
  obtain ⟨e, he, hwritable⟩ := Option.map_eq_some_iff.mp hflags
  refine ⟨m', e, hexec.trans (by rw [← hr]), he, hwritable, ?_⟩
  intro hrunnable
  exact absurd (hrunnable.push (0x401000 - 8) le_rfl (by decide)).1 (by decide)

end Rockos.Reexec
