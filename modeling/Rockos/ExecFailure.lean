import Rockos.HeaderTable
import Rockos.MemoryFootprints
import Rockos.Reexec
import Rockos.SystemMemory

/-!
# When a failing execve leaves the caller's memory alone

`sys_execve` first reads its arguments and changes nothing while it does. Then
`load_elf_exec` unmaps the old image, before it has looked at the new one, and
nothing puts it back. Whether the new program is refused, and which pages it has
mapped by then, can be told from the file and from the memory without the old image.
A failing call is harmless if there was no old page and the program is refused before
it has mapped one; and it is harmless only if the refused program has mapped the
pages again that were unmapped.
-/
namespace Rockos.ExecFailure
open FallibleState PhysMemory Paging ElfLoader KernelState AddressSpace ProcessCalls Syscall
open PageEdits FrameAccounts FrameSafety LoadedImage LoadedPages SegmentOutcome LoaderOutcome
open LoaderWrites OldImage ExecStack
open HeaderTable (holdsTable lastSegment Overlaid)
open MemoryFootprints (MayMap MayStore loadElfMapped_within)

/-- Every page is mapped as before and holds the same bytes. -/
structure SamePages (m m' : Mem) : Prop where
  entries : m'.pt.entries = m.pt.entries
  contents : ∀ page e, m.pt.entries page = some e → ∀ off < pageSize,
    m'.ram (e.frame * pageSize + off) = m.ram (e.frame * pageSize + off)

/-- The pages are the same, and so are the bounds of the image. -/
structure SameSpace (m m' : Mem) : Prop extends SamePages m m' where
  image : m'.image = m.image

theorem SamePages.refl (m : Mem) : SamePages m m := ⟨rfl, fun _ _ _ _ _ => rfl⟩

theorem SamePages.trans {m t u : Mem} (h : SamePages m t) (h' : SamePages t u) :
    SamePages m u := by
  refine ⟨h'.entries.trans h.entries, fun page e he off hoff => ?_⟩
  rw [h'.contents page e (by rw [h.entries, he]) off hoff, h.contents page e he off hoff]

/-- A call that returns one of its errors has changed nothing. -/
def FailureAtomic (w : Walker) (image : List UInt8) (pathU argvU envpU : ℕ) (k : Kernel) : Prop :=
  ∀ v k', sysExecve w image pathU argvU envpU k = .ok v k' →
    v ∈ [errno 2, errno 8, errno 14, errno 22] → SameSpace k.mem k'.mem

/-! ## The arguments -/

/-- The path is readable and is `/init`, and the vectors read as `argv` and `envp`. -/
structure ArgsAccepted (k : Kernel) (pathU argvU envpU : ℕ) (argv envp : List (List UInt8)) :
    Prop where
  readable : userRegionIsReadableRange k pathU initPath.length = true
  path : loadBytes k.mem pathU initPath.length = .ok initPath
  argv : parseUserPtrvec k argvU 32 256 = .ok (.ok argv)
  envp : parseUserPtrvec k envpU 16 256 = .ok (.ok envp)

theorem execArgs_ok_iff {k : Kernel} {pathU argvU envpU : ℕ} {argv envp : List (List UInt8)} :
    execArgs pathU argvU envpU k = .ok (.ok ⟨argv, envp⟩) ↔
      ArgsAccepted k pathU argvU envpU argv envp := by
  constructor
  · intro h
    unfold execArgs at h
    cases hread : userRegionIsReadableRange k pathU initPath.length with
    | false => simp [hread] at h
    | true =>
        rw [hread, if_neg (by simp)] at h
        obtain ⟨path, hpath, h⟩ := except_bind_ok h
        by_cases hne : path = initPath
        · rw [if_neg (not_not_intro hne)] at h
          obtain ⟨ra, ha, h⟩ := except_bind_ok h
          cases ra with
          | error e => simp at h
          | ok argv' =>
              obtain ⟨re, he, h⟩ := except_bind_ok h
              cases re with
              | error e => simp at h
              | ok envp' =>
                  obtain ⟨rfl, rfl⟩ := ExecArgs.mk.inj (Except.ok.inj (Except.ok.inj h))
                  exact ⟨hread, by rw [hpath, hne], ha, he⟩
        · simp [hne] at h
  · intro h
    simp [execArgs, h.readable, h.path, h.argv, h.envp, bind, Except.bind]

/-! ## Programs that are refused -/

/-- `load_elf_exec` returns an error for the program over the memory `m`, and the
headers have made it map the pages of the list by then. -/
inductive LoadRefused (w : Walker) (image : List UInt8) (argv envp : List (List UInt8)) (m : Mem) :
    List ℕ → Prop
  | file {reason : String} (hfile : fileHeader image = .error reason) :
      LoadRefused w image argv envp m []
  | header {h : FileHeader} {i : ℕ} {done : List ℕ} (hfile : fileHeader image = .ok h)
      (hi : i < h.phnum) (hpass : ∀ j < i, HeaderPasses image h j (viewAt w image h m j))
      (hfail : HeaderFails image h i (viewAt w image h m i) done) :
      LoadRefused w image argv envp m (pagesBefore image h i ++ done)
  /-- No segment holds the header table. -/
  | table {h : FileHeader} (hfile : fileHeader image = .ok h)
      (hpass : ∀ j < h.phnum, HeaderPasses image h j (viewAt w image h m j))
      (hnone : ∀ ph ∈ loadHeaders image, ¬ holdsTable h.phoff ph = true) :
      LoadRefused w image argv envp m (pagesBefore image h h.phnum)
  /-- The strings do not fit the stack page, or it is not mapped. -/
  | stack {h : FileHeader} {ph : ProgramHeader} (hfile : fileHeader image = .ok h)
      (hpass : ∀ j < h.phnum, HeaderPasses image h j (viewAt w image h m j))
      (hph : ph ∈ loadHeaders image) (hholds : holdsTable h.phoff ph = true)
      (hstack : blockSize argv envp ≤ pageSize →
        ¬ (viewAt w image h m h.phnum).mapped (pageOf stackLo)) :
      LoadRefused w image argv envp m (pagesBefore image h h.phnum)

/-- The pages of the list are mapped besides those that were. -/
def MappedBesides (m : Mem) (ps : List ℕ) (t : Mem) : Prop :=
  ∀ q, (t.pt.entries q).isSome ↔ (m.pt.entries q).isSome ∨ q ∈ ps

section
variable {w : Walker} {image : List UInt8} {argv envp : List (List UInt8)} {m t : Mem}
  {h : FileHeader} {acc : LoadAcc}

/-- Behind the loop over the headers it only matters whether the table was found. -/
theorem loadElfMapped_of_loop (hfile : fileHeader image = .ok h)
    (hloop : countLoop (loadPhdr w image 0 h) 0 h.phnum ⟨0, none, none⟩ m = .ok acc t) :
    (acc.phdrVa = none ∧ ∃ reason, loadElfMapped w image 0 m = .error (.err reason) t) ∨
      ∃ phdr r, acc.phdrVa = some phdr ∧ loadElfMapped w image 0 m = .ok r t := by
  simp only [loadElfMapped, hfile, bind_of_ok hloop]
  cases acc.phdrVa with
  | none => exact .inl ⟨rfl, _, rfl⟩
  | some phdr => exact .inr ⟨phdr, _, rfl, rfl⟩

/-- The table is found exactly if a segment holds its start. -/
theorem phdrVa_eq_none_iff (hsafe : FrameSafe m) (hfile : fileHeader image = .ok h)
    (hloop : countLoop (loadPhdr w image 0 h) 0 h.phnum ⟨0, none, none⟩ m = .ok acc t) :
    acc.phdrVa = none ↔ ∀ ph ∈ loadHeaders image, ¬ holdsTable h.phoff ph = true := by
  rw [(Overlaid.loop hsafe hloop).table, Option.map_eq_none_iff, lastSegment,
    List.find?_eq_none, loadHeaders_of_ok hfile]
  exact forall_congr' fun ph => by rw [List.mem_reverse]

/-- The stack cannot be built: nothing has been written then. -/
theorem buildExecStack_refused (md : ElfLoadedMeta)
    (hstack : blockSize argv envp ≤ pageSize → ¬ (m.pt.entries (pageOf stackLo)).isSome) :
    ∃ reason, buildExecStack md argv envp m = .error (.err reason) m := by
  unfold buildExecStack
  rw [execStackBlock_eq]
  by_cases hfits : blockSize argv envp ≤ pageSize
  · have hnone := Option.not_isSome_iff_eq_none.mp (hstack hfits)
    rw [if_pos hfits]
    cases hblock : block md argv envp with
    | nil => exact absurd hblock (Reexec.block_ne_nil md argv envp)
    | cons b bs =>
        have hwrite : writeUserBytes (userStackTop - pageSize) (b :: bs) m =
            .error (.err "no map") m := by
          have haddr : virtAddr (userStackTop - pageSize) = pure stackLo :=
            virtAddr_of_lt (by decide)
          simp [writeUserBytes, writeUserByte, haddr, bind_run, translateAddr, hnone]
        exact ⟨_, bind_of_error hwrite _⟩
  · rw [if_neg hfits]
    exact ⟨_, rfl⟩

/-! ## The load of the program -/

section
variable (hend : m.image.imageEnd ≤ 2 ^ 48)
include hend

theorem loadElfExec_of_load_error {e : Stop}
    (hload : loadElfMapped w image 0 (emptied m) = .error e t) :
    loadElfExec w image 0 argv envp m = .error e t := by
  rw [loadElfExec]
  exact (bind_of_ok (unmapOldImage_returns hend) _).trans (bind_of_error hload _)

theorem loadElfExec_of_stack_error {r : ℕ × ElfLoadedMeta} {e : Stop} {u : Mem}
    (hload : loadElfMapped w image 0 (emptied m) = .ok r t)
    (hstack : buildExecStack r.2 argv envp (applyUserMeta r.2 t) = .error e u) :
    loadElfExec w image 0 argv envp m = .error e u := by
  rw [loadElfExec]
  refine (bind_of_ok (unmapOldImage_returns hend) _).trans ((bind_of_ok hload _).trans ?_)
  exact (bind_of_ok (modify_run _ _) _).trans (bind_of_error hstack _)

/-- The two places an error comes from. -/
theorem loadElfExec_error {e : Stop} (hrun : loadElfExec w image 0 argv envp m = .error e t) :
    loadElfMapped w image 0 (emptied m) = .error e t ∨
      ∃ r u, loadElfMapped w image 0 (emptied m) = .ok r u ∧
        buildExecStack r.2 argv envp (applyUserMeta r.2 u) = .error e t := by
  cases hload : loadElfMapped w image 0 (emptied m) with
  | error e' t' =>
      rw [loadElfExec_of_load_error hend hload] at hrun
      obtain ⟨rfl, rfl⟩ := EStateM.Result.error.inj hrun
      exact .inl rfl
  | ok r u =>
      cases hstack : buildExecStack r.2 argv envp (applyUserMeta r.2 u) with
      | error e' t' =>
          rw [loadElfExec_of_stack_error hend hload hstack] at hrun
          obtain ⟨rfl, rfl⟩ := EStateM.Result.error.inj hrun
          exact .inr ⟨r, u, rfl, hstack⟩
      | ok rsp v =>
          have hok : loadElfExec w image 0 argv envp m = .ok (r.1, rsp) v := by
            rw [loadElfExec]
            refine (bind_of_ok (unmapOldImage_returns hend) _).trans ((bind_of_ok hload _).trans ?_)
            exact (bind_of_ok (modify_run _ _) _).trans (bind_of_ok hstack _)
          rw [hok] at hrun
          cases hrun

end

theorem emptied_safe (hsafe : FrameSafe m) (hend : m.image.imageEnd ≤ 2 ^ 48) :
    FrameSafe (emptied m) :=
  unmapOldImage_safe.ok (unmapOldImage_returns hend) hsafe

/-- A program that is refused has mapped the pages that its headers tell. -/
theorem loadElfExec_refused (hw : Steady w) (hsafe : FrameSafe m)
    (hend : m.image.imageEnd ≤ 2 ^ 48) {ps : List ℕ}
    (href : LoadRefused w image argv envp (emptied m) ps) :
    ∃ reason t, loadElfExec w image 0 argv envp m = .error (.err reason) t ∧
      MappedBesides (emptied m) ps t := by
  have hsafe' := emptied_safe hsafe hend
  cases href with
  | @file reason hfile =>
      have hload : loadElfMapped w image 0 (emptied m) = .error (.err reason) (emptied m) := by
        simp only [loadElfMapped, hfile]
        rfl
      exact ⟨reason, _, loadElfExec_of_load_error hend hload, fun q => by simp⟩
  | header hfile hi hpass hfail =>
      obtain ⟨reason, t, hloop, hfailed⟩ := headers_fail hw hi hpass hfail
      have hload : loadElfMapped w image 0 (emptied m) = .error (.err reason) t := by
        simp only [loadElfMapped, hfile]
        exact bind_of_error hloop _
      exact ⟨reason, t, loadElfExec_of_load_error hend hload, hfailed.isSome_iff⟩
  | table hfile hpass hnone =>
      obtain ⟨acc, t, hloop, hat⟩ := headers_return hw hpass
      rcases loadElfMapped_of_loop hfile hloop with ⟨-, reason, hload⟩ | ⟨phdr, r, hphdr, -⟩
      · exact ⟨reason, t, loadElfExec_of_load_error hend hload, hat.isSome_iff⟩
      · rw [(phdrVa_eq_none_iff hsafe' hfile hloop).mpr hnone] at hphdr
        cases hphdr
  | stack hfile hpass hph hholds hstack =>
      obtain ⟨acc, t, hloop, hat⟩ := headers_return hw hpass
      rcases loadElfMapped_of_loop hfile hloop with ⟨hphdr, -⟩ | ⟨phdr, r, -, hload⟩
      · exact absurd hholds ((phdrVa_eq_none_iff hsafe' hfile hloop).mp hphdr _ hph)
      · have hunmapped : blockSize argv envp ≤ pageSize →
            ¬ ((applyUserMeta r.2 t).pt.entries (pageOf stackLo)).isSome := by
          rw [← hat.view] at hstack
          exact hstack
        obtain ⟨reason, hrun⟩ := buildExecStack_refused r.2 hunmapped
        exact ⟨reason, _, loadElfExec_of_stack_error hend hload hrun, hat.isSome_iff⟩

/-- An error of the loader is one that the headers tell. -/
theorem refused_of_load_error (hw : Steady w) (hsafe : FrameSafe m) {reason : String}
    (hload : loadElfMapped w image 0 m = .error (.err reason) t)
    (argv envp : List (List UInt8)) : ∃ ps, LoadRefused w image argv envp m ps := by
  cases hfile : fileHeader image with
  | error reason => exact ⟨[], .file hfile⟩
  | ok h =>
      have houtcome := headers_outcome hw image h h.phnum m m rfl
      cases hloop : countLoop (loadPhdr w image 0 h) 0 h.phnum ⟨0, none, none⟩ m with
      | ok acc u =>
          rw [hloop] at houtcome
          rcases loadElfMapped_of_loop hfile hloop with ⟨hnone, -⟩ | ⟨phdr, r, -, hok⟩
          · have hphdr := (phdrVa_eq_none_iff hsafe hfile hloop).mp hnone
            exact ⟨_, .table hfile houtcome.passed hphdr⟩
          · rw [hok] at hload
            cases hload
      | error e u =>
          rw [hloop] at houtcome
          obtain ⟨i, hi, hbefore, ⟨rfl, -⟩ | ⟨-, done, hfailed⟩⟩ := houtcome
          · have hpanic : loadElfMapped w image 0 m = .error .panic u := by
              simp only [loadElfMapped, hfile]
              exact bind_of_error hloop _
            rw [hpanic] at hload
            cases hload
          · exact ⟨_, .header hfile hi hbefore hfailed.fails⟩

/-- If the stack cannot be built, all segments have been loaded, and there is one. -/
theorem refused_of_stack_error (hw : Steady w) (hsafe : FrameSafe m) {r : ℕ × ElfLoadedMeta}
    {e : Stop} {u : Mem} (hload : loadElfMapped w image 0 m = .ok r u)
    (hstack : buildExecStack r.2 argv envp (applyUserMeta r.2 u) = .error e t) :
    ∃ h ph, fileHeader image = .ok h ∧ ph ∈ loadHeaders image ∧ InBounds ph ∧
      LoadRefused w image argv envp m (pagesBefore image h h.phnum) := by
  obtain ⟨h, acc, phdr, hfile, hloop, hphdr, -⟩ := loadElfMapped_parts hload
  have hat := headers_outcome hw image h h.phnum m m rfl
  rw [hloop] at hat
  have hfound : ¬ ∀ ph ∈ loadHeaders image, ¬ holdsTable h.phoff ph = true := by
    rw [← phdrVa_eq_none_iff hsafe hfile hloop, hphdr]
    exact Option.some_ne_none phdr
  push Not at hfound
  obtain ⟨ph, hph, hholds⟩ := hfound
  refine ⟨h, ph, hfile, hph, ?_, .stack hfile hat.passed hph hholds ?_⟩
  · rw [loadHeaders_of_ok hfile] at hph
    obtain ⟨⟨i, hi, rfl⟩, hseg⟩ := mem_segments.mp hph
    exact not_not.mp fun hnot => ((hat.passed i hi).2.2 hseg).1 (.inr hnot)
  · intro hfits hmapped
    rw [← hat.view] at hmapped
    obtain ⟨entry, he⟩ := Option.isSome_iff_exists.mp
      (show ((applyUserMeta r.2 u).pt.entries (pageOf stackLo)).isSome from hmapped)
    rw [buildExecStack_run r.2 argv envp he, if_pos hfits] at hstack
    cases hstack

/-! ## A load that has mapped nothing -/

/-- The mapped pages stay, and unless there is a new one they hold what they held. -/
structure GrownOrSame (m t : Mem) : Prop where
  safe : FrameSafe t
  old : ∀ q, (m.pt.entries q).isSome → t.pt.entries q = m.pt.entries q
  same : (∀ q, (t.pt.entries q).isSome → (m.pt.entries q).isSome) → SamePages m t

/-- The same from every memory in which no frame is used twice. -/
def KeepsOrGrows (m t : Mem) : Prop := FrameSafe m → GrownOrSame m t

instance : IsPreorder Mem KeepsOrGrows where
  refl m hsafe := ⟨hsafe, fun _ _ => rfl, fun _ => SamePages.refl m⟩
  trans m t u h h' hsafe := by
    have hfirst := h hsafe
    have hsecond := h' hfirst.safe
    have hkept : ∀ q, (m.pt.entries q).isSome → (t.pt.entries q).isSome := by
      intro q hq
      rwa [hfirst.old q hq]
    have hstay : ∀ q, (t.pt.entries q).isSome → (u.pt.entries q).isSome := by
      intro q hq
      rwa [hsecond.old q hq]
    constructor
    · exact hsecond.safe
    · intro q hq
      rw [hsecond.old q (hkept q hq), hfirst.old q hq]
    · intro hnew
      exact (hfirst.same fun q hq => hnew q (hstay q hq)).trans
        (hsecond.same fun q hq => hkept q (hnew q hq))

theorem samePages_of_inPart (hpart : LaidInPart m t) (hsafe : FrameSafe m)
    (hnew : ∀ q, (t.pt.entries q).isSome → (m.pt.entries q).isSome) : SamePages m t := by
  obtain ⟨⟨d, hfresh⟩, hold⟩ := hpart
  constructor
  · funext q
    by_cases hq : (m.pt.entries q).isSome
    · exact hold q hq
    · have hq' : ¬ (t.pt.entries q).isSome := fun h => hq (hnew q h)
      rw [Option.not_isSome_iff_eq_none.mp hq, Option.not_isSome_iff_eq_none.mp hq']
  · intro page e he off hoff
    have hframe := frame_of_addr e.frame off
    rw [Nat.mod_eq_of_lt hoff] at hframe
    apply hfresh.ram
    rw [hframe]
    exact hfresh.frame_notMem hsafe he

/-- A segment in one piece has a page. -/
theorem exists_mem_pages {ph : ProgramHeader} (hseg : ph.memsz ≠ 0) (hunbroken : Unbroken ph)
    (hbounds : InBounds ph) : ∃ q, q ∈ pages ph :=
  ⟨_, hunbroken.mem_pages hbounds (Nat.pos_of_ne_zero hseg)⟩

/-- Bytes are copied only after a page has been mapped for them. -/
theorem grownOrSame_of_end {i : ℕ} (hsafe : FrameSafe m) (hsafe' : FrameSafe t)
    (hend : HeaderEnd w image h i m t)
    (hunbroken : Segment (headerAt image h i) → Unbroken (headerAt image h i)) :
    GrownOrSame m t := by
  cases hend with
  | none hsame _ =>
      rw [hsame]
      exact ⟨hsafe, fun _ _ => rfl, fun _ => SamePages.refl m⟩
  | segment hheader hend =>
      cases hend with
      | part hpart _ => exact ⟨hsafe', hpart.2, samePages_of_inPart hpart hsafe⟩
      | full hbounds _ laid hlaid hcopied =>
          obtain ⟨n, -, hcopied, -⟩ := hcopied
          have hin : InBounds (headerAt image h i) := not_not.mp fun hnot => hbounds (.inr hnot)
          have hentries : t.pt.entries = laid.pt.entries := by rw [hcopied.pt]
          obtain ⟨q, hq⟩ := exists_mem_pages hheader.2.2.2 (hunbroken hheader.2.2) hin
          refine ⟨hsafe', fun q hq => ?_, fun hnew => ?_⟩
          · rw [hentries]
            exact Maps.old hlaid.maps hq
          · obtain ⟨f, hf⟩ := hlaid.maps.entry q hq
            have hmapped := hnew q (by rw [hentries, hf]; rfl)
            rw [(hlaid.maps.vacant q hq).free] at hmapped
            cases hmapped

theorem loadElfMapped_grows (hw : Steady w) (hunbroken : ∀ ph ∈ loadHeaders image, Unbroken ph) :
    Within KeepsOrGrows (loadElfMapped w image 0) := by
  unfold loadElfMapped
  cases hfile : fileHeader image with
  | error reason => exact within_throw _
  | ok h =>
      rw [loadHeaders_of_ok hfile] at hunbroken
      refine within_bind (within_countLoop_range _ _ _ fun i acc _ hi m hsafe => ?_) fun acc => ?_
      · refine grownOrSame_of_end hsafe (loadPhdr_safe w image 0 h i acc m hsafe)
          (loadPhdr_end hw image h i acc hsafe) fun hseg => ?_
        exact hunbroken _ (mem_segments.mpr ⟨⟨i, by omega, rfl⟩, hseg⟩)
      · cases acc.phdrVa with
        | none => exact within_throw _
        | some phdr => exact within_pure _

theorem loadElfMapped_sameImage (w : Walker) (image : List UInt8) :
    Within SameImage (loadElfMapped w image 0) := by
  have hmap : MayMap SameImage Set.univ := by
    refine ⟨fun w page flags _ => mapNewPage_image w page flags, fun w page flags _ => ?_⟩
    refine within_bind (takeFrame_image _) fun f => within_bind (within_modify _ fun _ => rfl) ?_
    exact fun _ => within_mapErr (mapTo_image w page f flags)
  have hstore : MayStore SameImage Set.univ := fun _ _ _ => rfl
  exact loadElfMapped_within hmap hstore w
    fun _ _ => ⟨fun _ _ => trivial, fun _ _ => trivial⟩

end

/-! ## The call -/

section
variable (w : Walker) (image : List UInt8) (pathU argvU envpU : ℕ) (k : Kernel)

/-- A program that is refused is so before it has mapped a page. -/
def RefusedEarly : Prop :=
  ∀ argv envp, ArgsAccepted k pathU argvU envpU argv envp → k.mem.image.imageEnd ≤ 2 ^ 48 →
    ∀ ps, LoadRefused w image argv envp (emptied k.mem) ps →
      ps = [] ∧ ∀ ph ∈ loadHeaders image, Unbroken ph

/-- A program that is refused is so before it has mapped a page, and there was no page
of an old image. -/
def Harmless : Prop :=
  ∀ argv envp, ArgsAccepted k pathU argvU envpU argv envp → k.mem.image.imageEnd ≤ 2 ^ 48 →
    ∀ ps, LoadRefused w image argv envp (emptied k.mem) ps →
      ps = [] ∧ (∀ q ∈ oldPages k.mem, k.mem.pt.entries q = none) ∧
        ∀ ph ∈ loadHeaders image, Unbroken ph

/-- A program that is refused has mapped no page that was not mapped before, and all
those again that were unmapped. -/
def Restores : Prop :=
  ∀ argv envp, ArgsAccepted k pathU argvU envpU argv envp → k.mem.image.imageEnd ≤ 2 ^ 48 →
    ∀ ps, LoadRefused w image argv envp (emptied k.mem) ps →
      (∀ q ∈ ps, (k.mem.pt.entries q).isSome) ∧
        ∀ q ∈ oldPages k.mem, (k.mem.pt.entries q).isSome → q ∈ ps

end

section
variable {w : Walker} {image : List UInt8} {pathU argvU envpU : ℕ} {k : Kernel}
  {argv envp : List (List UInt8)}

/-- A program that is refused gives `-8`. -/
theorem sysExecve_refused (hargs : ArgsAccepted k pathU argvU envpU argv envp) {reason : String}
    {m : Mem} (hload : loadElfExec w image 0 argv envp k.mem = .error (.err reason) m) :
    sysExecve w image pathU argvU envpU k = .ok (errno 8) (setMem m k) := by
  have hinspect : inspect (execArgs pathU argvU envpU) k = .ok (.ok ⟨argv, envp⟩) k := by
    rw [inspect, execArgs_ok_iff.mpr hargs]
  rw [sysExecve, bind_of_ok hinspect]
  exact bind_of_ok (onMem_attempt_of_error hload) _

/-- A call that returns an error was refused for its arguments, or its program was. -/
theorem sysExecve_error {v : UInt64} {k' : Kernel}
    (hrun : sysExecve w image pathU argvU envpU k = .ok v k')
    (hv : v ∈ [errno 2, errno 8, errno 14, errno 22]) :
    k' = k ∨ ∃ argv envp reason m, ArgsAccepted k pathU argvU envpU argv envp ∧
      loadElfExec w image 0 argv envp k.mem = .error (.err reason) m ∧ k' = setMem m k := by
  rw [sysExecve] at hrun
  obtain ⟨r, k₁, hargs, hrun⟩ := bind_ok hrun
  obtain ⟨he, rfl⟩ := inspect_ok hargs
  cases r with
  | error e =>
      obtain ⟨-, rfl⟩ := EStateM.Result.ok.inj hrun
      exact .inl rfl
  | ok args =>
      obtain ⟨argv, envp⟩ := args
      right
      rcases onMem_attempt_cases (loadElfExec w image 0 argv envp) k₁ with
        ⟨r, m, -, hcaught⟩ | ⟨reason, m, hload, hcaught⟩ | ⟨e, m, -, hcaught⟩
      · obtain ⟨x, k₂, hx, hrun⟩ := bind_ok hrun
        rw [hcaught] at hx
        obtain ⟨rfl, rfl⟩ := EStateM.Result.ok.inj hx
        obtain ⟨rfl, -⟩ := EStateM.Result.ok.inj hrun
        exact absurd hv (by decide)
      · obtain ⟨x, k₂, hx, hrun⟩ := bind_ok hrun
        rw [hcaught] at hx
        obtain ⟨rfl, rfl⟩ := EStateM.Result.ok.inj hx
        obtain ⟨-, rfl⟩ := EStateM.Result.ok.inj hrun
        exact ⟨argv, envp, reason, m, execArgs_ok_iff.mp he, hload, rfl⟩
      · obtain ⟨x, k₂, hx, -⟩ := bind_ok hrun
        rw [hcaught] at hx
        cases hx

/-- An image that ends behind `2 ^ 48` makes the call panic. -/
theorem imageEnd_le_of_error {reason : String} {m t : Mem}
    (hload : loadElfExec w image 0 argv envp m = .error (.err reason) t) :
    m.image.imageEnd ≤ 2 ^ 48 := by
  by_contra hlong
  obtain ⟨m', hun⟩ := unmapOldImage_panics (not_le.mp hlong)
  have hpanic : loadElfExec w image 0 argv envp m = .error .panic m' := by
    rw [loadElfExec]
    exact bind_of_error hun _
  rw [hpanic] at hload
  cases hload

theorem Harmless.atomic (hw : Steady w) (hsafe : FrameSafe k.mem)
    (hharm : Harmless w image pathU argvU envpU k) :
    FailureAtomic w image pathU argvU envpU k := by
  intro v k' hrun hv
  rcases sysExecve_error hrun hv with rfl | ⟨argv, envp, reason, t, hargs, hload, rfl⟩
  · exact ⟨SamePages.refl _, rfl⟩
  have hend := imageEnd_le_of_error hload
  have hsafe' := emptied_safe hsafe hend
  change SameSpace k.mem t
  rcases loadElfExec_error hend hload with hmapped | ⟨r, u, hmapped, hstack⟩
  · obtain ⟨ps, href⟩ := refused_of_load_error hw hsafe' hmapped argv envp
    obtain ⟨rfl, hold, hunbroken⟩ := hharm argv envp hargs hend ps href
    obtain ⟨reason', t', hload', hbesides⟩ := loadElfExec_refused hw hsafe hend href
    rw [hload] at hload'
    obtain ⟨-, rfl⟩ := EStateM.Result.error.inj hload'
    have hempty : emptied k.mem = k.mem := by
      rw [emptied]
      exact withoutPages_of_unmapped hold
    rw [hempty] at hmapped hbesides
    have hgrown := (loadElfMapped_grows hw hunbroken).error hmapped hsafe
    have hnew : ∀ q, (t.pt.entries q).isSome → (k.mem.pt.entries q).isSome := by
      intro q hq
      exact ((hbesides q).mp hq).resolve_right List.not_mem_nil
    exact ⟨hgrown.same hnew, (loadElfMapped_sameImage w image).error hmapped⟩
  · -- all segments were loaded, so there is a new page
    obtain ⟨h, ph, hfile, hph, hbounds, href⟩ := refused_of_stack_error hw hsafe' hmapped hstack
    obtain ⟨hnil, -, hunbroken⟩ := hharm argv envp hargs hend _ href
    have hseg := hph
    rw [loadHeaders_of_ok hfile] at hseg
    obtain ⟨q, hq⟩ := exists_mem_pages (mem_segments.mp hseg).2.2 (hunbroken ph hph) hbounds
    have hpage := mem_pagesBefore.mpr ⟨ph, hseg, hq⟩
    rw [hnil] at hpage
    cases hpage

theorem FailureAtomic.restores (hw : Steady w) (hsafe : FrameSafe k.mem)
    (hatomic : FailureAtomic w image pathU argvU envpU k) :
    Restores w image pathU argvU envpU k := by
  intro argv envp hargs hend ps href
  obtain ⟨reason, t, hload, hbesides⟩ := loadElfExec_refused hw hsafe hend href
  have hsame := hatomic _ _ (sysExecve_refused hargs hload) (by simp)
  have hentries : t.pt.entries = k.mem.pt.entries := hsame.entries
  rw [MappedBesides, hentries] at hbesides
  constructor
  · exact fun q hq => (hbesides q).mpr (.inr hq)
  · intro q hq hmapped
    rcases (hbesides q).mp hmapped with hleft | hloaded
    · rw [emptied_entries, if_pos hq] at hleft
      cases hleft
    · exact hloaded

/-- A program that has mapped nothing can restore only nothing. -/
theorem Restores.harmless (hrestores : Restores w image pathU argvU envpU k)
    (hearly : RefusedEarly w image pathU argvU envpU k) :
    Harmless w image pathU argvU envpU k := by
  intro argv envp hargs hend ps href
  obtain ⟨hnil, hunbroken⟩ := hearly argv envp hargs hend ps href
  refine ⟨hnil, fun q hq => ?_, hunbroken⟩
  cases hpage : k.mem.pt.entries q with
  | none => rfl
  | some e =>
      have hloaded := (hrestores argv envp hargs hend ps href).2 q hq (by rw [hpage]; rfl)
      rw [hnil] at hloaded
      cases hloaded

end

/-- A machine whose embedded program is empty, so that it runs the built-in
blob; its process has stored `/init` on the stack and calls `execve`. -/
def blobCaller : Kernel := trapState execTrap (boot 0x10000204000 0x444444448000
  (statics (final (kernelMain flatWalker [] (memInit [⟨1, 128, .usable⟩])))))

theorem blobCaller_safe : FrameSafe blobCaller.mem := by
  have hcaller : ∀ m, FrameSafe m →
      FrameSafe (trapState execTrap (boot 0x10000204000 0x444444448000 (statics m))).mem :=
    fun m hm => SyscallEffects.userStores_safe execTrap.stores hm
  exact hcaller _ (SystemMemory.kernelMain_safe flatWalker [] _ (memInit_safe _))

end Rockos.ExecFailure
