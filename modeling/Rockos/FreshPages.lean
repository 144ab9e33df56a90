import Rockos.ForkStacks
import Rockos.TwoRuns

/-!
# What new pages show

Unlike the ELF loader, `brk`, `mmap` and `fork` map frames as they come from the
allocator. None of these calls looks at the contents of memory, so two runs that
differ in the bytes of free frames go the same way; afterwards every byte of a
new page that `fork` has not written is the byte that was in the free frame.
-/
namespace Rockos.FreshPages
open FallibleState PhysMemory Paging KernelState AddressSpace ProcessCalls SyscallFrame
open FrameSafety PageEdits MapEdits UserMemory ForkStacks SystemMemory Syscall TwoRuns

/-! ## Runs that differ in the contents of memory -/

def UpToRam (m m' : Mem) : Prop := ∃ r, m' = { m with ram := r }

def withRam (r : ℕ → UInt8) (k : Kernel) : Kernel := { k with mem := { k.mem with ram := r } }

def KernelUpToRam (k k' : Kernel) : Prop := ∃ r, k' = withRam r k

theorem takeFrame_agrees (otherwise : Stop) : Agrees UpToRam (takeFrame otherwise) := by
  rintro m _ ⟨r, rfl⟩
  simp only [takeFrame]
  cases allocateFrame m.fa with
  | none => exact .error _ ⟨r, rfl⟩
  | some f => exact .ok _ ⟨r, rfl⟩

theorem modify_agrees {f : Mem → Mem}
    (hf : ∀ m r, ∃ r', f { m with ram := r } = { f m with ram := r' }) :
    Agrees UpToRam (modify f : MemM Unit) := by
  refine agrees_modify ?_
  rintro m _ ⟨r, rfl⟩
  exact hf m r

theorem virtAddr_agrees (a : ℕ) : Agrees UpToRam (virtAddr a) :=
  agrees_ite (agrees_pure _) (agrees_throw _)

theorem mapErr_agrees {α : Type} {reason : String} {x : MemM α} (hx : Agrees UpToRam x) :
    Agrees UpToRam (mapErr reason x) := by
  intro m m' h
  have hpair := hx m m' h
  unfold mapErr
  generalize x m = a at hpair
  generalize x m' = b at hpair
  cases hpair with
  | ok a h => exact .ok a h
  | error e h => cases e <;> exact .error _ h

theorem forPages_agrees (first last : ℕ) {body : ℕ → MemM Unit}
    (h : ∀ page, Agrees UpToRam (body page)) : Agrees UpToRam (forPages first last body) := by
  refine agrees_bind (agrees_countLoop (fun _ page => ?_) _ _ _) fun _ => agrees_pure _
  exact agrees_ite (agrees_bind (h page) fun _ => agrees_pure _) (agrees_pure _)

theorem writeLeaf_agrees (w : Walker) (page frame : ℕ) (flags : PageTableFlags) :
    Agrees UpToRam (writeLeaf w page frame flags) := by
  refine agrees_get_bind ?_ fun m => agrees_ite (agrees_throw _) ?_
  · rintro m _ ⟨r, rfl⟩
    rfl
  · cases m.pt.entries page with
    | some e => exact agrees_throw _
    | none => exact modify_agrees fun _ r => ⟨r, rfl⟩

theorem mapTo_agrees (w : Walker) (page frame : ℕ) (flags : PageTableFlags) :
    Agrees UpToRam (mapTo w page frame flags) := by
  refine agrees_bind (agrees_get_bind ?_ fun m => agrees_countLoop (fun _ _ => ?_) _ _ _)
    fun _ => writeLeaf_agrees w page frame flags
  · rintro m _ ⟨r, rfl⟩
    rfl
  · exact agrees_bind (takeFrame_agrees _) fun _ => modify_agrees fun _ r => ⟨r, rfl⟩

theorem mapNewPage_agrees (w : Walker) (page : ℕ) (flags : PageTableFlags) :
    Agrees UpToRam (mapNewPage w page flags) :=
  agrees_bind (takeFrame_agrees _) fun f => mapErr_agrees (mapTo_agrees w page f flags)

theorem releasePage_agrees (virt : ℕ) : Agrees UpToRam (releasePage virt) := by
  refine agrees_bind (agrees_attempt (agrees_bind (agrees_get_bind ?_ fun m => ?_) fun _ => ?_))
    fun _ => agrees_pure _
  · rintro m _ ⟨r, rfl⟩
    rfl
  · cases m.pt.entries (pageOf virt) with
    | none => exact agrees_throw _
    | some e =>
        exact agrees_bind (modify_agrees fun _ r => ⟨r, rfl⟩) fun _ => agrees_pure _
  · exact modify_agrees fun _ r => ⟨r, rfl⟩

theorem mapBrkShrink_agrees (newEnd oldEnd : ℕ) : Agrees UpToRam (mapBrkShrink newEnd oldEnd) := by
  refine agrees_ite (agrees_pure _) (agrees_ite (agrees_pure _) ?_)
  refine agrees_bind (virtAddr_agrees _) fun _ => agrees_bind (virtAddr_agrees _) fun _ => ?_
  refine forPages_agrees _ _ fun page => agrees_get_bind ?_ fun _ =>
    agrees_ite (agrees_pure _) (releasePage_agrees _)
  rintro m _ ⟨r, rfl⟩
  rfl

theorem mapBrkGrow_agrees (w : Walker) (oldEnd newEnd : ℕ) (flags : PageTableFlags) :
    Agrees UpToRam (mapBrkGrow w oldEnd newEnd flags) := by
  refine agrees_bind (virtAddr_agrees _) fun _ => agrees_bind (virtAddr_agrees _) fun _ => ?_
  refine forPages_agrees _ _ fun page => agrees_get_bind ?_ fun _ =>
    agrees_ite (agrees_pure _) (mapNewPage_agrees w page flags)
  rintro m _ ⟨r, rfl⟩
  rfl

theorem mapUserAnonPages_agrees (w : Walker) (start count : ℕ) (flags : PageTableFlags) :
    Agrees UpToRam (mapUserAnonPages w start count flags) :=
  agrees_countLoop (fun _ _ => agrees_bind (virtAddr_agrees _) fun _ =>
    mapNewPage_agrees w _ flags) _ _ _

/-- The copied bytes may differ, where they go does not. -/
theorem copyUserPages_agrees (src dst len : ℕ) : Agrees UpToRam (copyUserPages src dst len) := by
  refine agrees_countLoop (fun i _ => ?_) _ _ _
  refine agrees_bind (virtAddr_agrees _) fun s => agrees_bind (virtAddr_agrees _) fun d => ?_
  rintro m _ ⟨r, rfl⟩
  have hsame : ∀ a, translateAddr { m with ram := r } a = translateAddr m a := fun _ => rfl
  simp only [bind_run, get_run, hsame]
  cases translateAddr m s with
  | none => exact .error _ ⟨r, rfl⟩
  | some ps =>
      cases translateAddr m d with
      | none => exact .error _ ⟨r, rfl⟩
      | some pd => exact .ok _ ⟨_, rfl⟩

theorem mapChildStackAndCopy_agrees (w : Walker) (saved : SyscallSaved) :
    Agrees UpToRam (mapChildStackAndCopy w saved) := by
  refine agrees_bind (agrees_bind (virtAddr_agrees _) fun _ => agrees_get_bind ?_ fun _ =>
    agrees_ite (mapNewPage_agrees w _ _) (agrees_pure _)) fun _ =>
    agrees_ite (agrees_throw _) (copyUserPages_agrees _ _ _)
  rintro m _ ⟨r, rfl⟩
  rfl

theorem onMem_agrees {α : Type} {x : MemM α} (hx : Agrees UpToRam x) :
    Agrees KernelUpToRam (onMem x) := by
  refine agrees_zoom hx ?_ ?_
  · rintro k _ ⟨r, rfl⟩
    exact ⟨r, rfl⟩
  · rintro k _ m _ ⟨r, rfl⟩ ⟨r', rfl⟩
    exact ⟨r', rfl⟩

theorem modify_agrees_kernel {f : Kernel → Kernel} (hf : ∀ k r, f (withRam r k) = withRam r (f k)) :
    Agrees KernelUpToRam (modify f : KernelM Unit) := by
  refine agrees_modify ?_
  rintro k _ ⟨r, rfl⟩
  exact ⟨r, hf k r⟩

theorem editThen_agrees {edit : MemM Unit} (h : Agrees UpToRam edit) {books : Kernel → Kernel}
    (hbooks : ∀ k r, books (withRam r k) = withRam r (books k)) (v : UInt64) :
    Agrees KernelUpToRam (editThen edit books v) := by
  refine agrees_bind (onMem_agrees (agrees_attempt h)) fun r => ?_
  cases r with
  | none => exact agrees_pure _
  | some _ => exact agrees_bind (modify_agrees_kernel hbooks) fun _ => agrees_pure _

theorem sysBrk_agrees (w : Walker) (addr : ℕ) : Agrees KernelUpToRam (sysBrk w addr) := by
  have hcommit : ∀ {edit : MemM Unit}, Agrees UpToRam edit →
      Agrees KernelUpToRam (commitBrk addr edit) := fun hedit => by
    rw [commitBrk]
    exact editThen_agrees hedit (fun _ _ => rfl) _
  refine agrees_get_bind ?_ fun k => ?_
  · rintro k _ ⟨r, rfl⟩
    rfl
  · cases k.current with
    | none => exact agrees_pure _
    | some p =>
        refine agrees_ite (agrees_pure _) (agrees_ite (agrees_pure _) ?_)
        refine agrees_ite (hcommit (mapBrkShrink_agrees _ _)) ?_
        exact agrees_ite (agrees_pure _) (hcommit (mapBrkGrow_agrees w _ _ _))

theorem mmapAt_agrees (w : Walker) (addr nPages prot : ℕ) :
    Agrees KernelUpToRam (mmapAt w addr nPages prot) := by
  rw [mmapAt]
  exact editThen_agrees (mapUserAnonPages_agrees w _ _ _) (fun _ _ => rfl) _

theorem sysMmap_agrees (w : Walker) (addr len prot : ℕ) :
    Agrees KernelUpToRam (sysMmap w addr len prot) := by
  refine agrees_ite (agrees_pure _) (agrees_ite ?_ (agrees_ite (agrees_pure _)
    (agrees_ite (agrees_pure _) (mmapAt_agrees w _ _ _))))
  refine agrees_get_bind ?_ fun k => agrees_bind (modify_agrees_kernel fun _ _ => rfl) fun _ =>
    agrees_ite (agrees_pure _) (mmapAt_agrees w _ _ _)
  rintro k _ ⟨r, rfl⟩
  rfl

theorem spawn_agrees (pid parentPid : ℕ) (parent : Process) (save : SyscallSaved) (top : UInt64) :
    Agrees KernelUpToRam (spawn pid parentPid parent save top) := by
  refine agrees_get_bind ?_ fun k => ?_
  · rintro k _ ⟨r, rfl⟩
    rfl
  · cases allocSlot k.procs with
    | none => exact agrees_throw _
    | some r =>
        refine agrees_bind (modify_agrees_kernel fun _ _ => rfl) fun _ => ?_
        refine agrees_bind (modify_agrees_kernel fun _ _ => rfl) fun _ => ?_
        refine agrees_bind (modify_agrees_kernel fun _ _ => rfl) fun _ => ?_
        exact agrees_bind (modify_agrees_kernel fun _ _ => rfl) fun _ => agrees_pure _

theorem sysFork_agrees (w : Walker) (mem : UInt64 → UInt64) (rsp top : UInt64) :
    Agrees KernelUpToRam (sysFork w mem rsp top) := by
  refine agrees_get_bind ?_ fun k => ?_
  · rintro k _ ⟨r, rfl⟩
    rfl
  · cases allocPid k.procs with
    | none => exact agrees_pure _
    | some pid =>
        refine agrees_bind (onMem_agrees (agrees_attempt (mapChildStackAndCopy_agrees w _)))
          fun r => ?_
        cases r with
        | none => exact agrees_pure _
        | some _ =>
            cases k.current with
            | none => exact agrees_throw _
            | some p => exact spawn_agrees _ _ _ _ _

/-! ## The bytes of a new page -/

inductive FreshCall where
  | brk (addr : ℕ)
  | mmap (addr len prot : ℕ)
  | fork (mem : UInt64 → UInt64) (rsp childKstackTop : UInt64)

def FreshCall.run (w : Walker) : FreshCall → KernelM UInt64
  | .brk addr => sysBrk w addr
  | .mmap addr len prot => sysMmap w addr len prot
  | .fork mem rsp childKstackTop => sysFork w mem rsp childKstackTop

theorem FreshCall.agrees (w : Walker) (c : FreshCall) : Agrees KernelUpToRam (c.run w) := by
  cases c with
  | brk addr => exact sysBrk_agrees w addr
  | mmap addr len prot => exact sysMmap_agrees w addr len prot
  | fork mem rsp top => exact sysFork_agrees w mem rsp top

/-- The value is an error code. -/
def Failed (v : UInt64) : Prop := errno 4095 ≤ v

instance (v : UInt64) : Decidable (Failed v) := inferInstanceAs (Decidable (_ ≤ _))

def NewPage (k k₁ : Kernel) (q : ℕ) : Prop :=
  k.mem.pt.entries q = none ∧ (k₁.mem.pt.entries q).isSome

/-- The heap has grown, an area has been mapped, or the page for the stacks of
children has been mapped, whether or not `fork` succeeds after that. -/
def FreshCall.Grants (k : Kernel) (v : UInt64) (k₁ : Kernel) : FreshCall → Prop
  | .brk addr => ¬ Failed v ∧ ∃ p, k.current = some p ∧ p.brkEnd < addr
  | .mmap _ _ _ => ¬ Failed v
  | .fork _ _ _ => NewPage k k₁ (pageOf childStackLo)

/-- The bytes that `fork` writes: from the stack pointer up to the end of the
stack, as far as there is something to read. -/
def FreshCall.Copies (k : Kernel) (a : ℕ) : FreshCall → Prop
  | .brk _ | .mmap _ _ _ => False
  | .fork mem rsp _ =>
      let src := (saveFromDispatchRsp mem rsp).userRsp.toNat
      ∃ i, src + i < userStackTop ∧ a = childStackLo + (src - (userStackTop - pageSize)) + i ∧
        ∀ j ≤ i, (translateAddr k.mem (src + j)).isSome

section
variable {w : Walker} {k k₁ : Kernel} {v : UInt64}

theorem editThen_ok {edit : MemM Unit} {books : Kernel → Kernel} {u : UInt64}
    (h : editThen edit books u k = .ok v k₁) (hv : ¬ Failed v)
    (hbooks : ∀ k, (books k).mem = k.mem) : edit k.mem = .ok () k₁.mem := by
  rcases editThen_cases h with ⟨m, hx, -, rfl⟩ | ⟨reason, m, -, rfl, -⟩
  · rwa [hbooks]
  · exact absurd (by decide) hv

theorem sysBrk_grow_ok {addr : ℕ} {p : Process} (hp : k.current = some p) (hgrow : p.brkEnd < addr)
    (h : sysBrk w addr k = .ok v k₁) (hv : ¬ Failed v) :
    addr ≤ userBrkLimit ∧ mapBrkGrow w p.brkEnd addr userDataFlags k.mem = .ok () k₁.mem := by
  cases sysBrk_returns hp h with
  | same _ _ hsame => omega
  | refused hrefused _ _ => exact absurd (hrefused ▸ by decide) hv
  | shrink _ _ hlt _ => omega
  | grow _ hhi _ hedit => exact ⟨hhi, editThen_ok hedit hv fun _ => rfl⟩

theorem mmapAt_ok {addr nPages prot : ℕ} (h : mmapAt w addr nPages prot k = .ok v k₁)
    (hv : ¬ Failed v) :
    mapUserAnonPages w addr nPages (mmapFlags prot) k.mem = .ok () k₁.mem := by
  rw [mmapAt] at h
  exact editThen_ok h hv fun _ => rfl

theorem sysMmap_ok {addr len prot : ℕ} (h : sysMmap w addr len prot k = .ok v k₁)
    (hv : ¬ Failed v) : ∃ start count, 0 < count ∧
      mapUserAnonPages w start count (mmapFlags prot) k.mem = .ok () k₁.mem := by
  cases sysMmap_returns h with
  | refused hrefused _ _ => exact absurd (hrefused ▸ by decide) hv
  | full hfull _ _ _ => exact absurd (hfull ▸ by decide) hv
  | bumped hlen _ _ hat =>
      have hmap := mmapAt_ok hat hv
      exact ⟨k.nextMmap, pageCount len, pageCount_pos (by omega), hmap⟩
  | fixed hlen _ _ _ _ hat =>
      exact ⟨addr, pageCount len, pageCount_pos (by omega), mmapAt_ok hat hv⟩

theorem copyUserByte_rest {src dst len i a : ℕ} {m : Mem} (hi : i < len)
    (hsrc : src + len ≤ 2 ^ 47) (hdst : dst + len ≤ 2 ^ 47)
    (ha : ∀ i < len, a = dst + i → ∃ j ≤ i, translateAddr m (src + j) = none) :
    Meets (fun t => FrameSafe t ∧ t.pt = m.pt ∧ userByte t a = userByte m a ∧
        ∀ j < i, (translateAddr m (src + j)).isSome)
      (copyUserByte src dst i)
      (fun _ t => FrameSafe t ∧ t.pt = m.pt ∧ userByte t a = userByte m a ∧
        ∀ j < i + 1, (translateAddr m (src + j)).isSome)
      (fun _ t => userByte t a = userByte m a) := by
  rintro t ⟨ht, hpt, hbyte, hread⟩
  have hsame : ∀ b, translateAddr t b = translateAddr m b := fun b => by
    simp only [translateAddr, hpt]
  have haddr : src + i < 2 ^ 47 ∧ dst + i < 2 ^ 47 := by omega
  simp only [copyUserByte, virtAddr_of_lt haddr.1, virtAddr_of_lt haddr.2, bind_run, pure_run,
    get_run]
  cases hs : translateAddr t (src + i) with
  | none => exact hbyte
  | some ps =>
      cases hd : translateAddr t (dst + i) with
      | none => exact hbyte
      | some pd =>
          have hreadable : ∀ j < i + 1, (translateAddr m (src + j)).isSome := by
            intro j hj
            rcases Nat.lt_succ_iff_lt_or_eq.mp hj with hlt | rfl
            · exact hread j hlt
            · rw [← hsame, hs]
              rfl
          have hne : a ≠ dst + i := by
            intro heq
            obtain ⟨j, hj, hnone⟩ := ha i hi heq
            have hsome := hreadable j (by omega)
            rw [hnone] at hsome
            cases hsome
          refine ⟨ht, hpt, ?_, hreadable⟩
          exact (userByte_writePhys ht hd (t.ram ps) a).trans ((if_neg hne).trans hbyte)

/-- Copying leaves alone what it does not reach, whichever way it ends. -/
theorem copyUserPages_rest {src dst len : ℕ} {m : Mem} (hsafe : FrameSafe m) {a : ℕ}
    (hsrc : src + len ≤ 2 ^ 47) (hdst : dst + len ≤ 2 ^ 47)
    (ha : ∀ i < len, a = dst + i → ∃ j ≤ i, translateAddr m (src + j) = none) :
    userByte (final (copyUserPages src dst len m)) a = userByte m a := by
  have hloop : Meets (fun t => t = m) (copyUserPages src dst len)
      (fun _ t => userByte t a = userByte m a) (fun _ t => userByte t a = userByte m a) := by
    refine (meets_countLoop (fun i _ t => FrameSafe t ∧ t.pt = m.pt ∧
      userByte t a = userByte m a ∧ ∀ j < i, (translateAddr m (src + j)).isSome) 0 len ()
      fun i _ _ hi => ?_).mono ?_ (fun _ _ h => h.2.2.1) (fun _ _ h => h)
    · exact copyUserByte_rest (by omega) hsrc hdst ha
    · rintro _ rfl
      exact ⟨hsafe, rfl, rfl, fun j hj => absurd hj (by omega)⟩
  exact hloop.both rfl

theorem mapChildStackAndCopy_rest {mem : UInt64 → UInt64} {rsp top : UInt64} (hsafe : KernelSafe k)
    {a : ℕ} (ha : ¬ (FreshCall.fork mem rsp top).Copies k a) :
    userByte (final (mapChildStackAndCopy w (saveFromDispatchRsp mem rsp) k.mem)) a =
      userByte (final (mapChildStack w k.mem)) a := by
  have hmapped := mapChildStack_safe w k.mem hsafe
  have hentries := @mapChildStack_entries w k.mem
  simp only [mapChildStackAndCopy, bind_run]
  cases hrun : mapChildStack w k.mem with
  | error e t => rfl
  | ok _ t =>
      rw [hrun] at hmapped hentries
      simp only [final_ok] at hmapped hentries ⊢
      split_ifs with htop
      · rfl
      have hsmall : userStackTop < 2 ^ 46 ∧ childStackLo < 2 ^ 46 := by decide
      refine copyUserPages_rest hmapped (by omega) (by omega) fun i hi heq => ?_
      by_contra hnone
      refine ha ⟨i, by omega, heq, fun j hj => ?_⟩
      have hread : translateAddr t ((saveFromDispatchRsp mem rsp).userRsp.toNat + j) ≠ none :=
        fun hj' => hnone ⟨j, hj, hj'⟩
      rw [translateAddr, hentries (pageOf_ne_child (by omega))] at hread
      exact Option.isSome_iff_ne_none.mpr hread

/-- A page that `fork` adds is the one for the child. -/
theorem fork_new_page {mem : UInt64 → UInt64} {rsp top : UInt64}
    (hrun : sysFork w mem rsp top k = .ok v k₁) {q : ℕ} (hnew : NewPage k k₁ q) :
    k₁.mem = final (mapChildStackAndCopy w (saveFromDispatchRsp mem rsp) k.mem) := by
  rcases sysFork_mem w mem rsp top k with hmem | hmem
  · rw [hrun] at hmem
    obtain ⟨hnone, hsome⟩ := hnew
    rw [show k₁.mem = k.mem from hmem, hnone] at hsome
    cases hsome
  · rwa [hrun] at hmem

/-- A byte of a new page that was not copied is what a free frame held. -/
theorem fresh_byte (c : FreshCall) (hsafe : KernelSafe k) (hrun : c.run w k = .ok v k₁)
    (hgrants : c.Grants k v k₁) {a : ℕ} (hnew : NewPage k k₁ (pageOf a))
    (hcopied : ¬ c.Copies k a) : ∃ pa, translateAddr k₁.mem a = some pa ∧
      used k.mem.fa (pa / pageSize) = false ∧ userByte k₁.mem a = some (k.mem.ram pa) := by
  obtain ⟨m, hgrows, hpt, hbyte⟩ : ∃ m, Grows k.mem m ∧ k₁.mem.pt = m.pt ∧
      userByte k₁.mem a = userByte m a := by
    cases c with
    | brk addr =>
        obtain ⟨hv, p, hp, hgrow⟩ := hgrants
        exact ⟨k₁.mem, (mapBrkGrow_grows w _ _ _).ok (sysBrk_grow_ok hp hgrow hrun hv).2, rfl, rfl⟩
    | mmap addr len prot =>
        obtain ⟨start, count, -, hmap⟩ := sysMmap_ok hrun hgrants
        exact ⟨k₁.mem, (mapUserAnonPages_grows w _ _ _).ok hmap, rfl, rfl⟩
    | fork mem rsp top =>
        refine ⟨_, mapChildStack_grows w k.mem, ?_, ?_⟩
        · rw [fork_new_page hrun hnew, mapChildStackAndCopy_pt]
        · rw [fork_new_page hrun hnew, mapChildStackAndCopy_rest hsafe hcopied]
  obtain ⟨hnone, hsome⟩ := hnew
  rw [hpt] at hsome
  rcases hgrows.entries (pageOf a) with hsame | ⟨-, e, he, hfree⟩
  · rw [hsame, hnone] at hsome
    cases hsome
  · have htr : translateAddr m a = some (e.frame * pageSize + a % pageSize) :=
      translateAddr_eq_some.mpr ⟨e, he, rfl⟩
    have hframe : (e.frame * pageSize + a % pageSize) / pageSize = e.frame := by
      have hpos : 0 < pageSize := by decide
      rw [Nat.mul_comm, Nat.mul_add_div hpos, Nat.div_eq_of_lt (Nat.mod_lt _ hpos), Nat.add_zero]
    refine ⟨_, ?_, by rwa [hframe], ?_⟩
    · rw [← htr, translateAddr, translateAddr, hpt]
    · rw [hbyte, userByte, htr, Option.map_some, hgrows.ram]

end

/-! ## Two runs -/

/-- Memory contents that differ from those of `m` in free frames at most. -/
def SameWhereUsed (m : Mem) (r : ℕ → UInt8) : Prop :=
  ∀ pa, used m.fa (pa / pageSize) = true → r pa = m.ram pa

/-- Whatever the free frames held, the new bytes are the same, namely zero. -/
def RevealsNothing (w : Walker) (c : FreshCall) (k : Kernel) : Prop :=
  ∀ r, SameWhereUsed k.mem r → ∀ v k₁ v' k₁', c.run w k = .ok v k₁ →
    c.run w (withRam r k) = .ok v' k₁' → ∀ a, NewPage k k₁ (pageOf a) → ¬ c.Copies k a →
      userByte k₁'.mem a = userByte k₁.mem a ∧ userByte k₁.mem a = some 0

/-- No byte of a new page is left as it was: the heap grows over pages that are
mapped already, or `fork` copies a whole page. -/
def FreshCall.Covered (k : Kernel) : FreshCall → Prop
  | .brk addr => ∀ p, k.current = some p →
      ∀ q ∈ pageRange (pageOf p.brkEnd) (pageOf (addr - 1)), (k.mem.pt.entries q).isSome
  | .mmap _ _ _ => False
  | .fork mem rsp _ =>
      let src := (saveFromDispatchRsp mem rsp).userRsp.toNat
      src ≤ userStackTop - pageSize ∧ ∀ i < pageSize, (translateAddr k.mem (src + i)).isSome

section
variable {w : Walker} {c : FreshCall} {k k₁ : Kernel} {v : UInt64}

theorem grants_withRam (r r₁ : ℕ → UInt8) :
    c.Grants (withRam r k) v (withRam r₁ k₁) ↔ c.Grants k v k₁ := by
  cases c <;> exact Iff.rfl

theorem copies_withRam (r : ℕ → UInt8) (a : ℕ) : c.Copies (withRam r k) a ↔ c.Copies k a := by
  cases c <;> exact Iff.rfl

theorem reveals_nothing_iff_copied (hsafe : KernelSafe k) (hrun : c.run w k = .ok v k₁)
    (hgrants : c.Grants k v k₁) :
    RevealsNothing w c k ↔ ∀ a, NewPage k k₁ (pageOf a) → c.Copies k a := by
  constructor
  · intro hsecret a hnew
    by_contra hcopied
    obtain ⟨pa, htr, hfree, hbyte⟩ := fresh_byte c hsafe hrun hgrants hnew hcopied
    -- the other run has another byte in the free frame
    have hother : SameWhereUsed k.mem (Function.update k.mem.ram pa (k.mem.ram pa + 1)) := by
      intro x hx
      rw [Function.update_of_ne]
      rintro rfl
      rw [hfree] at hx
      cases hx
    generalize hr : Function.update k.mem.ram pa (k.mem.ram pa + 1) = r at hother
    have hram : KernelUpToRam k (withRam r k) := ⟨r, rfl⟩
    obtain ⟨k₂, hrun₂, r₂, rfl⟩ := (c.agrees w).ok hram hrun
    have hsafe₂ : KernelSafe (withRam r k) := hsafe
    obtain ⟨pa₂, htr₂, -, hbyte₂⟩ := fresh_byte c hsafe₂ hrun₂ ((grants_withRam r r₂).mpr hgrants)
      (a := a) hnew (fun h => hcopied ((copies_withRam r a).mp h))
    obtain rfl : pa = pa₂ := Option.some.inj (htr.symm.trans htr₂)
    have hequal := (hsecret r hother v k₁ v _ hrun hrun₂ a hnew hcopied).1
    rw [hbyte, hbyte₂] at hequal
    have hdiffer : (withRam r k).mem.ram pa = k.mem.ram pa + 1 := by
      show r pa = _
      rw [← hr, Function.update_self]
    rw [hdiffer] at hequal
    exact absurd (Option.some.inj hequal) (by simp)
  · intro hcopied r _ v₀ k₀ v' k' hrun₀ _ a hnew hnot
    obtain ⟨rfl, rfl⟩ := EStateM.Result.ok.inj (hrun.symm.trans hrun₀)
    exact absurd (hcopied a hnew) hnot

theorem brk_copied_iff {addr : ℕ} (hrun : sysBrk w addr k = .ok v k₁)
    (hgrants : (FreshCall.brk addr).Grants k v k₁) :
    (∀ a, NewPage k k₁ (pageOf a) → (FreshCall.brk addr).Copies k a) ↔
      (FreshCall.brk addr).Covered k := by
  obtain ⟨hv, p, hp, hgrow⟩ := hgrants
  obtain ⟨hlimit, hok⟩ := sysBrk_grow_ok hp hgrow hrun hv
  have hmap := mapBrkGrow_meets w p.brkEnd hlimit userDataFlags k.mem rfl
  rw [hok] at hmap
  obtain ⟨hadds, hall⟩ := hmap
  constructor
  · intro hcopied p' hp' q hq
    obtain rfl : p = p' := Option.some.inj (hp.symm.trans hp')
    by_contra hnone
    rw [Option.not_isSome_iff_eq_none] at hnone
    have hnew : NewPage k k₁ (pageOf (q * pageSize)) := by
      rw [pageOf_mul]
      exact ⟨hnone, hall q hq⟩
    exact hcopied _ hnew
  · rintro hcovered a ⟨hnone, hsome⟩
    rcases hadds (pageOf a) with hsame | ⟨hmem, -, -⟩
    · rw [hsame, hnone] at hsome
      cases hsome
    · have hmapped := hcovered p hp _ hmem
      rw [hnone] at hmapped
      cases hmapped

theorem fork_copied_iff {mem : UInt64 → UInt64} {rsp top : UInt64}
    (hrun : sysFork w mem rsp top k = .ok v k₁)
    (hgrants : (FreshCall.fork mem rsp top).Grants k v k₁) :
    (∀ a, NewPage k k₁ (pageOf a) → (FreshCall.fork mem rsp top).Copies k a) ↔
      (FreshCall.fork mem rsp top).Covered k := by
  have hpage : ∀ i < pageSize, pageOf (childStackLo + i) = pageOf childStackLo := by
    intro i hi
    simp only [pageOf, pageSize, childStackLo, userStackChildTop] at hi ⊢
    omega
  constructor
  · intro hcopied
    have hfirst : (saveFromDispatchRsp mem rsp).userRsp.toNat ≤ userStackTop - pageSize := by
      obtain ⟨i, -, heq, -⟩ := hcopied childStackLo hgrants
      omega
    refine ⟨hfirst, fun i hi => ?_⟩
    obtain ⟨i', -, heq, hread⟩ := hcopied (childStackLo + i) (by rwa [hpage i hi])
    exact hread i (by omega)
  · rintro ⟨hfirst, hread⟩ a ⟨hnone, hsome⟩
    have hchild : pageOf a = pageOf childStackLo := by
      by_contra hne
      rw [fork_new_page hrun ⟨hnone, hsome⟩, mapChildStackAndCopy_pt,
        mapChildStack_entries w k.mem hne, hnone] at hsome
      cases hsome
    have hdiv := Nat.div_add_mod a pageSize
    have hlt := Nat.mod_lt a (show 0 < pageSize by decide)
    have ha : a = childStackLo + a % pageSize := by
      simp only [pageOf] at hchild
      rw [hchild] at hdiv
      exact hdiv.symm
    have htop : pageSize ≤ userStackTop := by decide
    exact ⟨a % pageSize, by omega, by omega, fun j hj => hread j (by omega)⟩

/-- A mapping has a first page, and it was free. -/
theorem anonPages_new {start count : ℕ} {flags : PageTableFlags} (hpos : 0 < count)
    (hmap : mapUserAnonPages w start count flags k.mem = .ok () k₁.mem) :
    NewPage k k₁ (pageOf (signExtend start)) := by
  obtain ⟨n, rfl⟩ := Nat.exists_eq_succ_of_ne_zero hpos.ne'
  obtain ⟨_, t, hfirst, hrest⟩ := bind_ok hmap
  obtain ⟨-, hfirst⟩ := virtAddr_bind_ok hfirst
  rw [Nat.zero_mul, Nat.add_zero] at hfirst
  have hgrows : Grows t k₁.mem := (within_countLoop (fun _ _ => within_bind (within_virtAddr _)
    fun _ => mapNewPage_grows w _ flags) _ _ _).ok hrest
  rcases mapNewPage_cases w (pageOf (signExtend start)) flags k.mem with
    ⟨e, t', hrun, -⟩ | ⟨f, t', hrun, hfree, ht⟩
  · rw [hrun] at hfirst
    cases hfirst
  · rw [hrun] at hfirst
    obtain rfl : t' = t := (EStateM.Result.ok.inj hfirst).2
    refine ⟨hfree, ?_⟩
    rcases hgrows.entries (pageOf (signExtend start)) with hsame | ⟨hnone, -⟩
    · rw [hsame, ht, Function.update_self]
      rfl
    · rw [ht, Function.update_self] at hnone
      cases hnone

/-- Memory contents of free frames stay hidden if and only if no new byte is
left as it was. For `mmap` that is never the case. -/
theorem fresh_pages_reveal_iff (w : Walker) (c : FreshCall) (k k₁ : Kernel) (v : UInt64)
    (hsafe : KernelSafe k) (hrun : c.run w k = .ok v k₁) (hgrants : c.Grants k v k₁) :
    RevealsNothing w c k ↔ c.Covered k := by
  rw [reveals_nothing_iff_copied hsafe hrun hgrants]
  cases c with
  | brk addr => exact brk_copied_iff hrun hgrants
  | fork mem rsp top => exact fork_copied_iff hrun hgrants
  | mmap addr len prot =>
      obtain ⟨start, count, hpos, hmap⟩ := sysMmap_ok hrun hgrants
      exact ⟨fun hcopied => hcopied _ (anonPages_new hpos hmap), False.elim⟩

end

/-- The first process with half a page of heap. -/
def halfPage : Kernel := final (sysBrk flatWalker 0x404800 started)

/-- Growing the heap within its last page adds no page, and a `fork` with the stack
pointer at the start of the stack page fills the page it adds: nothing shows. -/
theorem fresh_pages_reveal_half_and_full_page :
    (∃ v k₁, sysBrk flatWalker 0x404900 halfPage = .ok v k₁ ∧ v = 0x404900 ∧
      RevealsNothing flatWalker (.brk 0x404900) halfPage) ∧
    ∃ v k₁, sysFork flatWalker (fun _ => 0x401000) 0 0x44444444C000 started = .ok v k₁ ∧ v = 2 ∧
      NewPage started k₁ (pageOf childStackLo) ∧
      RevealsNothing flatWalker (.fork (fun _ => 0x401000) 0 0x44444444C000) started := by
  constructor
  · have hheap : (returned (sysBrk flatWalker 0x404900 halfPage)).map (·.1) = some 0x404900 ∧
        halfPage.current.map Process.brkEnd = some 0x404800 ∧
        (halfPage.mem.pt.entries 0x404).isSome := by decide +kernel
    obtain ⟨hok, hbrk, hpage⟩ := hheap
    obtain ⟨v, k₁, hrun, rfl⟩ := ok_of_returned hok
    obtain ⟨p, hp, hend⟩ := Option.map_eq_some_iff.mp hbrk
    have hsafe : KernelSafe halfPage :=
      sysBrk_within allowsBooks_kernelSafe flatWalker 0x404800 started started_booted.safe
    refine ⟨_, k₁, hrun, rfl, ?_⟩
    refine (fresh_pages_reveal_iff flatWalker (.brk 0x404900) halfPage k₁ _ hsafe hrun
      ⟨by decide, p, hp, by rw [hend]; decide⟩).mpr ?_
    intro p' hp' q hq
    obtain rfl : p = p' := Option.some.inj (hp.symm.trans hp')
    rw [hend] at hq
    obtain rfl : q = 0x404 := Nat.le_antisymm hq.2 hq.1
    exact hpage
  · have hfork : (returned (sysFork flatWalker (fun _ => 0x401000) 0 0x44444444C000 started)).map
          (fun x => (x.1, (x.2.mem.pt.entries (pageOf childStackLo)).isSome)) = some (2, true) ∧
        started.mem.pt.entries (pageOf childStackLo) = none ∧
        (started.mem.pt.entries 0x401).isSome := by decide +kernel
    obtain ⟨hok, hnone, hstack⟩ := hfork
    obtain ⟨v, k₁, hrun, heq⟩ := ok_of_returned hok
    obtain ⟨rfl, hsome⟩ := Prod.mk.inj heq
    refine ⟨_, k₁, hrun, rfl, ⟨hnone, hsome⟩, ?_⟩
    refine (fresh_pages_reveal_iff flatWalker (.fork (fun _ => 0x401000) 0 0x44444444C000) started
      k₁ _ started_booted.safe hrun ⟨hnone, hsome⟩).mpr ⟨by decide, fun i hi => ?_⟩
    have hpage : pageOf (0x401000 + i) = 0x401 := by
      unfold pageOf pageSize at *
      omega
    show (translateAddr started.mem (0x401000 + i)).isSome
    rw [translateAddr, Option.isSome_map, hpage]
    exact hstack

/-- Memory with other bytes in the free frames. -/
def otherRam (pa : ℕ) : UInt8 :=
  if used started.mem.fa (pa / pageSize) then started.mem.ram pa else 0xAA

/-- The first page of the heap shows what the frame held before. -/
theorem brk_shows_free_frame : SameWhereUsed started.mem otherRam ∧ ∃ v k₁ k₂,
    sysBrk flatWalker 0x405000 started = .ok v k₁ ∧
      sysBrk flatWalker 0x405000 (withRam otherRam started) = .ok v k₂ ∧
      NewPage started k₁ (pageOf 0x404000) ∧
      userByte k₁.mem 0x404000 = some 0 ∧ userByte k₂.mem 0x404000 = some 0xAA := by
  have hruns : (returned (sysBrk flatWalker 0x405000 started)).map
        (fun x => (x.1, userByte x.2.mem 0x404000)) = some (0x405000, some 0) ∧
      (returned (sysBrk flatWalker 0x405000 (withRam otherRam started))).map
        (fun x => (x.1, userByte x.2.mem 0x404000)) = some (0x405000, some 0xAA) ∧
      started.mem.pt.entries (pageOf 0x404000) = none := by decide +kernel
  obtain ⟨hok, hok', hnone⟩ := hruns
  obtain ⟨v, k₁, hrun, heq⟩ := ok_of_returned hok
  obtain ⟨v', k₂, hrun', heq'⟩ := ok_of_returned hok'
  obtain ⟨rfl, hbyte⟩ := Prod.mk.inj heq
  obtain ⟨rfl, hbyte'⟩ := Prod.mk.inj heq'
  refine ⟨fun pa hpa => if_pos hpa, _, k₁, k₂, hrun, hrun', ⟨hnone, ?_⟩, hbyte, hbyte'⟩
  cases hentry : k₁.mem.pt.entries (pageOf 0x404000) with
  | some e => rfl
  | none =>
      rw [userByte, translateAddr, hentry] at hbyte
      cases hbyte

end Rockos.FreshPages
