import Rockos.KernelState

/-!
# The user address space: brk, mmap, munmap and the pointer checks (process.rs, user.rs)

All processes share one page table. Each process keeps its own books about it,
a heap end and a list of areas, and the pointer checks consult the books of the
running process, never the page table. The calls below update the two
separately, with different rounding, and several stop half way.
-/
namespace Rockos.AddressSpace
open FallibleState PhysMemory Paging KernelState

/-! ## Pointer checks -/

def coversBrkHeap (k : Kernel) (addr hi : ℕ) : Bool :=
  match k.current with
  | none => false
  | some p => decide (addr ≥ userBrkBase) && decide (hi ≤ p.brkEnd) && decide (hi ≤ userBrkLimit)

/-- Some area that passes `counts` holds the whole range. -/
def coversMmap (counts : VmArea → Bool) (k : Kernel) (addr hi : ℕ) : Bool :=
  match k.current with
  | none => false
  | some p => p.vmAreas.any fun a =>
      counts a && decide (addr ≥ a.virtStart) && decide (hi ≤ a.virtEnd)

def coversMmapRead : Kernel → ℕ → ℕ → Bool := coversMmap fun _ => true

def coversMmapWrite : Kernel → ℕ → ℕ → Bool := coversMmap VmArea.writable

def inStack (addr hi : ℕ) : Bool :=
  decide (addr ≥ userStackTop - pageSize) && decide (hi ≤ userStackTop)

def userRegionIsReadableRange (k : Kernel) (addr len : ℕ) : Bool :=
  let hi := addr + len
  if hi ≥ 2 ^ 64 then false else
    (decide (addr ≥ userTextBase) && decide (hi ≤ k.mem.image.imageEnd)) || inStack addr hi ||
      coversBrkHeap k addr hi || coversMmapRead k addr hi

def userRegionIsWritableRange (k : Kernel) (addr len : ℕ) : Bool :=
  let hi := addr + len
  if hi ≥ 2 ^ 64 then false else
    inStack addr hi || coversBrkHeap k addr hi || coversMmapWrite k addr hi ||
      (decide (addr ≥ k.mem.image.rwImageStart) && decide (hi ≤ k.mem.image.imageEnd))

/-! ## Accesses through user pointers

The kernel dereferences user pointers directly. An access to a page that is not
mapped, or a store to a page that is not writable, faults, and the page fault
handler never returns. -/

def loadByte (m : Mem) (va : ℕ) : Except Stop UInt8 :=
  match userByte m va with
  | none => .error .panic
  | some b => .ok b

def loadBytes (m : Mem) : (va len : ℕ) → Except Stop (List UInt8)
  | _, 0 => .ok []
  | va, n + 1 => do
      let b ← loadByte m va
      let bs ← loadBytes m (va + 1) n
      pure (b :: bs)

def storeByte (va : ℕ) (b : UInt8) : MemM Unit := do
  match (← get).pt.entries (pageOf va) with
  | none => throw .panic
  | some e =>
      if e.flags.writable then modify (writePhys (e.frame * pageSize + va % pageSize) b)
      else throw .panic

def storeBytes : (va : ℕ) → List UInt8 → MemM Unit
  | _, [] => pure ()
  | va, b :: bs => do
      storeByte va b
      storeBytes (va + 1) bs

/-! ## brk -/

/-- `(x + a - 1) & !(a - 1)` for a power of two `a`. -/
def alignUp (x a : ℕ) : ℕ := (x + a - 1) / a * a

def shrinkPage (page : ℕ) : MemM Unit := do
  if (translateAddr (← get) (page * pageSize)).isNone then pure ()
  else releasePage (page * pageSize)

def mapBrkShrink (newEnd oldEnd : ℕ) : MemM Unit :=
  if newEnd ≥ oldEnd ∨ newEnd < userBrkBase then pure () else
  if alignUp newEnd pageSize ≥ oldEnd then pure () else do
    let first ← virtAddr (alignUp newEnd pageSize)
    let last ← virtAddr (oldEnd - 1)
    forPages (pageOf first) (pageOf last) shrinkPage

/-- Pages that are mapped already are taken over as they are. -/
def growPage (w : Walker) (flags : PageTableFlags) (page : ℕ) : MemM Unit := do
  if (translateAddr (← get) (page * pageSize)).isSome then pure ()
  else mapNewPage w page flags

def mapBrkGrow (w : Walker) (oldEnd newEnd : ℕ) (flags : PageTableFlags) : MemM Unit := do
  let first ← virtAddr oldEnd
  let last ← virtAddr (newEnd - 1)
  forPages (pageOf first) (pageOf last) (growPage w flags)

def setBrkEnd (addr : ℕ) (k : Kernel) : Kernel :=
  k.updateCurrent fun p => { p with brkEnd := addr }

/-- The common shape of `brk` and `mmap`: edit the page table, then the books. -/
def editThen (edit : MemM Unit) (books : Kernel → Kernel) (v : UInt64) : KernelM UInt64 := do
  match ← onMem (attempt Stop.isErr edit) with
  | none => pure (errno 12)
  | some _ =>
      modify books
      pure v

/-- Commit the new heap end if the page table could be edited. -/
def commitBrk (addr : ℕ) (edit : MemM Unit) : KernelM UInt64 :=
  editThen edit (setBrkEnd addr) (UInt64.ofNat addr)

theorem editThen_cases {edit : MemM Unit} {books : Kernel → Kernel} {k k' : Kernel}
    {u v : UInt64} (h : editThen edit books u k = .ok v k') :
    (∃ m, edit k.mem = .ok () m ∧ v = u ∧ k' = books (setMem m k)) ∨
    (∃ reason m, edit k.mem = .error (.err reason) m ∧ v = errno 12 ∧ k' = setMem m k) := by
  rw [editThen, bind_run] at h
  rcases onMem_attempt_cases edit k with ⟨_, m, hx, ho⟩ | ⟨reason, m, hx, ho⟩ | ⟨e, m, hx, ho⟩
  · simp only [ho, bind_run, modify_run, pure_run, EStateM.Result.ok.injEq] at h
    exact .inl ⟨m, hx, h.1.symm, h.2.symm⟩
  · simp only [ho, pure_run, EStateM.Result.ok.injEq] at h
    exact .inr ⟨reason, m, hx, h.1.symm, h.2.symm⟩
  · simp [ho] at h

def sysBrk (w : Walker) (addr : ℕ) : KernelM UInt64 := do
  match (← get).current with
  | none => pure (errno 12)
  | some proc =>
      if addr = 0 then pure (UInt64.ofNat proc.brkEnd) else
      if addr < userBrkBase ∨ addr > userBrkLimit then pure (errno 12) else
      if addr < proc.brkEnd then commitBrk addr (mapBrkShrink addr proc.brkEnd) else
      if addr = proc.brkEnd then pure (UInt64.ofNat addr) else
      commitBrk addr (mapBrkGrow w proc.brkEnd addr userDataFlags)

/-- How `brk` can return to a process `p`. -/
inductive BrkReturns (w : Walker) (addr : ℕ) (p : Process) (k : Kernel) (v : UInt64)
    (k' : Kernel) : Prop
  | same (hv : v = UInt64.ofNat p.brkEnd) (hk : k' = k) (h : addr = 0 ∨ addr = p.brkEnd)
  | refused (hv : v = errno 12) (hk : k' = k) (h : addr < userBrkBase ∨ addr > userBrkLimit)
  | shrink (hlo : userBrkBase ≤ addr) (hhi : addr ≤ userBrkLimit) (hlt : addr < p.brkEnd)
      (h : editThen (mapBrkShrink addr p.brkEnd) (setBrkEnd addr) (UInt64.ofNat addr) k = .ok v k')
  | grow (hlo : userBrkBase ≤ addr) (hhi : addr ≤ userBrkLimit) (hlt : p.brkEnd < addr)
      (h : editThen (mapBrkGrow w p.brkEnd addr userDataFlags) (setBrkEnd addr) (UInt64.ofNat addr)
        k = .ok v k')

theorem sysBrk_returns {w : Walker} {addr : ℕ} {p : Process} {k k' : Kernel} {v : UInt64}
    (hp : k.current = some p) (h : sysBrk w addr k = .ok v k') : BrkReturns w addr p k v k' := by
  simp only [sysBrk, bind_run, get_run, hp] at h
  split_ifs at h with hzero hrange hlt heq
  · obtain ⟨rfl, rfl⟩ := EStateM.Result.ok.inj h
    exact .same rfl rfl (.inl hzero)
  · obtain ⟨rfl, rfl⟩ := EStateM.Result.ok.inj h
    exact .refused rfl rfl hrange
  · exact .shrink (by omega) (by omega) hlt h
  · obtain ⟨rfl, rfl⟩ := EStateM.Result.ok.inj h
    exact .same (by rw [heq]) rfl (.inr heq)
  · exact .grow (by omega) (by omega) (by omega) h

/-! ## mmap and munmap -/

def mapUserAnonPages (w : Walker) (start pageCount : ℕ) (flags : PageTableFlags) : MemM Unit :=
  countLoop (fun i _ => do
    let v ← virtAddr (start + i * pageSize)
    mapNewPage w (pageOf v) flags) 0 pageCount ()

def unmapUserRange (start pageCount : ℕ) : MemM Unit :=
  countLoop (fun i _ => do
    let va ← virtAddr (start + i * pageSize)
    releasePage va) 0 pageCount ()

def protWrite (prot : ℕ) : Bool := prot &&& 2 ≠ 0

def protExec (prot : ℕ) : Bool := prot &&& 4 ≠ 0

def mmapFlags (prot : ℕ) : PageTableFlags := ⟨true, protWrite prot, true, !protExec prot⟩

def pushArea (addr nPages prot : ℕ) (k : Kernel) : Kernel :=
  let area : VmArea := ⟨k.vmAreaNextId, addr, nPages, protWrite prot, protExec prot⟩
  Kernel.updateCurrent { k with vmAreaNextId := (k.vmAreaNextId + 1) % 2 ^ 64 } fun p =>
    { p with vmAreas := p.vmAreas ++ [area] }

/-- The part of `sys_mmap` after the address is settled. -/
def mmapAt (w : Walker) (addr nPages prot : ℕ) : KernelM UInt64 :=
  editThen (mapUserAnonPages w addr nPages (mmapFlags prot)) (pushArea addr nPages prot)
    (UInt64.ofNat addr)

/-- `(len + 4095) / 4096`. -/
def pageCount (len : ℕ) : ℕ := (len + pageSize - 1) / pageSize

theorem pageCount_pos {len : ℕ} (h : len ≠ 0) : 0 < pageCount len :=
  Nat.div_pos (by omega) (by decide)

def sysMmap (w : Walker) (addr len prot : ℕ) : KernelM UInt64 :=
  if len = 0 ∨ len > userMmapLimit - userMmapBase then pure (errno 22) else
  if addr = 0 then do
    let base := (← get).nextMmap
    -- the bump is kept even if the request is then refused
    modify fun k => { k with nextMmap := (base + pageCount len * pageSize) % 2 ^ 64 }
    if saturatingAdd base (pageCount len * pageSize) > userMmapLimit then pure (errno 12)
    else mmapAt w base (pageCount len) prot
  else if addr % pageSize ≠ 0 then pure (errno 22)
  else if addr < userMmapBase ∨ saturatingAdd addr len > userMmapLimit then pure (errno 22)
  else mmapAt w addr (pageCount len) prot

/-- The kernel after `NEXT_MMAP` has been moved past an area of `len` bytes. -/
def bumpMmap (len : ℕ) (k : Kernel) : Kernel :=
  { k with nextMmap := (k.nextMmap + pageCount len * pageSize) % 2 ^ 64 }

/-- How `mmap` can return. -/
inductive MmapReturns (w : Walker) (addr len prot : ℕ) (k : Kernel) (v : UInt64) (k' : Kernel) :
    Prop
  | refused (hv : v = errno 22) (hk : k' = k)
      (h : (len = 0 ∨ len > userMmapLimit - userMmapBase) ∨ addr ≠ 0)
  | full (hv : v = errno 12) (hk : k' = bumpMmap len k)
      (hlen : ¬ (len = 0 ∨ len > userMmapLimit - userMmapBase)) (haddr : addr = 0)
  | bumped (hlen : ¬ (len = 0 ∨ len > userMmapLimit - userMmapBase)) (haddr : addr = 0)
      (hroom : saturatingAdd k.nextMmap (pageCount len * pageSize) ≤ userMmapLimit)
      (h : mmapAt w k.nextMmap (pageCount len) prot (bumpMmap len k) = .ok v k')
  | fixed (hlen : ¬ (len = 0 ∨ len > userMmapLimit - userMmapBase)) (haddr : addr ≠ 0)
      (haligned : addr % pageSize = 0) (hlo : userMmapBase ≤ addr)
      (hhi : saturatingAdd addr len ≤ userMmapLimit)
      (h : mmapAt w addr (pageCount len) prot k = .ok v k')

theorem sysMmap_returns {w : Walker} {addr len prot : ℕ} {k k' : Kernel} {v : UInt64}
    (h : sysMmap w addr len prot k = .ok v k') : MmapReturns w addr len prot k v k' := by
  unfold sysMmap at h
  split_ifs at h with hlen haddr haligned hrange
  · obtain ⟨rfl, rfl⟩ := EStateM.Result.ok.inj h
    exact .refused rfl rfl (.inl hlen)
  · simp only [bind_run, get_run, modify_run] at h
    split_ifs at h with hroom
    · obtain ⟨rfl, rfl⟩ := EStateM.Result.ok.inj h
      exact .full rfl rfl hlen haddr
    · exact .bumped hlen haddr (by omega) h
  · obtain ⟨rfl, rfl⟩ := EStateM.Result.ok.inj h
    exact .refused rfl rfl (.inr haddr)
  · obtain ⟨rfl, rfl⟩ := EStateM.Result.ok.inj h
    exact .refused rfl rfl (.inr haddr)
  · exact .fixed hlen haddr (by omega) (by omega) (by omega) h

/-- The areas `munmap(addr, len)` is about. -/
def spansExactly (addr hi : ℕ) (a : VmArea) : Bool :=
  decide (a.virtStart = addr) && decide (a.virtEnd = hi)

def dropAreas (addr hi : ℕ) (k : Kernel) : Kernel :=
  k.updateCurrent fun p => { p with
    vmAreas := p.vmAreas.filter fun a => !spansExactly addr hi a }

def sysMunmap (addr len : ℕ) : KernelM UInt64 :=
  if addr % pageSize ≠ 0 ∨ len = 0 then pure (errno 22) else do
    let hi := saturatingAdd addr len
    let k ← get
    let removed := k.current.elim false fun p => p.vmAreas.any (spansExactly addr hi)
    modify (dropAreas addr hi)
    if !removed then pure (errno 22) else
      match ← onMem (attempt Stop.isErr (unmapUserRange addr (len / pageSize))) with
      | none => pure (errno 12)
      | some _ => pure 0

/-- How `munmap` can return to a process `p`. The area is forgotten even if its
pages cannot be unmapped. -/
inductive MunmapReturns (addr len : ℕ) (p : Process) (k : Kernel) (v : UInt64) (k' : Kernel) : Prop
  | refused (hv : v = errno 22) (hk : k' = k) (h : addr % pageSize ≠ 0 ∨ len = 0)
  | unknown (hv : v = errno 22) (hk : k' = dropAreas addr (saturatingAdd addr len) k)
      (h : ∀ a ∈ p.vmAreas, spansExactly addr (saturatingAdd addr len) a = false)
  | edit (haligned : addr % pageSize = 0) (hlen : len ≠ 0) (a : VmArea) (ha : a ∈ p.vmAreas)
      (hspan : spansExactly addr (saturatingAdd addr len) a = true) (m : Mem)
      (hk : k' = setMem m (dropAreas addr (saturatingAdd addr len) k))
      (h : unmapUserRange addr (len / pageSize) k.mem = .ok () m ∧ v = 0 ∨
        (∃ reason, unmapUserRange addr (len / pageSize) k.mem = .error (.err reason) m) ∧
          v = errno 12)

theorem sysMunmap_returns {addr len : ℕ} {p : Process} {k k' : Kernel} {v : UInt64}
    (hp : k.current = some p) (h : sysMunmap addr len k = .ok v k') :
    MunmapReturns addr len p k v k' := by
  unfold sysMunmap at h
  split_ifs at h with hargs
  · obtain ⟨rfl, rfl⟩ := EStateM.Result.ok.inj h
    exact .refused rfl rfl hargs
  simp only [bind_run, get_run, modify_run, hp, Option.elim_some] at h
  split_ifs at h with hhit
  · obtain ⟨rfl, rfl⟩ := EStateM.Result.ok.inj h
    exact .unknown rfl rfl (by simpa using hhit)
  obtain ⟨a, ha, hspan⟩ : ∃ a ∈ p.vmAreas, spansExactly addr (saturatingAdd addr len) a = true := by
    simpa using hhit
  rw [bind_run] at h
  rcases onMem_attempt_cases (unmapUserRange addr (len / pageSize))
      (dropAreas addr (saturatingAdd addr len) k) with
    ⟨_, m, hx, ho⟩ | ⟨reason, m, hx, ho⟩ | ⟨e, m, hx, ho⟩
  · simp only [ho, pure_run, EStateM.Result.ok.injEq] at h
    exact .edit (by omega) (by omega) a ha hspan m h.2.symm (.inl ⟨hx, h.1.symm⟩)
  · simp only [ho, pure_run, EStateM.Result.ok.injEq] at h
    exact .edit (by omega) (by omega) a ha hspan m h.2.symm (.inr ⟨⟨reason, hx⟩, h.1.symm⟩)
  · simp [ho] at h

end Rockos.AddressSpace
