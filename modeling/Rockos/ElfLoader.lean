import Rockos.Paging

/-!
# ELF loading and the initial stack of a program (elf.rs)

`loadElfMapped` is a sequence of header checks followed by one loop over the
program headers. The loop maps and fills each `PT_LOAD` segment before it looks
at the next header, so a failure leaves every earlier page mapped; the model
keeps these states because `MemM` keeps the state of a failing call.

The arithmetic on header fields is the checked arithmetic of the source: an
overflow panics, and so does an address that `VirtAddr::new` does not take. It
does take addresses of 48 bits, and sign-extends them; the locals of the loop keep
the address as it is in the header. Images are byte lists; argument and
environment strings are their byte lists as well.
-/
namespace Rockos.ElfLoader
open FallibleState PhysMemory Paging

/-- `from_le_bytes` over a slice. -/
def leNat : List UInt8 → ℕ
  | [] => 0
  | b :: bs => b.toNat + 256 * leNat bs

/-- `n` little-endian bytes of `x`; `to_le_bytes` for `n = 8`. -/
def leBytes : (n x : ℕ) → List UInt8
  | 0, _ => []
  | n + 1, x => UInt8.ofNat x :: leBytes n (x / 256)

/-- The number in `bytes[off .. off+n]`. -/
def field (bytes : List UInt8) (off n : ℕ) : ℕ := leNat ((bytes.drop off).take n)

def elfMag : List UInt8 := [0x7F, 0x45, 0x4C, 0x46]

structure ElfLoadedMeta where
  entry : ℕ
  phdr : ℕ
  phnum : ℕ
  phent : ℕ
  imageEnd : ℕ
  rwMin : ℕ
  deriving DecidableEq, Repr

/-- The fields of the file header that the loader uses. -/
structure FileHeader where
  entry : ℕ
  phoff : ℕ
  phnum : ℕ
  phentsize : ℕ
  deriving DecidableEq, Repr

/-- The checks before the first program header, in order. -/
def fileHeader (image : List UInt8) : Except String FileHeader :=
  if image.length < 64 then .error "truncated" else
  if image.take 4 ≠ elfMag ∨ image.getD 4 0 ≠ 2 ∨ image.getD 5 0 ≠ 1 then .error "bad elf" else
  if field image 16 2 ≠ 2 ∧ field image 16 2 ≠ 3 then .error "not ET_EXEC/ET_DYN" else
  if field image 18 2 ≠ 0x3E then .error "not x86-64" else
  if field image 54 2 ≠ 56 then .error "unexpected phdr size" else
  .ok ⟨field image 24 8, field image 32 8, field image 56 2, field image 54 2⟩

structure ProgramHeader where
  type : ℕ
  flags : ℕ
  offset : ℕ
  vaddr : ℕ
  filesz : ℕ
  memsz : ℕ
  align : ℕ
  deriving DecidableEq, Repr

def programHeader (hdr : List UInt8) : ProgramHeader :=
  ⟨field hdr 0 4, field hdr 4 4, field hdr 8 8, field hdr 16 8, field hdr 32 8, field hdr 40 8,
    field hdr 48 8⟩

/-- The mutable locals of the segment loop. -/
structure LoadAcc where
  imageEnd : ℕ
  rwMin : Option ℕ
  phdrVa : Option ℕ
  deriving DecidableEq, Repr

def segmentFlags (pFlags : ℕ) : PageTableFlags :=
  ⟨true, pFlags &&& 2 ≠ 0, true, pFlags &&& 1 = 0⟩

/-- A page of a segment, on a fresh frame full of zeros. -/
def zeroedPage (w : Walker) (page : ℕ) (flags : PageTableFlags) : MemM Unit := do
  let frame ← takeFrame (.err "frame OOM")
  modify (zeroFrame frame)
  mapErr "map_to" (mapTo w page frame flags)

def mapSegment (w : Walker) (first last : ℕ) (flags : PageTableFlags) : MemM Unit :=
  forPages first last fun page => zeroedPage w page flags

/-- Byte `j` of a segment, copied through the page table. -/
def copySegmentByte (image : List UInt8) (seg pOffset j : ℕ) : MemM Unit := do
  let fileOff ← addU64 pOffset j
  if fileOff ≥ image.length then throw (.err "segment file oob") else
    let va ← addU64 seg j
    let va ← virtAddr va
    match translateAddr (← get) va with
    | none => throw (.err "translate")
    | some phys => modify (writePhys phys (image.getD fileOff 0))

def copySegment (image : List UInt8) (seg pOffset pFilesz : ℕ) : MemM Unit :=
  countLoop (fun j _ => copySegmentByte image seg pOffset j) 0 pFilesz ()

/-- Where the program headers end up, if this segment holds their start. -/
def phdrAddress (phoff : ℕ) (ph : ProgramHeader) (seg : ℕ) (old : Option ℕ) : MemM (Option ℕ) :=
  if phoff ≥ ph.offset ∧ phoff < saturatingAdd ph.offset ph.filesz then do
    let va ← addU64 seg (phoff - ph.offset)
    pure (some va)
  else pure old

/-- One `PT_LOAD` header with a nonempty memory size. -/
def loadSegment (w : Walker) (image : List UInt8) (bias phoff : ℕ) (ph : ProgramHeader)
    (acc : LoadAcc) : MemM LoadAcc := do
  let seg := (ph.vaddr + bias) % 2 ^ 64
  let phdrVa ← phdrAddress phoff ph seg acc.phdrVa
  let vstart ← virtAddr seg
  let segEnd ← addU64 seg ph.memsz
  let vend ← virtAddr segEnd
  let rwMin := if ph.flags &&& 2 ≠ 0 then some (acc.rwMin.elim seg (min · seg)) else acc.rwMin
  let vlast ← virtAddr (vend - 1)
  mapSegment w (pageOf vstart) (pageOf vlast) (segmentFlags ph.flags)
  copySegment image seg ph.offset ph.filesz
  pure ⟨max acc.imageEnd segEnd, rwMin, phdrVa⟩

/-- Iteration `i` of the program header loop. -/
def loadPhdr (w : Walker) (image : List UInt8) (bias : ℕ) (h : FileHeader) (i : ℕ)
    (acc : LoadAcc) : MemM LoadAcc := do
  let off ← addU64 h.phoff (i * h.phentsize)
  let hi ← addU64 off 56
  if hi > image.length then throw (.err "phdr oob") else
    let ph := programHeader ((image.drop off).take 56)
    if ph.type ≠ 1 then pure acc else
    if ph.align ≠ 0 ∧ ph.align ≠ 4096 then throw (.err "unsupported align") else
    if ph.memsz = 0 then pure acc else
    loadSegment w image bias h.phoff ph acc

def loadElfMapped (w : Walker) (image : List UInt8) (bias : ℕ) : MemM (ℕ × ElfLoadedMeta) := do
  match fileHeader image with
  | .error reason => throw (.err reason)
  | .ok h =>
      let acc ← countLoop (loadPhdr w image bias h) 0 h.phnum ⟨0, none, none⟩
      match acc.phdrVa with
      | none => throw (.err "no phdr in LOAD")
      | some phdr =>
          let entry := (h.entry + bias) % 2 ^ 64
          pure (entry, ⟨entry, phdr, h.phnum, h.phentsize, acc.imageEnd,
            acc.rwMin.getD (userTextBase + pageSize)⟩)

def applyUserMeta (md : ElfLoadedMeta) (m : Mem) : Mem :=
  setUserRwImageStart md.rwMin
    (setUserImageEnd (max md.imageEnd (userTextBase + pageSize)) m)

def loadElf (w : Walker) (image : List UInt8) (bias : ℕ) : MemM ℕ := do
  let r ← loadElfMapped w image bias
  modify (applyUserMeta r.2)
  pure r.1

/-- The body of the loop below. -/
def unmapImagePage (va : ℕ) : MemM Unit := do
  let v ← virtAddr va
  if (translateAddr (← get) v).isSome then releasePage v else pure ()

/-- Every page from the text base up to the image end that is mapped is
unmapped and its frame freed, whoever mapped it. -/
def unmapOldImageBestEffort : MemM Unit := do
  let m ← get
  let hi := m.image.imageEnd
  let lo := userTextBase
  countLoop (fun i _ => unmapImagePage (lo + i * pageSize)) 0
    ((hi - lo + (pageSize - 1)) / pageSize) ()

def writeUserByte (va : ℕ) (b : UInt8) : MemM Unit := do
  let va ← virtAddr va
  match translateAddr (← get) va with
  | none => throw (.err "no map")
  | some phys => modify (writePhys phys b)

/-! ## The initial stack -/

def zeros (n : ℕ) : List UInt8 := List.replicate n 0

/-- `while v.len() % a != 0 { v.push(0) }`. -/
def padTo (a : ℕ) (v : List UInt8) : List UInt8 := v ++ zeros ((a - v.length % a) % a)

/-- `v[o..o+bs.len()].copy_from_slice(bs)`. -/
def patch (v : List UInt8) (o : ℕ) (bs : List UInt8) : List UInt8 :=
  v.take o ++ bs ++ v.drop (o + bs.length)

/-- Append one string with its terminator and padding; remember its address. -/
def pushString (lo : ℕ) (acc : List UInt8 × List ℕ) (s : List UInt8) : List UInt8 × List ℕ :=
  (padTo 8 (acc.1 ++ s ++ [0]), acc.2 ++ [lo + acc.1.length])

/-- Write the addresses `offs` into the table that starts at `tab`. -/
def patchTable (tab : ℕ) : (offs : List ℕ) → List UInt8 → List UInt8
  | [], v => v
  | x :: xs, v => patchTable (tab + 8) xs (patch v tab (leBytes 8 x))

def auxPairs (md : ElfLoadedMeta) : List (ℕ × ℕ) :=
  [(3, md.phdr), (4, md.phent), (5, md.phnum), (6, pageSize), (9, md.entry), (0, 0)]

/-- `None` is the `aux ovf` exit. -/
def patchAux : (ao : ℕ) → (aux : List (ℕ × ℕ)) → List UInt8 → Option (List UInt8)
  | _, [], v => some v
  | ao, (tag, val) :: aux, v =>
      if ao + 16 ≤ v.length then
        patchAux (ao + 16) aux (patch (patch v ao (leBytes 8 tag)) (ao + 8) (leBytes 8 val))
      else none

/-- The block `v` of `build_exec_stack`, before it is copied to user memory. -/
def execStackBlock (md : ElfLoadedMeta) (argv envp : List (List UInt8)) :
    Except String (List UInt8) :=
  let lo := userStackTop - pageSize
  let argvTab := 8
  let envTab := argvTab + 8 * argv.length + 8
  let v := leBytes 8 argv.length ++ zeros (8 * argv.length) ++ zeros 8 ++
    zeros (8 * envp.length) ++ zeros 8 ++ zeros (16 * 6)
  let v := padTo 16 v
  let s := (envp ++ argv).foldl (pushString lo) (v, [])
  if lo + s.1.length > userStackTop then .error "stack ovf" else
    let v := patchTable envTab (s.2.take envp.length) s.1
    let v := patchTable argvTab (s.2.drop envp.length) v
    match patchAux (envTab + (envp.length + 1) * 8) (auxPairs md) v with
    | none => .error "aux ovf"
    | some v => .ok v

/-- `for (i, &b) in v.iter().enumerate()`. -/
def writeUserBytes : (va : ℕ) → List UInt8 → MemM Unit
  | _, [] => pure ()
  | va, b :: bs => do
      writeUserByte va b
      writeUserBytes (va + 1) bs

def buildExecStack (md : ElfLoadedMeta) (argv envp : List (List UInt8)) : MemM ℕ := do
  match execStackBlock md argv envp with
  | .error reason => throw (.err reason)
  | .ok v =>
      writeUserBytes (userStackTop - pageSize) v
      pure (userStackTop - pageSize)

def loadElfExec (w : Walker) (image : List UInt8) (bias : ℕ) (argv envp : List (List UInt8)) :
    MemM (ℕ × ℕ) := do
  unmapOldImageBestEffort
  let r ← loadElfMapped w image bias
  modify (applyUserMeta r.2)
  let rsp ← buildExecStack r.2 argv envp
  pure (r.1, rsp)

/-- A load that succeeds ran over all headers, and found the header table. -/
theorem loadElfMapped_parts {w : Walker} {image : List UInt8} {bias : ℕ} {m m' : Mem}
    {r : ℕ × ElfLoadedMeta} (h : loadElfMapped w image bias m = .ok r m') :
    ∃ hdr acc phdr, fileHeader image = .ok hdr ∧
      countLoop (loadPhdr w image bias hdr) 0 hdr.phnum ⟨0, none, none⟩ m = .ok acc m' ∧
      acc.phdrVa = some phdr ∧ r.1 = (hdr.entry + bias) % 2 ^ 64 ∧ r.2.phdr = phdr ∧
      r.2.imageEnd = acc.imageEnd ∧ r.2.rwMin = acc.rwMin.getD (userTextBase + pageSize) := by
  unfold loadElfMapped at h
  cases hh : fileHeader image with
  | error reason => simp [hh] at h
  | ok hdr =>
      simp only [hh] at h
      obtain ⟨acc, t, hloop, h⟩ := bind_ok h
      cases hphdr : acc.phdrVa with
      | none => simp [hphdr] at h
      | some phdr =>
          simp only [hphdr, pure_run, EStateM.Result.ok.injEq] at h
          obtain ⟨rfl, rfl⟩ := h
          exact ⟨hdr, acc, phdr, rfl, hloop, hphdr, rfl, rfl, rfl, rfl⟩

theorem fileHeader_ok {image : List UInt8} {h : FileHeader} (hh : fileHeader image = .ok h) :
    h = ⟨field image 24 8, field image 32 8, field image 56 2, 56⟩ := by
  unfold fileHeader at hh
  split_ifs at hh with _ _ _ _ hsize
  rw [← Except.ok.inj hh, not_not.mp hsize]

theorem loadElfMapped_entry {w : Walker} {image : List UInt8} {bias : ℕ} {m m' : Mem}
    {r : ℕ × ElfLoadedMeta} (h : loadElfMapped w image bias m = .ok r m') :
    r.1 = (field image 24 8 + bias) % 2 ^ 64 := by
  obtain ⟨hdr, acc, phdr, hh, -, -, hentry, -⟩ := loadElfMapped_parts h
  rw [hentry, fileHeader_ok hh]

theorem buildExecStack_rsp {md : ElfLoadedMeta} {argv envp : List (List UInt8)} {m m' : Mem}
    {rsp : ℕ} (h : buildExecStack md argv envp m = .ok rsp m') : rsp = userStackTop - pageSize := by
  unfold buildExecStack at h
  cases hv : execStackBlock md argv envp with
  | error reason => simp [hv] at h
  | ok v =>
      simp only [hv] at h
      obtain ⟨_, m₁, -, h⟩ := bind_ok h
      simp only [pure_run, EStateM.Result.ok.injEq] at h
      exact h.1.symm

/-- A program always starts at the entry of its header, and with its stack
pointer at the low end of the stack page. -/
theorem loadElfExec_ok {w : Walker} {image : List UInt8} {bias : ℕ}
    {argv envp : List (List UInt8)} {m m' : Mem} {entry rsp : ℕ}
    (h : loadElfExec w image bias argv envp m = .ok (entry, rsp) m') :
    entry = (field image 24 8 + bias) % 2 ^ 64 ∧ rsp = userStackTop - pageSize := by
  rw [loadElfExec] at h
  obtain ⟨_, m₁, -, h⟩ := bind_ok h
  obtain ⟨r, m₂, hmapped, h⟩ := bind_ok h
  obtain ⟨_, m₃, -, h⟩ := bind_ok h
  obtain ⟨top, m₄, hstack, h⟩ := bind_ok h
  simp only [pure_run, EStateM.Result.ok.injEq, Prod.mk.injEq] at h
  obtain ⟨⟨rfl, rfl⟩, -⟩ := h
  exact ⟨loadElfMapped_entry hmapped, buildExecStack_rsp hstack⟩

/-! ## Boot -/

/-- The mappings of `kernel_main`: the heap, the user stack and the embedded
program, or the built-in blob if the loader refuses it. -/
def kernelMain (w : Walker) (initElf : List UInt8) : MemM Unit := do
  heapInit w
  mapUserStack w
  match ← attempt Stop.isErr (loadElf w initElf 0) with
  | some entry => modify (setUserEntry entry)
  | none =>
      mapUserBlob w
      modify (setUserImageEnd (userTextBase + pageSize))
      modify (setUserRwImageStart (userTextBase + pageSize))
      modify (setUserEntry userTextBase)

end Rockos.ElfLoader
