import Rockos.FallibleState
import Rockos.PhysMemory

/-!
# Page table, physical memory and the boot mappings (paging.rs, heap.rs, user.rs)

There is one page table for everything. Pages and frames are named by their
numbers; an entry is what a 4 KiB leaf of the table holds. Only pages created
by this kernel are recorded: the mappings of the bootloader are taken to lie
outside the pages that the functions below touch.

The mapper itself is the `x86_64` crate. What the kernel relies on is written
out in `mapTo` and `unmap`: a mapped page is refused and left alone, otherwise
exactly that page is mapped; on the way down, missing intermediate tables are
filled with frames of the same allocator. How many are missing, and whether a
huge page blocks the way, is a parameter (`Walker`), so every result holds for
all of them.
-/
namespace Rockos.Paging
open FallibleState PhysMemory

/-- Why a call did not come back with a value. `panic` stands for the panic and
fault handlers, which never return; `blocked` for a wait that never ends. -/
inductive Stop where
  | err (reason : String)
  | panic
  | blocked
  deriving DecidableEq, Repr

def Stop.isErr : Stop → Bool
  | .err _ => true
  | .panic | .blocked => false

structure PageTableFlags where
  present : Bool
  writable : Bool
  userAccessible : Bool
  noExecute : Bool
  deriving DecidableEq, Repr

structure Entry where
  frame : ℕ
  flags : PageTableFlags
  deriving DecidableEq, Repr

/-- `tables` lists the intermediate tables linked so far, each with the page
for whose sake it was created. -/
structure PageTable where
  entries : ℕ → Option Entry
  tables : List (ℕ × ℕ)

/-- The part of the table walk that depends on the machine: from the tables
linked so far and a page, the number of tables missing on its path, and
whether the path is blocked. -/
structure Walker where
  missing : List (ℕ × ℕ) → ℕ → ℕ
  blocked : List (ℕ × ℕ) → ℕ → Bool

/-- No table is ever missing, and no huge page is in the way. -/
def flatWalker : Walker := ⟨fun _ _ => 0, fun _ _ => false⟩

/-- The statics of user.rs. -/
structure UserImage where
  imageEnd : ℕ
  rwImageStart : ℕ
  entryRip : ℕ
  deriving DecidableEq, Repr

structure Mem where
  fa : BitmapFrameAllocator
  pt : PageTable
  ram : ℕ → UInt8
  image : UserImage

abbrev MemM := EStateM Stop Mem

def userTextBase : ℕ := 0x400000

/-- Memory when the kernel takes over: no page of its own is mapped yet. -/
def memInit (memoryMap : List MemoryRegion) : Mem where
  fa := .new memoryMap
  pt := ⟨fun _ => none, []⟩
  ram := fun _ => 0
  image := ⟨userTextBase + pageSize, userTextBase + pageSize, userTextBase⟩

/-- The addresses that the processor accepts: bits 47 to 63 are all equal. -/
def canonical (a : ℕ) : Bool := a < 2 ^ 47 || (2 ^ 64 - 2 ^ 47 ≤ a && a < 2 ^ 64)

/-- Bit 47 copied to the bits above it, if none of those is set. -/
def signExtend (a : ℕ) : ℕ := if 2 ^ 47 ≤ a ∧ a < 2 ^ 48 then a + (2 ^ 64 - 2 ^ 48) else a

/-- `VirtAddr::new`: an address of 48 bits is sign-extended, and any other must be
canonical. -/
def virtAddr (a : ℕ) : MemM ℕ :=
  if canonical (signExtend a) then pure (signExtend a) else throw .panic

/-- Checked `u64` addition. -/
def addU64 (a b : ℕ) : MemM ℕ := if a + b < 2 ^ 64 then pure (a + b) else throw .panic

def u64Max : ℕ := 2 ^ 64 - 1

def saturatingAdd (a b : ℕ) : ℕ := min (a + b) u64Max

/-- `Page::containing_address`. -/
def pageOf (a : ℕ) : ℕ := a / pageSize

/-- `page + 1`, which is sign-extended as well: the last page of the lower half is
followed by the first of the upper half. -/
def nextPage (page : ℕ) : ℕ := pageOf (signExtend ((page + 1) * pageSize))

/-! ## Addresses -/

theorem canonical_iff {a : ℕ} :
    canonical a = true ↔ a < 2 ^ 47 ∨ 2 ^ 64 - 2 ^ 47 ≤ a ∧ a < 2 ^ 64 := by
  rw [canonical, Bool.or_eq_true, Bool.and_eq_true, decide_eq_true_eq, decide_eq_true_eq,
    decide_eq_true_eq]

theorem signExtend_of_canonical {a : ℕ} (h : canonical a = true) : signExtend a = a := by
  rw [canonical_iff] at h
  exact if_neg (by omega)

theorem canonical_of_lt {a : ℕ} (h : a < 2 ^ 47) : canonical a = true :=
  canonical_iff.mpr (.inl h)

theorem signExtend_of_lt {a : ℕ} (h : a < 2 ^ 47) : signExtend a = a :=
  signExtend_of_canonical (canonical_of_lt h)

/-- The pages that have an address. -/
def CanonicalPage (page : ℕ) : Prop := canonical (page * pageSize) = true

theorem canonicalPage_iff {page : ℕ} :
    CanonicalPage page ↔ page < 2 ^ 35 ∨ 2 ^ 52 - 2 ^ 35 ≤ page ∧ page < 2 ^ 52 := by
  rw [CanonicalPage, canonical_iff, pageSize]
  omega

theorem canonicalPage_pageOf {a : ℕ} (h : canonical a = true) : CanonicalPage (pageOf a) := by
  rw [canonical_iff] at h
  rw [canonicalPage_iff, pageOf, pageSize]
  omega

theorem nextPage_eq (page : ℕ) : nextPage page =
    if 2 ^ 35 ≤ page + 1 ∧ page + 1 < 2 ^ 36 then page + 1 + (2 ^ 52 - 2 ^ 36) else page + 1 := by
  unfold nextPage pageOf signExtend pageSize
  split_ifs <;> omega

theorem lt_nextPage (page : ℕ) : page < nextPage page := by
  rw [nextPage_eq]
  split_ifs <;> omega

section
variable {page q last : ℕ}

/-- No page lies between a page and the next one. -/
theorem lt_nextPage_iff (hpage : CanonicalPage page) (hq : CanonicalPage q) :
    q < nextPage page ↔ q ≤ page := by
  rw [canonicalPage_iff] at hpage hq
  rw [nextPage_eq]
  split_ifs <;> omega

theorem canonicalPage_nextPage (hpage : CanonicalPage page) (hlast : CanonicalPage last)
    (hle : nextPage page ≤ last) : CanonicalPage (nextPage page) := by
  rw [canonicalPage_iff] at hpage hlast ⊢
  rw [nextPage_eq] at hle ⊢
  split_ifs at hle ⊢ <;> omega

end

/-- `fa.allocate_frame()` followed by `ok_or` or `expect`. -/
def takeFrame (otherwise : Stop) : MemM ℕ := fun m =>
  match allocateFrame m.fa with
  | none => .error otherwise m
  | some (f, fa) => .ok f { m with fa := fa }

def linkTable (page : ℕ) : MemM Unit := do
  let f ← takeFrame (.err "FrameAllocationFailed")
  modify fun m => { m with pt := { m.pt with tables := (page, f) :: m.pt.tables } }

def setEntry (page : ℕ) (e : Option Entry) (m : Mem) : Mem :=
  { m with pt := { m.pt with entries := Function.update m.pt.entries page e } }

/-- Fill the missing levels on the way to a page. -/
def linkMissing (w : Walker) (page : ℕ) : MemM Unit := do
  let m ← get
  countLoop (fun _ _ => linkTable page) 0 (w.missing m.pt.tables page) ()

/-- Write the leaf entry, if the way is clear and the leaf is not in use. -/
def writeLeaf (w : Walker) (page frame : ℕ) (flags : PageTableFlags) : MemM Unit := do
  let m ← get
  if w.blocked m.pt.tables page then throw (.err "ParentEntryHugePage") else
    match m.pt.entries page with
    | some _ => throw (.err "PageAlreadyMapped")
    | none => modify (setEntry page (some ⟨frame, flags⟩))

def mapTo (w : Walker) (page frame : ℕ) (flags : PageTableFlags) : MemM Unit := do
  linkMissing w page
  writeLeaf w page frame flags

theorem writeLeaf_cases (w : Walker) (page frame : ℕ) (flags : PageTableFlags) (m : Mem) :
    (∃ reason, writeLeaf w page frame flags m = .error (.err reason) m) ∨
    (m.pt.entries page = none ∧
      writeLeaf w page frame flags m = .ok () (setEntry page (some ⟨frame, flags⟩) m)) := by
  cases hb : w.blocked m.pt.tables page with
  | true => exact .inl ⟨"ParentEntryHugePage", by simp [writeLeaf, bind_run, hb]⟩
  | false =>
      cases hp : m.pt.entries page with
      | some e => exact .inl ⟨"PageAlreadyMapped", by simp [writeLeaf, bind_run, hb, hp]⟩
      | none => exact .inr ⟨rfl, by simp [writeLeaf, bind_run, hb, hp]⟩

def translateAddr (m : Mem) (va : ℕ) : Option ℕ :=
  (m.pt.entries (pageOf va)).map fun e => e.frame * pageSize + va % pageSize

def unmap (page : ℕ) : MemM ℕ := do
  match (← get).pt.entries page with
  | none => throw (.err "PageNotMapped")
  | some e =>
      modify (setEntry page none)
      pure e.frame

def unmap4kAndFreeBitmap (virt : ℕ) : MemM Unit := do
  let frame ← unmap (pageOf virt)
  modify fun m => { m with fa := deallocateFrame m.fa frame }

theorem unmap4kAndFreeBitmap_cases (virt : ℕ) (m : Mem) :
    (m.pt.entries (pageOf virt) = none ∧
      unmap4kAndFreeBitmap virt m = .error (.err "PageNotMapped") m) ∨
    (∃ e, m.pt.entries (pageOf virt) = some e ∧ unmap4kAndFreeBitmap virt m =
      .ok () { setEntry (pageOf virt) none m with fa := deallocateFrame m.fa e.frame }) := by
  cases hp : m.pt.entries (pageOf virt) with
  | none => exact .inl ⟨rfl, by simp [unmap4kAndFreeBitmap, unmap, bind_run, hp]⟩
  | some e => exact .inr ⟨e, rfl, by
      simp [unmap4kAndFreeBitmap, unmap, bind_run, map_run, hp, setEntry]⟩

/-- `let _ = unmap_4k_and_free_bitmap(..)`: an unmapped page is passed over. -/
def releasePage (virt : ℕ) : MemM Unit := do
  let _ ← attempt Stop.isErr (unmap4kAndFreeBitmap virt)
  pure ()

/-- `.expect(..)` on a failed call panics. -/
def expect {α : Type} (x : MemM α) : MemM α := fun m =>
  match x m with
  | .error (.err _) t => .error .panic t
  | r => r

/-- `.map_err(|_| reason)`. -/
def mapErr {α : Type} (reason : String) (x : MemM α) : MemM α := fun m =>
  match x m with
  | .error (.err _) t => .error (.err reason) t
  | r => r

/-- `allocate_frame().ok_or(())?` and `map_to(..).map_err(|_| ())?`. -/
def mapNewPage (w : Walker) (page : ℕ) (flags : PageTableFlags) : MemM Unit := do
  let frame ← takeFrame (.err "()")
  mapErr "()" (mapTo w page frame flags)

/-- `for page in Page::range_inclusive(first, last)`. The iterator hands out pages
until it is past the last one, which takes no more than `last + 1 - first` steps. -/
def forPages (first last : ℕ) (body : ℕ → MemM Unit) : MemM Unit := do
  let _ ← countLoop (fun _ page => do
    if page ≤ last then
      body page
      pure (nextPage page)
    else pure page) 0 (last + 1 - first) first

section Rules
variable {α : Type} {P I : Mem → Prop} {Q : α → Mem → Prop} {R : Mem → Mem → Prop}

theorem meets_virtAddr (a : ℕ) (h : ∀ m, P m → I m) :
    Meets P (virtAddr a) (fun _ => P) (fun _ => I) :=
  meets_ite (fun _ => meets_pure _ fun _ hm => hm) (fun _ => meets_throw _ h)

theorem meets_virtAddr_bind {Err : Stop → Mem → Prop} {a : ℕ} {f : ℕ → MemM α}
    (hpanic : canonical (signExtend a) = false → ∀ m, P m → Err .panic m)
    (h : canonical (signExtend a) = true → Meets P (f (signExtend a)) Q Err) :
    Meets P (virtAddr a >>= f) Q Err := by
  unfold virtAddr
  split_ifs with hcanonical
  · exact h hcanonical
  · exact hpanic (by simpa using hcanonical)

theorem meets_mapErr {reason : String} {x : MemM α} (h : Meets P x Q (fun _ => I)) :
    Meets P (mapErr reason x) Q (fun _ => I) := by
  intro m hm
  have hx := h m hm
  unfold mapErr
  cases hr : x m with
  | ok a t => simpa [hr] using hx
  | error e t => cases e <;> simpa [hr] using hx

theorem meets_expect {x : MemM α} (h : Meets P x Q (fun _ => I)) :
    Meets P (expect x) Q (fun _ => I) := by
  intro m hm
  have hx := h m hm
  unfold expect
  cases hr : x m with
  | ok a t => simpa [hr] using hx
  | error e t => cases e <;> simpa [hr] using hx

theorem mapErr_ok {reason : String} {x : MemM α} {m m' : Mem} {a : α}
    (h : mapErr reason x m = .ok a m') : x m = .ok a m' := by
  unfold mapErr at h
  cases hx : x m with
  | ok b t => simpa [hx] using h
  | error e t => cases e <;> simp [hx] at h

theorem virtAddr_bind_ok {a : ℕ} {f : ℕ → MemM α} {m m' : Mem} {b : α}
    (h : (virtAddr a >>= f) m = .ok b m') :
    canonical (signExtend a) = true ∧ f (signExtend a) m = .ok b m' := by
  unfold virtAddr at h
  split_ifs at h with hcanonical
  · exact ⟨hcanonical, h⟩
  · cases h

theorem virtAddr_of_lt {a : ℕ} (h : a < 2 ^ 47) : virtAddr a = pure a := by
  rw [virtAddr, signExtend_of_lt h, if_pos (canonical_of_lt h)]

theorem addU64_bind_ok {x y : ℕ} {f : ℕ → MemM α} {m m' : Mem} {b : α}
    (h : (addU64 x y >>= f) m = .ok b m') : x + y < 2 ^ 64 ∧ f (x + y) m = .ok b m' := by
  unfold addU64 at h
  split_ifs at h with hlt
  · exact ⟨hlt, h⟩
  · cases h

theorem forPages_self (page : ℕ) (body : ℕ → MemM Unit) : forPages page page body = body page := by
  simp [forPages, countLoop]

/-- A loop over pages, from a statement about one page. The invariant is indexed by
the page that comes next. -/
theorem meets_forPages {first last : ℕ} {body : ℕ → MemM Unit} (I : ℕ → Mem → Prop)
    {Err : Stop → Mem → Prop}
    (hbody : ∀ page, first ≤ page → page ≤ last →
      Meets (I page) (body page) (fun _ => I (nextPage page)) Err) :
    Meets (I first) (forPages first last body) (fun _ m => ∃ page, last < page ∧ I page m)
      Err := by
  -- a step moves the iterator by one page at least, so the steps suffice to get past the last
  refine meets_bind (Q := fun page m => last < page ∧ I page m) ((meets_countLoop
    (fun i page m => (first ≤ page ∧ (first + i ≤ page ∨ last < page)) ∧ I page m) 0
    (last + 1 - first) first ?_).mono (fun m hm => ⟨by omega, hm⟩)
    (fun page m hm => ⟨by omega, hm.2⟩) (fun _ _ h => h)) fun page => meets_pure _ fun m hm =>
    ⟨page, hm⟩
  intro i page _ _ m hm
  have hlt := lt_nextPage page
  by_cases hle : page ≤ last
  · simp only [if_pos hle]
    refine meets_bind (hbody page hm.1.1 hle) (fun _ => meets_pure _ fun t ht => ⟨?_, ht⟩) m hm.2
    omega
  · simp only [if_neg hle]
    exact ⟨by omega, hm.2⟩

/-- The invariant of a page loop that returned. -/
theorem forPages_ok {first last : ℕ} {body : ℕ → MemM Unit} (I : ℕ → Mem → Prop) {m m' : Mem}
    (h : forPages first last body m = .ok () m') (hm : I first m)
    (hbody : ∀ page s t, first ≤ page → page ≤ last → I page s → body page s = .ok () t →
      I (nextPage page) t) : ∃ page, last < page ∧ I page m' := by
  have hloop : Meets (I first) (forPages first last body)
      (fun _ m => ∃ page, last < page ∧ I page m) fun _ _ => True := by
    refine meets_forPages I fun page hlo hhi s hs => ?_
    cases hrun : body page s with
    | ok _ t => exact hbody page s t hlo hhi hs hrun
    | error e t => trivial
  have hend := hloop m hm
  rwa [h] at hend

variable [IsPreorder Mem R]

theorem within_virtAddr (a : ℕ) : Within R (virtAddr a) :=
  within_ite (within_pure _) (within_throw _)

theorem within_addU64 (a b : ℕ) : Within R (addU64 a b) :=
  within_ite (within_pure _) (within_throw _)

theorem within_forPages_range {first last : ℕ} {body : ℕ → MemM Unit}
    (h : ∀ page, first ≤ page → page ≤ last → Within R (body page)) :
    Within R (forPages first last body) := by
  intro m
  have hloop : Meets (R m) (forPages first last body) (fun _ => R m) (fun _ => R m) := by
    refine (meets_forPages (fun _ => R m) fun page hlo hhi => (h page hlo hhi).continues m).mono
      (fun _ h => h) (fun _ t h => ?_) (fun _ _ h => h)
    obtain ⟨_, -, ht⟩ := h
    exact ht
  exact hloop.both (refl m)

theorem within_forPages (first last : ℕ) {body : ℕ → MemM Unit}
    (h : ∀ page, Within R (body page)) : Within R (forPages first last body) :=
  within_forPages_range fun page _ _ => h page

end Rules

/-- A store through the window that maps all of physical memory. -/
def writePhys (pa : ℕ) (b : UInt8) (m : Mem) : Mem := { m with ram := Function.update m.ram pa b }

/-- `write_bytes(kv, 0, 4096)` on a whole frame. -/
def zeroFrame (frame : ℕ) (m : Mem) : Mem :=
  { m with ram := fun pa => if pa / pageSize = frame then 0 else m.ram pa }

/-- The byte a user virtual address holds, if its page is mapped. -/
def userByte (m : Mem) (va : ℕ) : Option UInt8 := (translateAddr m va).map m.ram

/-- What a load of the processor finds at an address of 64 bits: it does not
sign-extend. -/
def userLoad (m : Mem) (va : ℕ) : Option UInt8 := if canonical va then userByte m va else none

theorem userLoad_of_canonical {va : ℕ} (h : canonical va = true) (m : Mem) :
    userLoad m va = userByte m va :=
  if_pos h

theorem canonical_of_userLoad {m : Mem} {va : ℕ} (h : (userLoad m va).isSome) :
    canonical va = true := by
  by_contra hva
  rw [userLoad, if_neg hva] at h
  cases h

/-! ## The mappings made while booting -/

def heapStart : ℕ := 0x444444440000

def heapPages : ℕ := 64

def userStackTop : ℕ := 0x402000

/-- `PRESENT | WRITABLE | USER_ACCESSIBLE | NO_EXECUTE`. -/
def userDataFlags : PageTableFlags := ⟨true, true, true, true⟩

/-- heap.rs: back the heap range page by page. -/
def heapInit (w : Walker) : MemM Unit :=
  countLoop (fun i _ => do
    let virt ← virtAddr (heapStart + i * pageSize)
    let frame ← takeFrame .panic
    expect (mapTo w (pageOf virt) frame ⟨true, true, false, true⟩)) 0 heapPages ()

def mapUserStack (w : Walker) : MemM Unit := do
  let stackFrame ← takeFrame .panic
  let va ← virtAddr (userStackTop - 1)
  expect (mapTo w (pageOf va) stackFrame userDataFlags)

/-- `USER_BLOB`: the built-in ring-3 demo. -/
def userBlob : List UInt8 :=
  [0x31, 0xc0, 0xff, 0xc0, 0x48, 0x8d, 0x35, 0x0f, 0x00, 0x00, 0x00, 0x48, 0x31, 0xd2,
    0x48, 0x83, 0xc2, 0x0c, 0x48, 0x31, 0xff, 0x0f, 0x05, 0xf4, 0xeb, 0xfe,
    0x75, 0x73, 0x65, 0x72, 0x6c, 0x61, 0x6e, 0x64, 0x21, 0x0a, 0, 0]

/-- `copy_blob_to_frame`; the blob fits one page. -/
def copyBlobToFrame (frame : ℕ) (m : Mem) : Mem :=
  { m with ram := fun pa =>
      if pa / pageSize = frame then userBlob.getD (pa % pageSize) (m.ram pa) else m.ram pa }

def mapUserBlob (w : Walker) : MemM Unit := do
  let codeFrame ← takeFrame .panic
  modify (copyBlobToFrame codeFrame)
  let va ← virtAddr userTextBase
  expect (mapTo w (pageOf va) codeFrame ⟨true, false, true, false⟩)

def setUserImageEnd (endExclusive : ℕ) (m : Mem) : Mem :=
  { m with image := { m.image with imageEnd := endExclusive } }

def setUserRwImageStart (lo : ℕ) (m : Mem) : Mem :=
  { m with image := { m.image with rwImageStart := lo } }

def setUserEntry (rip : ℕ) (m : Mem) : Mem :=
  { m with image := { m.image with entryRip := rip } }

end Rockos.Paging
