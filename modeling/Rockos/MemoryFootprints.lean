import Rockos.ExecStack
import Rockos.LoaderWrites
import Rockos.OldImage

/-!
# What the memory programs are made of

All that the kernel does to the memory of a process comes down to three edits: a
page is mapped to a frame that was free, a page is unmapped and its frame
released, a byte is stored through the page table. A relation that permits these
edits at some addresses bounds every program that keeps to the addresses,
whichever way the program ends.
-/
namespace Rockos.MemoryFootprints
open FallibleState PhysMemory Paging ElfLoader KernelState AddressSpace ProcessCalls
open PageEdits LoadedImage LoaderWrites OldImage

section
variable (R : Mem → Mem → Prop)

/-- The loader clears the frame before it maps the page, the other calls do not. -/
structure MayMap (pages : Set ℕ) : Prop where
  plain : ∀ w {page} flags, page ∈ pages → Within R (mapNewPage w page flags)
  zeroed : ∀ w {page} flags, page ∈ pages → Within R (zeroedPage w page flags)

def MayUnmap (pages : Set ℕ) : Prop := ∀ {virt}, pageOf virt ∈ pages → Within R (releasePage virt)

def MayStore (bytes : Set ℕ) : Prop :=
  ∀ {m va phys} b, va ∈ bytes → translateAddr m va = some phys → R m (writePhys phys b m)

end

section
variable {R : Mem → Mem → Prop} [IsPreorder Mem R] {pages bytes : Set ℕ}

section Rules
variable {α : Type} {f : ℕ → MemM α} {a b : ℕ}

/-- An address that is accepted is passed on sign-extended. -/
theorem within_virtAddr_bind (h : canonical (signExtend a) = true → Within R (f (signExtend a))) :
    Within R (virtAddr a >>= f) := by
  unfold virtAddr
  split_ifs with hcanonical
  · exact h hcanonical
  · exact within_throw Stop.panic

theorem within_addU64_bind (h : Within R (f (a + b))) : Within R (addU64 a b >>= f) := by
  unfold addU64
  split_ifs
  · exact h
  · exact within_throw Stop.panic

end Rules

/-! ## Bytes -/

theorem offsets_tail {va n : ℕ} {g : ℕ → ℕ} (h : ∀ j < n + 1, g (va + j) ∈ bytes) :
    ∀ j < n, g (va + 1 + j) ∈ bytes := by
  intro j hj
  rw [Nat.add_assoc, Nat.add_comm 1 j]
  exact h (j + 1) (Nat.succ_lt_succ hj)

section
variable (hstore : MayStore R bytes)
include hstore

theorem storeByte_within {va : ℕ} (b : UInt8) (hva : va ∈ bytes) :
    Within R (storeByte va b) := by
  intro m
  simp only [storeByte, bind_run, get_run]
  cases he : m.pt.entries (pageOf va) with
  | none => exact Std.Refl.refl m
  | some e =>
      have hphys : translateAddr m va = some (e.frame * pageSize + va % pageSize) := by
        rw [translateAddr, he, Option.map_some]
      simp only
      split_ifs
      · exact hstore b hva hphys
      · exact Std.Refl.refl m

theorem storeBytes_within {va : ℕ} (bs : List UInt8) (hva : ∀ j < bs.length, va + j ∈ bytes) :
    Within R (storeBytes va bs) := by
  induction bs generalizing va with
  | nil => exact within_pure _
  | cons b bs ih =>
      exact within_bind (storeByte_within hstore b (hva 0 (Nat.succ_pos _))) fun _ =>
        ih (offsets_tail (g := id) hva)

theorem writeUserByte_within {va : ℕ} (b : UInt8) (hva : signExtend va ∈ bytes) :
    Within R (writeUserByte va b) := by
  refine within_virtAddr_bind fun _ m => ?_
  rw [bind_run, get_run]
  cases hphys : translateAddr m (signExtend va) with
  | none =>
      simp only [hphys]
      exact Std.Refl.refl m
  | some phys =>
      simp only [hphys]
      exact hstore b hva hphys

theorem writeUserBytes_within {va : ℕ} (bs : List UInt8)
    (hva : ∀ j < bs.length, signExtend (va + j) ∈ bytes) : Within R (writeUserBytes va bs) := by
  induction bs generalizing va with
  | nil => exact within_pure _
  | cons b bs ih =>
      exact within_bind (writeUserByte_within hstore b (hva 0 (Nat.succ_pos _))) fun _ =>
        ih (offsets_tail hva)

theorem copyUserByte_within (src : ℕ) {dst i : ℕ} (hdst : signExtend (dst + i) ∈ bytes) :
    Within R (copyUserByte src dst i) := by
  refine within_virtAddr_bind fun _ => within_virtAddr_bind fun _ m => ?_
  rw [bind_run, get_run]
  cases hsrc : translateAddr m (signExtend (src + i)) with
  | none =>
      simp only [hsrc]
      exact Std.Refl.refl m
  | some ps =>
      cases hphys : translateAddr m (signExtend (dst + i)) with
      | none =>
          simp only [hsrc, hphys]
          exact Std.Refl.refl m
      | some pd =>
          simp only [hsrc, hphys]
          exact hstore _ hdst hphys

theorem copyUserPages_within {src dst len : ℕ} (hdst : ∀ j < len, signExtend (dst + j) ∈ bytes) :
    Within R (copyUserPages src dst len) :=
  within_countLoop_range _ _ _ fun i _ _ hi =>
    copyUserByte_within hstore src (hdst i (by omega))

/-- The initial stack is written to the last page below the stack top. -/
theorem buildExecStack_within (md : ElfLoadedMeta) (argv envp : List (List UInt8))
    (hstack : Set.Ico (userStackTop - pageSize) userStackTop ⊆ bytes) :
    Within R (buildExecStack md argv envp) := by
  unfold buildExecStack
  rw [ExecStack.execStackBlock_eq]
  split_ifs with hfits
  · refine within_bind (writeUserBytes_within hstore _ fun j hj => ?_) fun _ => within_pure _
    rw [ExecStack.length_block] at hj
    have hpage : userStackTop - pageSize + pageSize = userStackTop := rfl
    have htop : userStackTop < 2 ^ 47 := by decide
    rw [signExtend_of_lt (by omega)]
    exact hstack ⟨by omega, by omega⟩
  · exact within_throw _

end

/-! ## The loader -/

/-- The pages a segment maps and the bytes it copies. -/
structure Covers (pages bytes : Set ℕ) (ph : ProgramHeader) : Prop where
  pages : ∀ page ∈ LoadedImage.pages ph, page ∈ pages
  bytes : ∀ j < ph.filesz, signExtend (ph.vaddr + j) ∈ bytes

section
variable (hmap : MayMap R pages) (hstore : MayStore R bytes)
include hstore

theorem copySegmentByte_within (image : List UInt8) {seg j : ℕ} (pOffset : ℕ)
    (hva : signExtend (seg + j) ∈ bytes) : Within R (copySegmentByte image seg pOffset j) := by
  refine within_addU64_bind (within_ite (within_throw _) ?_)
  refine within_addU64_bind (within_virtAddr_bind fun _ m => ?_)
  rw [bind_run, get_run]
  cases hphys : translateAddr m (signExtend (seg + j)) with
  | none =>
      simp only [hphys]
      exact Std.Refl.refl m
  | some phys =>
      simp only [hphys]
      exact hstore _ hva hphys

include hmap

theorem loadSegment_within (w : Walker) (image : List UInt8) (phoff : ℕ) {ph : ProgramHeader}
    (acc : LoadAcc) (hvaddr : ph.vaddr < 2 ^ 64) (hph : Covers pages bytes ph) :
    Within R (loadSegment w image 0 phoff ph acc) := by
  have hphdr : Within R (phdrAddress phoff ph ph.vaddr acc.phdrVa) :=
    within_ite (within_bind (within_addU64 _ _) fun _ => within_pure _) (within_pure _)
  simp only [loadSegment, Nat.add_zero, Nat.mod_eq_of_lt hvaddr]
  refine within_bind hphdr fun phdrVa => within_virtAddr_bind fun hstart => ?_
  refine within_addU64_bind (within_virtAddr_bind fun _ => within_virtAddr_bind fun hlast => ?_)
  refine within_bind ?_ fun _ => within_bind ?_ fun _ => within_pure _
  · exact within_forPages_list (canonicalPage_pageOf hstart) (canonicalPage_pageOf hlast)
      fun page hpage => hmap.zeroed w _ (hph.pages page hpage)
  · rw [copySegment]
    exact within_countLoop_range _ _ _ fun j _ _ hj =>
      copySegmentByte_within hstore image ph.offset (hph.bytes j (by omega))

theorem loadElfMapped_within (w : Walker) {image : List UInt8}
    (himage : ∀ ph ∈ loadHeaders image, Covers pages bytes ph) :
    Within R (loadElfMapped w image 0) := by
  unfold loadElfMapped
  cases hh : fileHeader image with
  | error reason => exact within_throw _
  | ok h =>
      refine within_bind (within_countLoop_range _ _ _ fun i acc _ hi => ?_) fun acc => ?_
      · refine within_addU64_bind (within_addU64_bind (within_ite (within_throw _) ?_))
        change Within _ (if (headerAt image h i).type ≠ 1 then _ else _)
        split_ifs with htype _ hmem
        · exact within_pure _
        · exact within_throw _
        · exact within_pure _
        · have hph : headerAt image h i ∈ loadHeaders image := by
            rw [loadHeaders_of_ok hh]
            exact mem_segments.mpr ⟨⟨i, by omega, rfl⟩, not_not.mp htype, hmem⟩
          exact loadSegment_within hmap hstore w image h.phoff acc (field_lt _ 16 8) (himage _ hph)
      · cases acc.phdrVa with
        | none => exact within_throw _
        | some phdr => exact within_pure _

end

/-- The old image is unmapped up to the end that memory has recorded for it. -/
theorem unmapOldImage_within (hunmap : MayUnmap R pages) {m : Mem}
    (hpages : ∀ page ∈ oldPages m, page ∈ pages) : R m (final (unmapOldImageBestEffort m)) := by
  have hloop : Within R
      (countLoop (fun i _ => unmapImagePage (userTextBase + i * pageSize)) 0 (imagePages m)
        ()) := by
    refine within_countLoop_range _ _ _ fun i _ _ hi => within_virtAddr_bind fun _ => ?_
    exact within_bind within_get fun _ => within_ite
      (hunmap (hpages _ (mem_steppedPages.mpr ⟨i, by omega, rfl⟩))) (within_pure _)
  rw [unmapOldImage_eq]
  exact hloop m

/-! ## Memory calls -/

theorem mapBrkShrink_within (hunmap : MayUnmap R pages) {newEnd oldEnd : ℕ}
    (hpages : ∀ page ∈ pagesOf (alignUp newEnd pageSize) (oldEnd - 1), page ∈ pages) :
    Within R (mapBrkShrink newEnd oldEnd) := by
  unfold mapBrkShrink
  split_ifs with hnone hsame
  · exact within_pure _
  · exact within_pure _
  · refine within_virtAddr_bind fun hfirst => within_virtAddr_bind fun hlast => ?_
    refine within_forPages_list (canonicalPage_pageOf hfirst) (canonicalPage_pageOf hlast)
      fun page hpage => ?_
    refine within_bind within_get fun m => within_ite (within_pure _) (hunmap ?_)
    rw [pageOf_mul]
    exact hpages page hpage

section
variable (hmap : MayMap R pages)
include hmap

theorem mapBrkGrow_within (w : Walker) {oldEnd newEnd : ℕ} (flags : PageTableFlags)
    (hpages : ∀ page ∈ pagesOf oldEnd (newEnd - 1), page ∈ pages) :
    Within R (mapBrkGrow w oldEnd newEnd flags) := by
  refine within_virtAddr_bind fun hfirst => within_virtAddr_bind fun hlast => ?_
  refine within_forPages_list (canonicalPage_pageOf hfirst) (canonicalPage_pageOf hlast)
    fun page hpage => ?_
  exact within_bind within_get fun m =>
    within_ite (within_pure _) (hmap.plain w flags (hpages page hpage))

theorem mapUserAnonPages_within (w : Walker) {start count : ℕ} (flags : PageTableFlags)
    (hpages : ∀ page ∈ steppedPages start count, page ∈ pages) :
    Within R (mapUserAnonPages w start count flags) :=
  within_countLoop_range _ _ _ fun i _ _ hi => within_virtAddr_bind fun _ =>
    hmap.plain w flags (hpages _ (mem_steppedPages.mpr ⟨i, by omega, rfl⟩))

/-- The copy has the length of what is in use of the stack, so it starts at the
offset of the stack pointer in the page of the child. -/
theorem mapChildStackAndCopy_within (hstore : MayStore R bytes) (w : Walker)
    (saved : SyscallFrame.SyscallSaved) (hpage : pageOf childStackLo ∈ pages)
    (hbytes : ∀ j < userStackTop - saved.userRsp.toNat,
      childStackLo + (saved.userRsp.toNat - (userStackTop - pageSize)) + j ∈ bytes) :
    Within R (mapChildStackAndCopy w saved) := by
  refine within_bind (within_virtAddr_bind fun _ => within_bind within_get fun m =>
    within_ite (hmap.plain w _ hpage) (within_pure _)) fun _ => ?_
  change Within _ (if saved.userRsp.toNat ≥ userStackTop then _ else _)
  split_ifs with hsrc
  · exact within_throw _
  · refine copyUserPages_within hstore fun j hj => ?_
    have hchild : childStackLo = 0x402000 := rfl
    have htop : userStackTop = 0x402000 := rfl
    rw [signExtend_of_lt (by omega)]
    exact hbytes j hj

end

theorem unmapUserRange_within (hunmap : MayUnmap R pages) {start count : ℕ}
    (hpages : ∀ page ∈ steppedPages start count, page ∈ pages) :
    Within R (unmapUserRange start count) :=
  within_countLoop_range _ _ _ fun i _ _ hi => within_virtAddr_bind fun _ =>
    hunmap (hpages _ (mem_steppedPages.mpr ⟨i, by omega, rfl⟩))

end

end Rockos.MemoryFootprints
