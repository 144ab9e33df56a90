import Rockos.ForkStacks
import Rockos.PointerChecks

/-!
# One address space for all processes

`fork` copies the books of a process but not its pages: parent and child claim
the same heap and the same areas of the one page table. Whoever shrinks the heap
or unmaps an area takes the pages away from everybody. The results below say
which pages a call takes away, and that all others stay where they are, whoever
makes the calls and in whatever order.

The scheduler plays no role here: any live process may make the next call.
-/
namespace Rockos.SharedSpace
open FallibleState PhysMemory Paging KernelState AddressSpace ProcessCalls Runs
open FrameSafety PageEdits PointerChecks UserMemory SyscallEffects ForkStacks Syscall

inductive SpaceCall where
  | edit (c : MemCall)
  | fork (mem : UInt64 → UInt64) (rsp childKstackTop : UInt64)
  | exit (status : Int32)
  | wait (target : ℤ)

def SpaceCall.run (w : Walker) : SpaceCall → KernelM Unit
  | .edit c => do let _ ← c.run w
  | .fork mem rsp childKstackTop => do let _ ← sysFork w mem rsp childKstackTop
  | .exit status => modify (markExited status)
  | .wait target => do let _ ← waitReap target

/-- One call by the process in a slot, if that process is alive and the call returns. -/
def spaceStep (w : Walker) (i : ℕ × SpaceCall) (k : Kernel) : Option (Unit × Kernel) :=
  if slotIsAliveRunnable k i.1 then returned (i.2.run w (setCurrentSlot i.1 k)) else none

/-- The pages that a process gives up: those from the new heap end up to the old
one, or those of its own area. -/
def GivesUp (p : Process) : SpaceCall → ℕ → Prop
  | .edit (.brk addr), q => userBrkBase ≤ addr ∧ addr ≤ userBrkLimit ∧
      q ∈ pagesOf (alignUp addr pageSize) (p.brkEnd - 1)
  | .edit (.munmap addr len), q => addr % pageSize = 0 ∧ len ≠ 0 ∧
      (∃ a ∈ p.vmAreas, spansExactly addr (saturatingAdd addr len) a = true) ∧
      q ∈ steppedPages addr (len / pageSize)
  | .edit (.mmap _ _ _), _ | .fork _ _ _, _ | .exit _, _ | .wait _, _ => False

/-! ## One call -/

section
variable {w : Walker} {k k' : Kernel} {p : Process} {v : UInt64}

/-- A page that is mapped is gone after the call if its caller gives it up, and
as it was if not. -/
def RemovesExactly (p : Process) (c : SpaceCall) (m m' : Mem) : Prop :=
  ∀ q e, m.pt.entries q = some e →
    (GivesUp p c q → m'.pt.entries q = none) ∧ (¬ GivesUp p c q → m'.pt.entries q = some e)

theorem RemovesExactly.of_grows {c : SpaceCall} {m m' : Mem} (h : Grows m m')
    (hc : ∀ q, ¬ GivesUp p c q) : RemovesExactly p c m m' :=
  fun q _ he => ⟨fun hq => absurd hq (hc q), fun _ => h.of_some he⟩

theorem editThen_grows {edit : MemM Unit} {books : Kernel → Kernel} {u : UInt64}
    (h : editThen edit books u k = .ok v k') (hgrows : Grows k.mem (final (edit k.mem)))
    (hbooks : ∀ k, (books k).mem = k.mem) : Grows k.mem k'.mem := by
  rcases editThen_cases h with ⟨m, hx, -, rfl⟩ | ⟨reason, m, hx, -, rfl⟩
  · rw [hx] at hgrows
    rwa [hbooks]
  · rwa [hx] at hgrows

/-- A heap that does not shrink gives up nothing. -/
theorem not_givesUp_brk {addr : ℕ} (hle : p.brkEnd ≤ addr) (q : ℕ) :
    ¬ GivesUp p (.edit (.brk addr)) q := by
  rintro ⟨hlo, hhi, hq⟩
  have halign : addr ≤ alignUp addr pageSize := by
    unfold alignUp pageSize
    omega
  rw [shrinkPages_of_le hlo hhi (hle.trans halign)] at hq
  cases hq

theorem brk_exact {addr : ℕ} (hp : k.current = some p) (h : sysBrk w addr k = .ok v k') :
    RemovesExactly p (.edit (.brk addr)) k.mem k'.mem := by
  cases sysBrk_returns hp h with
  | same _ hk hsame =>
      refine hk ▸ RemovesExactly.of_grows (refl _) fun q hq => ?_
      rcases hsame with rfl | rfl
      · exact absurd hq.1 (by decide)
      · exact not_givesUp_brk le_rfl q hq
  | refused _ hk hrange =>
      exact hk ▸ RemovesExactly.of_grows (refl _) fun q ⟨hlo, hhi, _⟩ => by omega
  | shrink hlo hhi hlt hedit =>
      have hspec := mapBrkShrink_meets addr p.brkEnd k.mem rfl
      rcases editThen_cases hedit with ⟨m, hx, -, rfl⟩ | ⟨reason, m, hx, -, -⟩
      · intro q e he
        have hq : m.pt.entries q = _ := mapBrkShrink_ok hlo hhi hx q
        refine ⟨fun ⟨_, _, hgone⟩ => hq.trans (if_pos hgone), fun hkept => ?_⟩
        exact hq.trans ((if_neg fun hgone => hkept ⟨hlo, hhi, hgone⟩).trans he)
      · rw [hx] at hspec
        cases hspec
  | grow hlo hhi hlt hedit =>
      have hgrows := editThen_grows hedit (mapBrkGrow_grows w p.brkEnd addr userDataFlags k.mem)
        fun _ => rfl
      exact RemovesExactly.of_grows hgrows (not_givesUp_brk hlt.le)

theorem mmapAt_grows {addr nPages prot : ℕ} (h : mmapAt w addr nPages prot k = .ok v k') :
    Grows k.mem k'.mem := by
  rw [mmapAt] at h
  exact editThen_grows h (mapUserAnonPages_grows w _ _ _ k.mem) fun _ => rfl

theorem sysMmap_grows {addr len prot : ℕ} (h : sysMmap w addr len prot k = .ok v k') :
    Grows k.mem k'.mem := by
  cases sysMmap_returns h with
  | refused _ hk _ => exact hk ▸ refl _
  | full _ hk _ _ => exact hk ▸ (refl k.mem : Grows k.mem (bumpMmap len k).mem)
  | bumped _ _ _ hat =>
      have hgrows := mmapAt_grows hat
      exact hgrows
  | fixed _ _ _ _ _ hat => exact mmapAt_grows hat

theorem munmap_exact {addr len : ℕ} (hp : k.current = some p)
    (h : sysMunmap addr len k = .ok v k') :
    RemovesExactly p (.edit (.munmap addr len)) k.mem k'.mem := by
  cases sysMunmap_returns hp h with
  | refused _ hk hargs =>
      exact hk ▸ RemovesExactly.of_grows (refl _) fun q ⟨haligned, hlen, _⟩ => by omega
  | unknown _ hk hnone =>
      subst hk
      refine RemovesExactly.of_grows (refl _) fun q ⟨_, _, ⟨a, ha, hspan⟩, _⟩ => ?_
      rw [hnone a ha] at hspan
      cases hspan
  | edit haligned hlen a ha hspan m hk hedit =>
      subst hk
      have hspec := unmapUserRange_meets addr (len / pageSize) k.mem rfl
      rcases hedit with ⟨hx, -⟩ | ⟨⟨reason, hx⟩, -⟩
      · intro q e he
        have hq : m.pt.entries q = _ := unmapUserRange_entries hx q
        refine ⟨fun ⟨_, _, _, hgone⟩ => hq.trans (if_pos hgone), fun hkept => ?_⟩
        exact hq.trans
          ((if_neg fun hgone => hkept ⟨haligned, hlen, ⟨a, ha, hspan⟩, hgone⟩).trans he)
      · rw [hx] at hspec
        cases hspec

theorem fork_grows {mem : UInt64 → UInt64} {rsp top : UInt64}
    (h : sysFork w mem rsp top k = .ok v k') :
    ∀ q e, k.mem.pt.entries q = some e → k'.mem.pt.entries q = some e := by
  intro q e he
  rcases sysFork_mem w mem rsp top k with hmem | hmem
  · rw [h] at hmem
    rw [show k'.mem = k.mem from hmem, he]
  · rw [h] at hmem
    rw [show k'.mem = _ from hmem, mapChildStackAndCopy_pt]
    exact (mapChildStack_grows w k.mem).of_some he

/-- Every call is exact about the pages it takes away. -/
theorem call_exact (c : SpaceCall) (hp : k.current = some p) (h : c.run w k = .ok () k') :
    RemovesExactly p c k.mem k'.mem := by
  cases c with
  | edit c =>
      obtain ⟨v, t, hrun, ht⟩ := bind_ok h
      obtain ⟨-, rfl⟩ := EStateM.Result.ok.inj ht
      cases c with
      | brk addr => exact brk_exact hp hrun
      | mmap addr len prot => exact RemovesExactly.of_grows (sysMmap_grows hrun) fun _ hq => hq
      | munmap addr len => exact munmap_exact hp hrun
  | fork mem rsp top =>
      obtain ⟨v, t, hrun, ht⟩ := bind_ok h
      obtain ⟨-, rfl⟩ := EStateM.Result.ok.inj ht
      exact fun q e he => ⟨False.elim, fun _ => fork_grows hrun q e he⟩
  | exit status =>
      obtain ⟨-, rfl⟩ := EStateM.Result.ok.inj h
      exact RemovesExactly.of_grows (refl _) fun _ hq => hq
  | wait target =>
      obtain ⟨r, t, hrun, ht⟩ := bind_ok h
      obtain ⟨-, rfl⟩ := EStateM.Result.ok.inj ht
      have hmem : t.mem = k.mem := by
        simp only [waitReap, bind_run, get_run] at hrun
        cases hscan : reapScan (currentPid k) target 0 k.procs with
        | none =>
            simp only [hscan, pure_run, EStateM.Result.ok.injEq] at hrun
            rw [← hrun.2]
        | some x =>
            simp only [hscan, bind_run, modify_run, pure_run, EStateM.Result.ok.injEq] at hrun
            rw [← hrun.2]
      rw [hmem]
      exact RemovesExactly.of_grows (refl _) fun _ hq => hq

/-- The books of the other processes stay as they are. -/
theorem call_other (c : SpaceCall) (h : c.run w k = .ok () k') {slot : ℕ}
    (hslot : slot ≠ k.currentSlot) (hp : k.proc slot = some p) (halive : p.exitCode = none) :
    k'.proc slot = some p := by
  cases c with
  | edit c =>
      obtain ⟨v, t, hrun, ht⟩ := bind_ok h
      obtain ⟨-, rfl⟩ := EStateM.Result.ok.inj ht
      have hquiet : Quiet k t := by
        have hbooks := allows_quiet.toAllows.books
        cases c with
        | brk addr => exact (sysBrk_within hbooks w addr).ok hrun
        | mmap addr len prot => exact (sysMmap_within hbooks w addr len prot).ok hrun
        | munmap addr len => exact (sysMunmap_within hbooks addr len).ok hrun
      rw [hquiet.other slot hslot, hp]
  | fork mem rsp top =>
      obtain ⟨v, t, hrun, ht⟩ := bind_ok h
      obtain ⟨-, rfl⟩ := EStateM.Result.ok.inj ht
      rcases sysFork_cases hrun with ⟨-, m, rfl⟩ | ⟨pid, parent, s, -, -, -, -, hforked⟩
      · exact hp
      · have hne : slot ≠ s := by
          rintro rfl
          rw [hforked.free] at hp
          cases hp
        rw [hforked.proc, if_neg hne, hp]
  | exit status =>
      obtain ⟨-, rfl⟩ := EStateM.Result.ok.inj h
      exact (proc_updateProc k _ _ slot).trans ((if_neg hslot).trans hp)
  | wait target =>
      obtain ⟨r, t, hrun, ht⟩ := bind_ok h
      obtain ⟨-, rfl⟩ := EStateM.Result.ok.inj ht
      rcases waitReap_cases hrun with ⟨-, rfl⟩ | ⟨s, z, code, -, -, hreaped⟩
      · exact hp
      · have hne : slot ≠ s := by
          rintro rfl
          obtain rfl : p = z := Option.some.inj (hp.symm.trans hreaped.zombie.1)
          exact hreaped.zombie.2 halive
        rw [hreaped.proc, if_neg hne, hp]

end

/-! ## Runs -/

theorem spaceStep_ok {w : Walker} {i : ℕ × SpaceCall} {k k' : Kernel} {o : Unit}
    (h : spaceStep w i k = some (o, k')) : ∃ p, k.proc i.1 = some p ∧ p.exitCode = none ∧
      i.2.run w (setCurrentSlot i.1 k) = .ok () k' := by
  unfold spaceStep at h
  split_ifs at h with halive
  obtain ⟨o', t, hrun, heq⟩ := ok_of_returned (f := id) (by rwa [Option.map_id])
  obtain ⟨-, rfl⟩ := Prod.mk.inj heq
  unfold slotIsAliveRunnable at halive
  cases hp : k.proc i.1 with
  | none => simp [hp] at halive
  | some p => exact ⟨p, rfl, by simpa [hp] using halive, hrun⟩

/-- The process that makes the call gives up the page. -/
def StepGivesUp (k : Kernel) (i : ℕ × SpaceCall) (q : ℕ) : Prop :=
  ∃ p, k.proc i.1 = some p ∧ GivesUp p i.2 q

theorem step_exact {w : Walker} {i : ℕ × SpaceCall} {k k' : Kernel} {o : Unit}
    (h : spaceStep w i k = some (o, k')) {q : ℕ} {e : Entry} (he : k.mem.pt.entries q = some e) :
    (StepGivesUp k i q → k'.mem.pt.entries q = none) ∧
      (¬ StepGivesUp k i q → k'.mem.pt.entries q = some e) := by
  obtain ⟨p, hp, -, hrun⟩ := spaceStep_ok h
  have hexact := call_exact i.2 (k := setCurrentSlot i.1 k) hp hrun q e he
  constructor
  · rintro ⟨p', hp', hgone⟩
    obtain rfl : p = p' := Option.some.inj (hp.symm.trans hp')
    exact hexact.1 hgone
  · exact fun hkept => hexact.2 fun hgone => hkept ⟨p, hp, hgone⟩

theorem step_other {w : Walker} {i : ℕ × SpaceCall} {k k' : Kernel} {o : Unit}
    (h : spaceStep w i k = some (o, k')) {slot : ℕ} {p : Process} (hslot : i.1 ≠ slot)
    (hp : k.proc slot = some p) (halive : p.exitCode = none) : k'.proc slot = some p := by
  obtain ⟨_, -, -, hcall⟩ := spaceStep_ok h
  have hother : slot ≠ (setCurrentSlot i.1 k).currentSlot := hslot.symm
  exact call_other i.2 hcall hother hp halive

/-- The pages that the books of a process speak of. -/
def Claims (p : Process) (q : ℕ) : Prop :=
  (userBrkBase ≤ q * pageSize ∧ q * pageSize < p.brkEnd) ∨
    ∃ a ∈ p.vmAreas, a.virtStart < (q + 1) * pageSize ∧ q * pageSize < a.virtEnd

section
variable {w : Walker} {k k' : Kernel} {tr : List ((ℕ × SpaceCall) × Unit)}

theorem run_page (hrun : Run (spaceStep w) k tr k') {q : ℕ} {e : Entry}
    (he : k.mem.pt.entries q = some e)
    (hkept : ∀ x i y, Takes (spaceStep w) k tr x i y → ¬ StepGivesUp x i q) :
    k'.mem.pt.entries q = some e := by
  refine hrun.invariant_taken (I := fun x => x.mem.pt.entries q = some e) he ?_
  intro x i y htakes hx
  obtain ⟨_, _, _, _, _, hstep⟩ := id htakes
  exact (step_exact hstep hx).2 (hkept x i y htakes)

theorem run_other (hrun : Run (spaceStep w) k tr k') {slot : ℕ} {p : Process}
    (hp : k.proc slot = some p) (halive : p.exitCode = none)
    (hother : ∀ x i y, Takes (spaceStep w) k tr x i y → i.1 ≠ slot) :
    k'.proc slot = some p := by
  refine hrun.invariant_taken (I := fun x => x.proc slot = some p) hp ?_
  intro x i y htakes hx
  obtain ⟨_, _, _, _, _, hstep⟩ := id htakes
  exact step_other hstep (hother x i y htakes) hx halive

theorem covers_claims {p : Process} {slot addr hi a : ℕ} (hp : k.proc slot = some p)
    (hcovers : coversBrkHeap (setCurrentSlot slot k) addr hi = true ∨
      coversMmapRead (setCurrentSlot slot k) addr hi = true ∨
      coversMmapWrite (setCurrentSlot slot k) addr hi = true)
    (hlo : addr ≤ a) (hhi : a < hi) : Claims p (pageOf a) := by
  have hcur : (setCurrentSlot slot k).current = some p := hp
  have hle := pageOf_mul_le a
  have hlt : a < (pageOf a + 1) * pageSize := by
    rw [Nat.mul_comm]
    exact Nat.lt_mul_div_succ a (by decide)
  have harea : ∀ counts, coversMmap counts (setCurrentSlot slot k) addr hi = true →
      Claims p (pageOf a) := by
    intro counts h
    simp only [coversMmap, hcur, List.any_eq_true, Bool.and_eq_true, decide_eq_true_eq] at h
    obtain ⟨area, hmem, ⟨-, hstart⟩, hend⟩ := h
    exact .inr ⟨area, hmem, by omega, by omega⟩
  rcases hcovers with h | h | h
  · simp only [coversBrkHeap, hcur, Bool.and_eq_true, decide_eq_true_eq] at h
    obtain ⟨⟨hbase, hend⟩, -⟩ := h
    exact .inl ⟨aligned_le_pageOf (by decide) (by omega), by omega⟩
  · exact harea _ h
  · exact harea _ h

end

/-- A page stays with its frame if and only if nobody gives it up. So as long as
nobody gives up what a process claims, whatever the others do, the pointer
checks of that process speak of mapped memory. -/
theorem pages_stay_iff_kept (w : Walker) (k k' : Kernel) (tr : List ((ℕ × SpaceCall) × Unit))
    (hrun : Run (spaceStep w) k tr k') :
    (∀ q e, k.mem.pt.entries q = some e →
      ((∀ x i y, Takes (spaceStep w) k tr x i y → y.mem.pt.entries q = some e) ↔
        ∀ x i y, Takes (spaceStep w) k tr x i y → ¬ StepGivesUp x i q)) ∧
    ∀ slot p, k.proc slot = some p → p.exitCode = none →
      (∀ x i y, Takes (spaceStep w) k tr x i y → i.1 ≠ slot) →
      (∀ q, Claims p q → (k.mem.pt.entries q).isSome ∧
        ∀ x i y, Takes (spaceStep w) k tr x i y → ¬ StepGivesUp x i q) →
      ∀ addr hi a, addr ≤ a → a < hi →
        (coversBrkHeap (setCurrentSlot slot k') addr hi = true ∨
          coversMmapRead (setCurrentSlot slot k') addr hi = true ∨
          coversMmapWrite (setCurrentSlot slot k') addr hi = true) →
        (k'.mem.pt.entries (pageOf a)).isSome ∧
          k'.mem.pt.entries (pageOf a) = k.mem.pt.entries (pageOf a) := by
  constructor
  · intro q e he
    constructor
    · intro hstays x i y htakes hgone
      obtain ⟨tr₁, o, tr₂, rfl, hx, hstep⟩ := id htakes
      have hbefore : x.mem.pt.entries q = some e := by
        refine hx.invariant_taken (I := fun x => x.mem.pt.entries q = some e) he ?_
        exact fun x' i' y' h _ => hstays x' i' y' h.extend
      have hafter := hstays x i y htakes
      rw [(step_exact hstep hbefore).1 hgone] at hafter
      cases hafter
    · intro hkept x i y htakes
      obtain ⟨tr₁, tr₂, rfl, hy⟩ := htakes.run_to
      exact run_page hy he fun x' i' y' h => hkept x' i' y' h.extend
  · intro slot p hp halive hother hclaims addr hi a hlo hhi hcovers
    have hp' := run_other hrun hp halive hother
    obtain ⟨hmapped, hkept⟩ := hclaims _ (covers_claims hp' hcovers hlo hhi)
    obtain ⟨e, he⟩ := Option.isSome_iff_exists.mp hmapped
    have hend := run_page hrun he hkept
    exact ⟨by rw [hend]; rfl, by rw [hend, he]⟩

/-- The first process has a page of heap and forks; the child adds a page. -/
def heapSiblings : Kernel :=
  (replay (spaceStep flatWalker) [(0, .edit (.brk 0x405000)), (0, .fork (fun _ => 0x401FF8) 0 0),
    (1, .edit (.brk 0x406000))] started).elim started (·.2)

/-- The child gives its page back; the parent keeps its own. -/
theorem pages_stay_siblings : ∃ k',
    spaceStep flatWalker (1, .edit (.brk 0x405000)) heapSiblings = some ((), k') ∧
      coversBrkHeap (setCurrentSlot 0 k') 0x404000 0x405000 = true ∧
      (k'.mem.pt.entries 0x404).isSome ∧
      k'.mem.pt.entries 0x404 = heapSiblings.mem.pt.entries 0x404 := by
  have hcall : (spaceStep flatWalker (1, .edit (.brk 0x405000)) heapSiblings).map
        (fun x => coversBrkHeap (setCurrentSlot 0 x.2) 0x404000 0x405000) = some true ∧
      (heapSiblings.proc 0).map (fun p => (p.brkEnd, p.vmAreas.length, p.exitCode.isNone)) =
        some (0x405000, 0, true) ∧
      (heapSiblings.proc 1).map Process.brkEnd = some 0x406000 ∧
      (heapSiblings.mem.pt.entries 0x404).isSome := by decide +kernel
  obtain ⟨hstep, hparent, hchild, hmapped⟩ := hcall
  obtain ⟨⟨_, k'⟩, hrun, hcovers⟩ := Option.map_eq_some_iff.mp hstep
  obtain ⟨p, hp, heq⟩ := Option.map_eq_some_iff.mp hparent
  simp only [Prod.mk.injEq, Option.isNone_iff_eq_none, List.length_eq_zero_iff] at heq
  obtain ⟨hbrk, hareas, halive⟩ := heq
  refine ⟨k', hrun, hcovers, ?_⟩
  have hclaims : ∀ q, Claims p q → q = 0x404 := by
    rintro q (⟨h₁, h₂⟩ | ⟨a, ha, -⟩)
    · simp only [userBrkBase, pageSize, hbrk] at h₁ h₂
      omega
    · simp [hareas] at ha
  have hpage : pageOf 0x404000 = 0x404 := by decide
  have hstays := (pages_stay_iff_kept flatWalker heapSiblings k' _ (.single hrun)).2 0 p hp halive
    ?_ ?_ 0x404000 0x405000 0x404000 le_rfl (by decide) (.inl hcovers)
  · rwa [hpage] at hstays
  · intro x i y htakes
    rw [(takes_singleton htakes).1]
    decide
  · intro q hq
    obtain rfl := hclaims q hq
    refine ⟨hmapped, fun x i y htakes => ?_⟩
    obtain ⟨hi, hx⟩ := takes_singleton htakes
    rw [hi, hx]
    rintro ⟨c, hc, -, -, hgone⟩
    rw [show heapSiblings.proc 1 = some c from hc, Option.map_some, Option.some.injEq] at hchild
    rw [hchild, mem_shrinkPages (by decide) (by decide)] at hgone
    exact absurd hgone.1 (by decide)

/-- The first process has a page of heap, and a child. -/
def forked : Kernel :=
  (replay (spaceStep flatWalker) [(0, .edit (.brk 0x405000)),
    (0, .fork (fun _ => 0x401FF8) 0 0)] started).elim started (·.2)

/-- The child gives back the heap that it has from its parent: the parent still
claims the page, and its pointer checks still accept it. -/
theorem child_takes_parent_heap : ∃ tr k' p,
    Run (spaceStep flatWalker) started tr forked ∧
      spaceStep flatWalker (1, .edit (.brk 0x404000)) forked = some ((), k') ∧
      forked.proc 0 = some p ∧ k'.proc 0 = some p ∧ p.exitCode = none ∧ Claims p 0x404 ∧
      (forked.mem.pt.entries 0x404).isSome ∧ k'.mem.pt.entries 0x404 = none ∧
      coversBrkHeap (setCurrentSlot 0 k') 0x404000 0x405000 = true := by
  have hcall : (replay (spaceStep flatWalker) [(0, .edit (.brk 0x405000)),
        (0, .fork (fun _ => 0x401FF8) 0 0)] started).isSome ∧
      ((forked.proc 0).map (fun p => (p.brkEnd, p.exitCode.isNone)) = some (0x405000, true) ∧
        (forked.mem.pt.entries 0x404).isSome) ∧
      (spaceStep flatWalker (1, .edit (.brk 0x404000)) forked).map (fun x =>
        ((x.2.mem.pt.entries 0x404).isNone,
          coversBrkHeap (setCurrentSlot 0 x.2) 0x404000 0x405000)) = some (true, true) := by
    decide +kernel
  obtain ⟨hfork, hparent, hstep⟩ := hcall
  obtain ⟨⟨tr, k₁⟩, hreplay⟩ := Option.isSome_iff_exists.mp hfork
  have hforked : forked = k₁ := by rw [forked, hreplay]; rfl
  obtain ⟨hbooks, hmapped⟩ := hparent
  obtain ⟨p, hp, heq⟩ := Option.map_eq_some_iff.mp hbooks
  obtain ⟨⟨_, k'⟩, hrun, hafter⟩ := Option.map_eq_some_iff.mp hstep
  simp only [Prod.mk.injEq, Option.isNone_iff_eq_none] at heq hafter
  refine ⟨tr, k', p, ?_, hrun, hp, ?_, heq.2, .inl ⟨by decide, ?_⟩, hmapped, hafter⟩
  · rw [hforked]
    exact Run.of_replay hreplay
  · exact step_other hrun Nat.one_ne_zero hp heq.2
  · rw [heq.1]
    decide

end Rockos.SharedSpace
