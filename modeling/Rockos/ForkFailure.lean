import Rockos.ForkCopy
import Rockos.ProcessTable

/-!
# How fork fails (process.rs)

`sys_fork` takes a pid, the child stack page, the copy of the stack and a slot,
in this order. A pid is always left; there are more of them than slots. If the
page or the copy is refused the call returns an error, with the page left mapped,
and if there is no slot the call panics.
-/
namespace Rockos.ForkFailure
open FallibleState PhysMemory Paging PageEdits KernelState ProcessCalls SyscallFrame Syscall
open FrameAccounts SyscallEffects ProcessTable RunQueue ForkStacks ForkCopy Runs

/-! ## The copy -/

/-- Every byte from the stack pointer to the end of the first stack is mapped, and
so is every byte it is copied to. -/
structure StackCopies (m : Mem) (rsp : ℕ) : Prop where
  below : rsp < userStackTop
  source : ∀ i, rsp + i < userStackTop → (m.pt.entries (pageOf (rsp + i))).isSome
  target : ∀ i, rsp + i < userStackTop → pageOf (copyDst rsp + i) = pageOf childStackLo ∨
    (m.pt.entries (pageOf (copyDst rsp + i))).isSome

theorem bothMapped_iff {m t : Mem} (hchild : ChildPageMapped m t) {rsp : ℕ}
    (hbelow : rsp < userStackTop) :
    (∀ j, 0 ≤ j → j < 0 + (userStackTop - rsp) → BothMapped t rsp (copyDst rsp) j) ↔
      StackCopies m rsp := by
  have hsource : ∀ i, rsp + i < userStackTop →
      t.pt.entries (pageOf (rsp + i)) = m.pt.entries (pageOf (rsp + i)) := by
    intro i hi
    exact hchild.other _ (pageOf_ne_child hi)
  constructor
  · intro hall
    refine ⟨hbelow, fun i hi => ?_, fun i hi => ?_⟩
    · rw [← hsource i hi]
      exact (hall i (Nat.zero_le i) (by omega)).1
    · by_cases hpage : pageOf (copyDst rsp + i) = pageOf childStackLo
      · exact .inl hpage
      · rw [← hchild.other _ hpage]
        exact .inr (hall i (Nat.zero_le i) (by omega)).2
  · intro hcopies j _ hj
    constructor
    · rw [hsource j (by omega)]
      exact hcopies.source j (by omega)
    · rcases hcopies.target j (by omega) with hpage | hmapped
      · rw [hpage]
        exact hchild.child
      · by_cases hpage : pageOf (copyDst rsp + j) = pageOf childStackLo
        · rw [hpage]
          exact hchild.child
        · rw [hchild.other _ hpage]
          exact hmapped

section
variable {w : Walker} {saved : SyscallSaved} {m : Mem}

theorem copies_returns (hw : Steady w) (hready : ChildPageReady w m)
    (hcopies : StackCopies m saved.userRsp.toNat) :
    ∃ m', mapChildStackAndCopy w saved m = .ok () m' := by
  obtain ⟨t, hmap, hchild⟩ := mapChildStack_of_ready hw hready
  have hcomplete := accesses_complete.mpr ((bothMapped_iff hchild hcopies.below).mpr hcopies)
  have hrun := copy_run hcopies.below t
  rw [if_pos hcomplete] at hrun
  have hbelow := hcopies.below
  rw [mapChildStackAndCopy, bind_of_ok hmap, if_neg (by omega)]
  exact ⟨_, hrun⟩

/-- A copy that is refused leaves the page mapped. -/
theorem copies_fails (hw : Steady w) (hready : ChildPageReady w m)
    (hcopies : ¬ StackCopies m saved.userRsp.toNat) :
    ∃ m', mapChildStackAndCopy w saved m = .error (.err "()") m' ∧ ChildPageMapped m m' := by
  obtain ⟨t, hmap, hchild⟩ := mapChildStack_of_ready hw hready
  rw [mapChildStackAndCopy, bind_of_ok hmap]
  by_cases htop : saved.userRsp.toNat ≥ userStackTop
  · exact ⟨t, by rw [if_pos htop]; rfl, hchild⟩
  · have hbelow : saved.userRsp.toNat < userStackTop := by omega
    have hrun := copy_run hbelow t
    rw [if_neg fun hcomplete =>
      hcopies ((bothMapped_iff hchild hbelow).mp (accesses_complete.mp hcomplete))] at hrun
    rw [if_neg htop]
    refine ⟨_, hrun, ?_, ?_⟩
    · rw [replay_pt]
      exact hchild.child
    · rw [replay_pt]
      exact hchild.other

theorem page_refused (hw : Steady w) (hready : ¬ ChildPageReady w m) :
    ∃ m', mapChildStackAndCopy w saved m = .error (.err "()") m' ∧
      m'.pt.entries = m.pt.entries := by
  obtain ⟨t, hmap, hentries⟩ := mapChildStack_of_not_ready hw hready
  exact ⟨t, by rw [mapChildStackAndCopy, bind_of_error hmap], hentries⟩

end

/-! ## The table -/

/-- Some slot of the table is free. -/
def HasSlot (k : Kernel) : Prop := ∃ s < maxProcs, k.proc s = none

theorem allocSlot_isSome_iff {k : Kernel} (hlen : k.procs.length ≤ maxProcs) :
    (allocSlot k.procs).isSome ↔ HasSlot k := by
  unfold allocSlot HasSlot
  cases hf : k.procs.findIdx? Option.isNone with
  | some i =>
      obtain ⟨hlt, hnone, -⟩ := List.findIdx?_eq_some_iff_getElem.mp hf
      have hfree : k.procs[i] = none := by simpa using hnone
      refine iff_of_true rfl ⟨i, by omega, ?_⟩
      rw [Kernel.proc, List.getElem?_eq_getElem hlt, hfree]
      rfl
  | none =>
      simp only
      have hall := List.findIdx?_eq_none_iff.mp hf
      split_ifs with hroom
      · refine iff_of_true rfl ⟨k.procs.length, hroom, ?_⟩
        rw [Kernel.proc, List.getElem?_eq_none le_rfl]
        rfl
      · apply iff_of_false
        · simp
        · rintro ⟨s, hs, hproc⟩
          have hlt : s < k.procs.length := by omega
          have hsome := hall k.procs[s] (List.getElem_mem hlt)
          rw [Kernel.proc, List.getElem?_eq_getElem hlt, Option.join_some] at hproc
          rw [hproc] at hsome
          cases hsome

/-! ## The whole call -/

/-- The call has entered a child in the table, or has returned an error and left
the table, the queue and the mapped pages as they were. -/
def ForksCleanly (w : Walker) (mem : UInt64 → UInt64) (rsp top : UInt64) (k : Kernel) : Prop :=
  ∃ v k', sysFork w mem rsp top k = .ok v k' ∧
    ((∃ slot child, v = UInt64.ofNat child.pid ∧ Forked slot child k k') ∨
      (v = errno 12 ∧ k'.procs = k.procs ∧ k'.sched.runnable = k.sched.runnable ∧
        ∀ q, (k'.mem.pt.entries q).isSome = (k.mem.pt.entries q).isSome))

section
variable {w : Walker} {mem : UInt64 → UInt64} {rsp top : UInt64} {k : Kernel} {p : Process}
  {m : Mem}

theorem sysFork_of_error {reason : String} (hlen : k.procs.length ≤ maxProcs)
    (h : mapChildStackAndCopy w (saveFromDispatchRsp mem rsp) k.mem = .error (.err reason) m) :
    sysFork w mem rsp top k = .ok (errno 12) (setMem m k) := by
  obtain ⟨pid, hpid, -⟩ := allocPid_least hlen
  simp only [sysFork, bind_run, get_run, hpid, onMem, zoom, attempt, h]
  rfl

theorem sysFork_of_ok (hlen : k.procs.length ≤ maxProcs) (hcaller : k.current = some p)
    (h : mapChildStackAndCopy w (saveFromDispatchRsp mem rsp) k.mem = .ok () m) :
    ∃ pid, sysFork w mem rsp top k = spawn pid (currentPid k) p
      (childSave (saveFromDispatchRsp mem rsp)) top (setMem m k) := by
  obtain ⟨pid, hpid, -⟩ := allocPid_least hlen
  refine ⟨pid, ?_⟩
  simp only [sysFork, bind_run, get_run, hpid, onMem, zoom, attempt, h, hcaller]

theorem clean_of_spawn (hlen : k.procs.length ≤ maxProcs) (hcaller : k.current = some p)
    (h : mapChildStackAndCopy w (saveFromDispatchRsp mem rsp) k.mem = .ok () m) :
    ForksCleanly w mem rsp top k ↔ HasSlot k := by
  obtain ⟨pid, hfork⟩ : ∃ pid, sysFork w mem rsp top k = spawn pid (currentPid k) p
      (childSave (saveFromDispatchRsp mem rsp)) top (setMem m k) := sysFork_of_ok hlen hcaller h
  have hprocs : (setMem m k).procs = k.procs := rfl
  rw [← allocSlot_isSome_iff hlen]
  cases hslot : allocSlot k.procs with
  | none =>
      apply iff_of_false
      · rintro ⟨v, k', hrun, -⟩
        rw [hfork, spawn, bind_run, get_run] at hrun
        simp only [hprocs, hslot] at hrun
        cases hrun
      · simp
  | some r =>
      refine iff_of_true ?_ rfl
      obtain ⟨v, k', hspawn⟩ : ∃ v k', spawn pid (currentPid k) p
          (childSave (saveFromDispatchRsp mem rsp)) top (setMem m k) = .ok v k' := by
        simp only [spawn, bind_run, get_run, hprocs, hslot, modify_run, pure_run]
        exact ⟨_, _, rfl⟩
      obtain ⟨hv, slot, hf⟩ := spawn_forked hspawn
      have hforked : Forked slot _ k k' :=
        ⟨hf.free, hf.proc, hf.alive, hf.current, hf.top, hf.runnable, hf.waits⟩
      exact ⟨v, k', hfork.trans hspawn, .inl ⟨slot, _, by exact hv, hforked⟩⟩

/-- A call that was refused has kept the mapped pages exactly if the child page
was mapped before. -/
theorem clean_of_refused {reason : String} (hlen : k.procs.length ≤ maxProcs)
    (h : mapChildStackAndCopy w (saveFromDispatchRsp mem rsp) k.mem = .error (.err reason) m) :
    ForksCleanly w mem rsp top k ↔
      ∀ q, (m.pt.entries q).isSome = (k.mem.pt.entries q).isSome := by
  have hfork : sysFork w mem rsp top k = .ok (errno 12) (setMem m k) :=
    sysFork_of_error hlen h
  constructor
  · rintro ⟨v, k', hrun, hclean⟩
    rw [hfork] at hrun
    obtain ⟨rfl, rfl⟩ := EStateM.Result.ok.inj hrun
    rcases hclean with ⟨slot, child, -, hforked⟩ | ⟨-, -, -, hpages⟩
    · -- nobody was entered
      have hproc := hforked.proc slot
      have hsame : (setMem m k).proc slot = k.proc slot := rfl
      rw [if_pos rfl, hsame, hforked.free] at hproc
      cases hproc
    · exact hpages
  · intro hpages
    exact ⟨_, _, hfork, .inr ⟨rfl, rfl, rfl, hpages⟩⟩

end

/-- `fork` succeeds, or fails without a trace, exactly if the child page cannot be
mapped, or the stack can be copied and there is a slot, or it cannot be copied and
the page had been mapped before. -/
theorem fork_clean_iff (w : Walker) (mem : UInt64 → UInt64) (rsp top : UInt64) (k : Kernel)
    (p : Process) (hw : Steady w) (hsound : TableSound k) (hcaller : k.current = some p) :
    ForksCleanly w mem rsp top k ↔
      ¬ ChildPageReady w k.mem ∨
      (StackCopies k.mem (saveFromDispatchRsp mem rsp).userRsp.toNat ∧ HasSlot k) ∨
      (¬ StackCopies k.mem (saveFromDispatchRsp mem rsp).userRsp.toNat ∧
        (k.mem.pt.entries (pageOf childStackLo)).isSome) := by
  by_cases hready : ChildPageReady w k.mem
  · by_cases hcopies : StackCopies k.mem (saveFromDispatchRsp mem rsp).userRsp.toNat
    · obtain ⟨m, hrun⟩ := copies_returns hw hready hcopies
      rw [clean_of_spawn hsound.slots hcaller hrun]
      simp [hready, hcopies]
    · obtain ⟨m, hrun, hchild⟩ := copies_fails hw hready hcopies
      rw [clean_of_refused hsound.slots hrun]
      simp only [hready, hcopies, not_true_eq_false, false_and, not_false_eq_true, true_and,
        false_or]
      constructor
      · intro hpages
        rw [← hpages]
        exact hchild.child
      · intro hmapped q
        by_cases hq : q = pageOf childStackLo
        · rw [hq, hmapped, hchild.child]
        · rw [hchild.other q hq]
  · obtain ⟨m, hrun, hentries⟩ : ∃ m,
        mapChildStackAndCopy w (saveFromDispatchRsp mem rsp) k.mem = .error (.err "()") m ∧
          m.pt.entries = k.mem.pt.entries := page_refused hw hready
    rw [clean_of_refused hsound.slots hrun, hentries]
    exact iff_of_true (fun _ => rfl) (.inl hready)

/-- What is asked of the table holds whenever a user program makes the call. -/
theorem reachable_caller {cfg : Config} {k : Kernel} (h : Reachable cfg k) (t : Trap) :
    TableSound (trapState t k) ∧ ∃ p, (trapState t k).current = some p := by
  have hsound := ProcessTable.Reachable.sound h
  obtain ⟨p, hp, -⟩ := (RunQueue.Reachable.ready h).alive
  exact ⟨⟨hsound.slots, hsound.distinct⟩, p, hp⟩

theorem fork_clean_first : ForksCleanly flatWalker (fun _ => 0x401FF8) 0 0 started := by
  have hstack : (started.mem.pt.entries 0x401).isSome := by decide +kernel
  have hrsp : (saveFromDispatchRsp (fun _ => 0x401FF8) 0).userRsp.toNat = 0x401FF8 := rfl
  have htop : userStackTop = 0x402000 := rfl
  obtain ⟨p, hcaller⟩ : ∃ p, started.current = some p := ⟨_, rfl⟩
  apply (fork_clean_iff _ _ _ _ _ p (fun _ _ => rfl)
    (ProcessTable.Reachable.sound started_reachable) hcaller).mpr
  rw [hrsp]
  refine .inr (.inl ⟨⟨by decide, fun i hi => ?_, fun i hi => ?_⟩, 1, by decide, ?_⟩)
  · have hpage : pageOf (0x401FF8 + i) = 0x401 := by
      show (0x401FF8 + i) / 4096 = 0x401
      omega
    rw [hpage]
    exact hstack
  · left
    show (0x402FF8 + i) / 4096 = 0x402
    omega
  · exact boot_proc_succ _ _ _ 0

/-- Forks by whoever runs, as long as they succeed. -/
def forks : ℕ → Kernel → Option Kernel
  | 0, k => some k
  | n + 1, k => (step machine (.syscall { forkTrap with
      forkRsp := StackMachine.slot k.currentKstackTop 11 }) k).bind fun x => forks n x.2

theorem run_forks {n : ℕ} {k k' : Kernel} (h : forks n k = some k') :
    ∃ tr, Run (step machine) k tr k' := by
  induction n generalizing k with
  | zero =>
      obtain rfl := Option.some.inj h
      exact ⟨[], .done _⟩
  | succ n ih =>
      obtain ⟨⟨o, k₁⟩, hstep, hrest⟩ := Option.bind_eq_some_iff.mp h
      obtain ⟨tr, hrun⟩ := ih hrest
      exact ⟨_, .step hstep hrun⟩

/-- With all slots taken the call panics, and with a stack pointer at the end of
the stack the child page stays mapped. The first takes for granted that the heap has
room for 32 processes, which 64 pages are too few for; the second needs no other call. -/
theorem fork_fails_badly :
    (∃ tr k s, Run (step machine) started tr k ∧
      sysFork flatWalker (fun _ => 0x401FF8) 0 0 k = .error .panic s) ∧
    ∃ k', sysFork flatWalker (fun _ => 0x402000) 0 0 started = .ok (errno 12) k' ∧
      started.mem.pt.entries 0x402 = none ∧ (k'.mem.pt.entries 0x402).isSome := by
  have hrun : ((forks 31 started).bind fun k =>
      (failed (sysFork flatWalker (fun _ => 0x401FF8) 0 0 k)).map (·.1)) = some .panic ∧
    (returned (sysFork flatWalker (fun _ => 0x402000) 0 0 started)).map
      (fun x => (x.1, (x.2.mem.pt.entries 0x402).isSome)) = some (errno 12, true) ∧
    started.mem.pt.entries 0x402 = none := by decide +kernel
  obtain ⟨hfull, hpage, hnone⟩ := hrun
  constructor
  · obtain ⟨k, hforks, hpanic⟩ := Option.bind_eq_some_iff.mp hfull
    obtain ⟨tr, htr⟩ := run_forks hforks
    obtain ⟨e, s, herr, rfl⟩ := error_of_failed hpanic
    exact ⟨tr, k, s, htr, herr⟩
  · obtain ⟨v, k', hok, hx⟩ := ok_of_returned hpage
    obtain ⟨hv, hmapped⟩ := Prod.mk.inj hx
    exact ⟨k', hok.trans (by rw [← hv]), hnone, hmapped⟩

end Rockos.ForkFailure
