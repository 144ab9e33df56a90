import Rockos.SyscallEffects

/-!
# The process table

The table has room for 32 processes, and no two entries, live or not, have the
same pid. A new pid is only chosen in `sys_fork` and stands in the table some
time later; nothing else fills a slot in between. As 32 entries cannot use up 33
numbers, the search for a pid never fails.

`sys_fork` panics when the table is full. The state it leaves behind then is
covered as well.
-/
namespace Rockos.ProcessTable
open FallibleState PhysMemory Paging SyscallFrame KernelState ProcessCalls Syscall
open SyscallEffects Runs

def Unused (pid : ℕ) (procs : List (Option Process)) : Prop :=
  ∀ p : Process, some p ∈ procs → p.pid ≠ pid

structure TableSound (k : Kernel) : Prop where
  slots : k.procs.length ≤ maxProcs
  distinct : ∀ s s' p p', k.proc s = some p → k.proc s' = some p' → p.pid = p'.pid → s = s'

theorem some_mem_iff {k : Kernel} {p : Process} :
    some p ∈ k.procs ↔ ∃ s, k.proc s = some p := by
  simp only [List.mem_iff_getElem?, Kernel.proc, Option.join_eq_some_iff]

/-! ## Choosing a pid -/

theorem exists_unused {procs : List (Option Process)} (h : procs.length ≤ maxProcs) :
    ∃ pid, 2 ≤ pid ∧ pid ≤ 34 ∧ Unused pid procs := by
  have hcard : ((procs.filterMap id).map Process.pid).toFinset.card < (Finset.Icc 2 34).card :=
    calc ((procs.filterMap id).map Process.pid).toFinset.card
        ≤ ((procs.filterMap id).map Process.pid).length := List.toFinset_card_le _
      _ ≤ procs.length := by
        rw [List.length_map]
        exact List.length_filterMap_le _ _
      _ < (Finset.Icc 2 34).card := lt_of_le_of_lt h (by decide)
  obtain ⟨pid, hmem, hnot⟩ := Finset.exists_mem_notMem_of_card_lt_card hcard
  obtain ⟨hlo, hhi⟩ := Finset.mem_Icc.mp hmem
  refine ⟨pid, hlo, hhi, ?_⟩
  rintro p hp rfl
  exact hnot (by simpa using ⟨p, hp, rfl⟩)

theorem allocPid_eq_some_iff {procs : List (Option Process)} {pid : ℕ} :
    allocPid procs = some pid ↔ Unused pid procs ∧ (2 ≤ pid ∧ pid < 1024) ∧
      ∀ q, 2 ≤ q → q < pid → ¬ Unused q procs := by
  have hfree : ∀ q, ((procs.filterMap id).all fun p => decide (p.pid ≠ q)) = true ↔
      Unused q procs := by
    intro q
    simp only [List.all_eq_true, List.mem_filterMap, id, exists_eq_right, decide_eq_true_eq, Unused]
  simp only [allocPid, List.find?_range'_eq_some, List.mem_range'_1, hfree]
  simp only [← hfree, Bool.not_eq_true']
  simp

/-- The least pid from 2 on that is not in the table; it always exists. -/
theorem allocPid_least {procs : List (Option Process)} (h : procs.length ≤ maxProcs) :
    ∃ pid, allocPid procs = some pid ∧ 2 ≤ pid ∧ pid ≤ 34 ∧ Unused pid procs ∧
      ∀ q, 2 ≤ q → q < pid → ¬ Unused q procs := by
  classical
  obtain ⟨bound, hlo, hhi, hfree⟩ := exists_unused h
  have hex : ∃ pid, 2 ≤ pid ∧ Unused pid procs := ⟨bound, hlo, hfree⟩
  obtain ⟨hfirst, hunused⟩ := Nat.find_spec hex
  have hle : Nat.find hex ≤ bound := Nat.find_min' hex ⟨hlo, hfree⟩
  have hleast : ∀ q, 2 ≤ q → q < Nat.find hex → ¬ Unused q procs := fun q hq hlt hun =>
    Nat.find_min hex hlt ⟨hq, hun⟩
  exact ⟨Nat.find hex, allocPid_eq_some_iff.mpr ⟨hunused, ⟨hfirst, by omega⟩, hleast⟩, hfirst,
    by omega, hunused, hleast⟩

/-! ## Edits of the table -/

/-- Slot by slot the same pids. -/
def SamePids (k k' : Kernel) : Prop :=
  k'.procs.map (Option.map Process.pid) = k.procs.map (Option.map Process.pid)

instance : IsPreorder Kernel SamePids where
  refl _ := rfl
  trans _ _ _ h h' := h'.trans h

theorem SamePids.proc {k k' : Kernel} (h : SamePids k k') (s : ℕ) :
    (k'.proc s).map Process.pid = (k.proc s).map Process.pid := by
  have hs := congrArg (fun l : List (Option ℕ) => (l[s]?).join) h
  simpa only [List.getElem?_map, Option.join_map_eq_map_join, Kernel.proc] using hs

theorem samePids_updateProc (k : Kernel) (slot : ℕ) {f : Process → Process}
    (hf : ∀ p, (f p).pid = p.pid) : SamePids k (k.updateProc slot f) := by
  refine List.ext_getElem? fun s => ?_
  simp only [Kernel.updateProc, List.getElem?_map, List.getElem?_modify]
  cases k.procs[s]? with
  | none => rfl
  | some x =>
      by_cases hs : slot = s
      · cases x <;> simp [hs, hf]
      · simp [hs]

theorem allows_samePids : AllowsSwitch SamePids where
  mem _ _ _ := rfl
  free k k' h := by
    simp only [Prod.mk.injEq] at h
    rw [SamePids, h.2.1]
  own k f hf := samePids_updateProc k _ fun p => congrArg Identity.pid (hf p)
  wait k irqs rest := by
    rw [SamePids, takeIrqs_procs]
  switch k k' h := by
    simp only [Prod.mk.injEq] at h
    rw [SamePids, h.2]
  exit k status := samePids_updateProc k _ fun _ => rfl

theorem TableSound.of_samePids {k k' : Kernel} (h : TableSound k) (hs : SamePids k k') :
    TableSound k' := by
  refine ⟨?_, fun s s' p p' hp hp' hpid => ?_⟩
  · have hlen := congrArg List.length hs
    simp only [List.length_map] at hlen
    exact hlen ▸ h.slots
  · have hold : ∀ {u : ℕ} {q : Process}, k'.proc u = some q →
        ∃ q', k.proc u = some q' ∧ q'.pid = q.pid := by
      intro u q hq
      have hu := hs.proc u
      rw [hq, Option.map_some] at hu
      exact Option.map_eq_some_iff.mp hu.symm
    obtain ⟨q, hq, hqp⟩ := hold hp
    obtain ⟨q', hq', hqp'⟩ := hold hp'
    exact h.distinct s s' q q' hq hq' (by rw [hqp, hqp', hpid])

theorem TableSound.reap {k : Kernel} (h : TableSound k) (slot : ℕ) :
    TableSound { k with procs := k.procs.set slot none } := by
  refine ⟨by simpa using h.slots, fun s s' p p' hp hp' hpid => ?_⟩
  have hold : ∀ {u : ℕ} {q : Process},
      ({ k with procs := k.procs.set slot none } : Kernel).proc u = some q →
        k.proc u = some q := by
    intro u q hq
    simp only [Kernel.proc, List.getElem?_set, Option.join_eq_some_iff] at hq ⊢
    split_ifs at hq <;> simp_all
  exact h.distinct s s' p p' (hold hp) (hold hp') hpid

theorem allocSlot_length {procs procs' : List (Option Process)} {slot : ℕ}
    (ha : allocSlot procs = some (slot, procs')) (h : procs.length ≤ maxProcs) :
    procs'.length ≤ maxProcs := by
  unfold allocSlot at ha
  cases hf : procs.findIdx? Option.isNone with
  | some i =>
      simp only [hf, Option.some.injEq, Prod.mk.injEq] at ha
      exact ha.2 ▸ h
  | none =>
      simp only [hf] at ha
      split_ifs at ha with hlt
      simp only [Option.some.injEq, Prod.mk.injEq] at ha
      rw [← ha.2, List.length_append]
      exact hlt

theorem TableSound.fill {k : Kernel} (h : TableSound k) {slot : ℕ}
    {procs : List (Option Process)} {child : Process}
    (ha : allocSlot k.procs = some (slot, procs)) (hpid : Unused child.pid k.procs) :
    TableSound { k with procs := procs.set slot (some child) } := by
  obtain ⟨-, hset⟩ := allocSlot_spec ha
  refine ⟨by simpa using allocSlot_length ha h.slots, fun s s' p p' hp hp' heq => ?_⟩
  have hcases : ∀ {u : ℕ} {q : Process},
      ({ k with procs := procs.set slot (some child) } : Kernel).proc u = some q →
        (u = slot ∧ q = child) ∨ k.proc u = some q := by
    intro u q hq
    have hu := (hset (some child) u).symm.trans hq
    split_ifs at hu with hslot
    · exact .inl ⟨hslot, (Option.some.inj hu).symm⟩
    · exact .inr hu
  have hfresh : ∀ {u : ℕ} {q : Process}, k.proc u = some q → q.pid ≠ child.pid := fun hq =>
    hpid _ (some_mem_iff.mpr ⟨_, hq⟩)
  rcases hcases hp with ⟨rfl, rfl⟩ | hold <;> rcases hcases hp' with ⟨rfl, rfl⟩ | hold'
  · rfl
  · exact absurd heq.symm (hfresh hold')
  · exact absurd heq (hfresh hold)
  · exact h.distinct s s' p p' hold hold' heq

/-! ## The calls that fill and empty slots -/

theorem spawn_sound {pid parentPid : ℕ} {parent : Process} {save : SyscallSaved}
    {top : UInt64} {k : Kernel} (h : TableSound k) (hpid : Unused pid k.procs) :
    TableSound (final (spawn pid parentPid parent save top k)) := by
  simp only [spawn, bind_run, get_run]
  cases ha : allocSlot k.procs with
  | none => exact h
  | some r =>
      simp only [bind_run, modify_run, pure_run, final_ok]
      have hfilled := @TableSound.fill k h r.1 r.2
        ⟨pid, some parentPid, parent.brkEnd, parent.vmAreas, none, top, save, 0⟩ ha hpid
      refine hfilled.of_samePids ?_
      exact samePids_updateProc _ r.1 fun _ => rfl

/-- The pid is still unused when the slot is filled. -/
theorem sysFork_sound (w : Walker) (mem : UInt64 → UInt64) (rsp top : UInt64) :
    Within (Keeps TableSound) (sysFork w mem rsp top) := by
  intro k hk
  simp only [sysFork, bind_run, get_run]
  cases hp : allocPid k.procs with
  | none => exact hk
  | some pid =>
      simp only [bind_run]
      rcases onMem_attempt_cases (mapChildStackAndCopy w (saveFromDispatchRsp mem rsp)) k with
        ⟨_, m, -, ho⟩ | ⟨reason, m, -, ho⟩ | ⟨e, m, -, ho⟩
      · simp only [ho]
        cases k.current with
        | none => exact ⟨hk.slots, hk.distinct⟩
        | some parent =>
            exact spawn_sound ⟨hk.slots, hk.distinct⟩ (allocPid_eq_some_iff.mp hp).1
      · simp only [ho]
        exact ⟨hk.slots, hk.distinct⟩
      · simp only [ho]
        exact ⟨hk.slots, hk.distinct⟩

theorem sysWait4_sound (pid : ℤ) (wstatus : ℕ) :
    Within (Keeps TableSound) (sysWait4 pid wstatus) := by
  have hdeliver : ∀ child status, Within (Keeps TableSound) (deliverStatus child status wstatus) :=
    fun child status => (deliverStatus_memOnly child status wstatus).mono fun k k' hmem hk => by
      rw [hmem]
      exact ⟨hk.slots, hk.distinct⟩
  refine within_bind (within_bind within_get fun k => ?_) fun r => ?_
  · split
    · exact within_pure _
    · exact within_bind (within_modify _ fun k hk => hk.reap _) fun _ => within_pure _
  · split
    · exact within_pure _
    · exact hdeliver _ _

theorem allows_tableSound : AllowsSwitch (Keeps TableSound) where
  mem k m h hk := hk.of_samePids (allows_samePids.mem k m h)
  free k k' h hk := hk.of_samePids (allows_samePids.free k k' h)
  own k f hf hk := hk.of_samePids (allows_samePids.own k f hf)
  wait k irqs rest hk := hk.of_samePids (allows_samePids.wait k irqs rest)
  switch k k' h hk := hk.of_samePids (allows_samePids.switch k k' h)
  exit k status hk := hk.of_samePids (allows_samePids.exit k status)

theorem syscall_sound (cfg : Config) (t : Trap) : Within (Keeps TableSound) (syscall cfg t) :=
  syscall_within allows_tableSound t (sysFork_sound cfg.walker) sysWait4_sound

/-! ## Runs -/

theorem boot_sound (staleTop boxedTop : UInt64) (k : Kernel) :
    TableSound (boot staleTop boxedTop k) := by
  refine ⟨le_of_eq (by simp [boot, schedulerInit, processInit, maxProcs]), ?_⟩
  intro s s' p p' hp hp' _
  rw [(boot_proc hp).1, (boot_proc hp').1]

theorem step_sound {cfg : Config} (e : Event) (s : Kernel) (o : Option Resumed) (u : Kernel)
    (hstep : step cfg e s = some (o, u)) : Keeps TableSound s u :=
  step_within allows_tableSound (sysFork_sound cfg.walker) sysWait4_sound hstep

theorem Reachable.sound {cfg : Config} {k : Kernel} (h : Reachable cfg k) : TableSound k := by
  obtain ⟨staleTop, boxedTop, k₀, tr, hrun⟩ := h
  exact hrun.invariant step_sound (boot_sound staleTop boxedTop k₀)

/-- User code runs, or a system call has just ended or stopped half way. -/
inductive Visited (cfg : Config) : Kernel → Prop
  | running {k : Kernel} (h : Reachable cfg k) : Visited cfg k
  | left {k : Kernel} (h : Reachable cfg k) (t : Trap) : Visited cfg (final (syscall cfg t k))

theorem Visited.sound {cfg : Config} {k : Kernel} (h : Visited cfg k) : TableSound k := by
  cases h with
  | running h => exact Reachable.sound h
  | left h t => exact syscall_sound cfg t _ (Reachable.sound h)

/-- Pids identify the table entries, the table is never larger than 32, and the
next pid is the least one from 2 on that is not in the table. -/
theorem process_identity (cfg : Config) (k : Kernel) (h : Visited cfg k) :
    (∀ s s' p p', k.proc s = some p → k.proc s' = some p' → p.pid = p'.pid → s = s') ∧
    k.procs.length ≤ 32 ∧
    ∃ pid, allocPid k.procs = some pid ∧ 2 ≤ pid ∧ pid ≤ 34 ∧
      (∀ s p, k.proc s = some p → p.pid ≠ pid) ∧
      ∀ q, 2 ≤ q → q < pid → ∃ s p, k.proc s = some p ∧ p.pid = q := by
  obtain ⟨pid, halloc, hlo, hhi, hfree, hleast⟩ := allocPid_least h.sound.slots
  refine ⟨h.sound.distinct, h.sound.slots, pid, halloc, hlo, hhi, fun s p hp => ?_, ?_⟩
  · exact hfree p (some_mem_iff.mpr ⟨s, hp⟩)
  · intro q hq hlt
    have hused := hleast q hq hlt
    simp only [Unused, not_forall, not_not, some_mem_iff] at hused
    obtain ⟨p, ⟨s, hp⟩, hpq⟩ := hused
    exact ⟨s, p, hp, hpq⟩

/-- After the first `fork` the least free pid is 3. -/
theorem process_identity_fork : ∃ k, Visited machine k ∧ allocPid k.procs = some 3 ∧
    k.procs.length ≤ 32 ∧ (∃ s p, k.proc s = some p ∧ p.pid = 2) := by
  have hpid : (step machine (.syscall forkTrap) started).map (fun x => allocPid x.2.procs) =
      some (some 3) := by decide +kernel
  obtain ⟨⟨o, k⟩, hstep, hk⟩ := Option.map_eq_some_iff.mp hpid
  have hvisit : Visited machine k := .running (started_reachable.step hstep)
  obtain ⟨-, hlen, pid, halloc, -, -, -, hleast⟩ := process_identity machine k hvisit
  have hthree : pid = 3 := Option.some.inj (halloc.symm.trans hk)
  exact ⟨k, hvisit, hk, hlen, hleast 2 le_rfl (by omega)⟩

end Rockos.ProcessTable
