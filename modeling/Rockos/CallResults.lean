import Rockos.Descriptors
import Rockos.KernelMemory
import Rockos.MmapWindow
import Rockos.ProcessRefinement
import Rockos.TerminalInput

/-!
# What system calls return

User code tells failures from results by the value in `rax` alone. Each call has
a list of error numbers and a range of results, and in every run of fewer than
2^40 steps every answer is one or the other. The ranges keep away from the error
numbers, so no result is taken for a failure.

Some answers are read from counters and from the process table: descriptors, pids,
the end of the heap, the place of a new area. Their ranges are invariants of runs.
-/
namespace Rockos.CallResults
open FallibleState PhysMemory Paging SyscallFrame KernelState AddressSpace ProcessCalls Syscall
open SyscallEffects RunQueue Turns CallFootprints MmapWindow Runs

/-- The error numbers of each call. -/
def errnos : Sysno → List ℕ
  | .read => [22, 14, 9, 11]
  | .write => [28, 14, 9]
  | .openFile => [14, 22, 2, 24]
  | .close => [9]
  | .mmap => [22, 12]
  | .munmap => [22]
  | .brk | .fork => [12]
  | .nanosleep => [14]
  | .execve => [14, 2, 22, 8]
  | .wait4 => [11, 14]
  | .schedYield | .getpid | .getppid | .exit => []

/-- What each call returns when it succeeds; `exit` does not return. -/
def Success (t : Trap) (v : ℕ) : Sysno → Prop
  | .read => v ≤ (t.reg .rdx).toNat ∧ v ≤ 8192
  | .write => v = (t.reg .rdx).toNat ∧ v ≤ 8192
  | .openFile => v = 0 ∨ 4 ≤ v ∧ v < 2 ^ 41
  | .mmap => v % pageSize = 0 ∧ userMmapBase ≤ v ∧ v + asked t ≤ userMmapLimit
  | .brk => userBrkBase ≤ v ∧ v ≤ userBrkLimit
  | .fork | .wait4 => 2 ≤ v ∧ v ≤ 34
  | .getpid => 1 ≤ v ∧ v ≤ 34
  | .getppid => v ≤ 34
  | .close | .munmap | .schedYield | .nanosleep | .execve => v = 0
  | .exit => False

def Failure (v : UInt64) (numbers : List ℕ) : Prop := ∃ e ∈ numbers, v = errno e

def Answers (t : Trap) (v : UInt64) : Prop :=
  match sysno (t.reg .rax) with
  | some c => Success t v.toNat c ∨ Failure v (errnos c)
  | none => v = errno 38

/-! ## Answers that do not depend on the state -/

theorem toNat_ofNat_le (n : ℕ) : (UInt64.ofNat n).toNat ≤ n := by
  rw [UInt64.toNat_ofNat']
  exact Nat.mod_le _ _

/-- A read of the terminal gives at most `len` bytes, or `-11` if it may not wait. -/
theorem ttyRead_yields (buf len : ℕ) (nonblock : Bool) :
    Yields (fun r => (∃ n, r = .ok n ∧ n ≤ len) ∨ nonblock = true ∧ r = .error (-11))
      (ttyRead buf len nonblock) := by
  intro k r k' hrun
  rcases TerminalInput.ttyRead_cases hrun with ⟨bytes, m, hr, -, rfl, -⟩ | ⟨hnb, hr, -⟩
  · exact .inl ⟨_, rfl, read_length (Prod.ext hr rfl)⟩
  · exact .inr ⟨hnb, hr⟩

/-- An answer in the range `P` or with one of the error numbers. -/
def AnswersWith (P : ℕ → Prop) (numbers : List ℕ) (v : UInt64) : Prop :=
  P v.toNat ∨ Failure v numbers

theorem yields_errno {P : ℕ → Prop} {numbers : List ℕ} {e : ℕ} (h : e ∈ numbers) :
    Yields (AnswersWith P numbers) (pure (errno e) : KernelM UInt64) :=
  yields_pure (.inr ⟨e, h, rfl⟩)

theorem sysRead_yields (fd : UInt64) (buf len : ℕ) :
    Yields (AnswersWith (fun v => v ≤ len ∧ v ≤ 8192) (errnos .read)) (sysRead fd buf len) := by
  refine yields_ite (fun _ => yields_errno (by decide)) fun hlen => yields_last fun k => ?_
  have hsome : ∀ n, n ≤ len → AnswersWith (fun v => v ≤ len ∧ v ≤ 8192) (errnos .read)
      (UInt64.ofNat n) := by
    intro n hn
    have hle := toNat_ofNat_le n
    exact .inl ⟨by omega, by omega⟩
  have hpoll : Yields (fun r => ∀ v, r = some v →
      AnswersWith (fun v => v ≤ len ∧ v ≤ 8192) (errnos .read) v) (pollStdin buf len) := by
    refine yields_bind (ttyRead_yields buf len false) fun r hr => ?_
    rcases hr with ⟨n, rfl, hn⟩ | ⟨hfalse, -⟩
    · cases n with
      | zero => exact yields_pure nofun
      | succ n =>
          refine yields_pure fun v hv => ?_
          cases hv
          exact hsome _ hn
    · cases hfalse
  have hstdin : Yields (AnswersWith (fun v => v ≤ len ∧ v ≤ 8192) (errnos .read))
      (readStdin buf len) := by
    refine yields_last fun k => yields_ite (fun _ => yields_last fun k => ?_) fun _ => ?_
    · intro k v k' hrun
      obtain ⟨k₁, hlast⟩ := waitTurns_ok hrun
      exact hpoll _ _ _ hlast v rfl
    · refine yields_bind (ttyRead_yields buf len true) fun r hr => ?_
      rcases hr with ⟨n, rfl, hn⟩ | ⟨-, rfl⟩
      · exact yields_pure (hsome n hn)
      · exact yields_pure (.inr ⟨11, by decide, by decide⟩)
  refine yields_ite (fun _ => yields_errno (by decide)) fun _ => ?_
  refine yields_ite (fun _ => hstdin) fun _ => yields_ite (fun _ => yields_errno (by decide)) ?_
  refine fun _ => yields_last fun k => ?_
  split
  · exact yields_errno (by decide)
  · exact yields_errno (by decide)
  · exact yields_last fun _ => yields_pure (hsome _ (Nat.min_le_right _ _))

theorem sysWrite_yields (fd : UInt64) (buf len : ℕ) :
    Yields (AnswersWith (fun v => v = len ∧ v ≤ 8192) (errnos .write)) (sysWrite fd buf len) := by
  refine yields_ite (fun _ => yields_errno (by decide)) fun hlen => yields_last fun k => ?_
  have hall : AnswersWith (fun v => v = len ∧ v ≤ 8192) (errnos .write) (UInt64.ofNat len) := by
    have heq : (UInt64.ofNat len).toNat = len := by
      rw [UInt64.toNat_ofNat', Nat.mod_eq_of_lt (by omega)]
    exact .inl ⟨heq, by omega⟩
  refine yields_ite (fun _ => yields_errno (by decide)) fun _ => ?_
  refine yields_ite (fun _ => yields_last fun _ => yields_pure hall) fun _ => ?_
  refine yields_ite (fun _ => yields_last fun k => ?_) fun _ => yields_errno (by decide)
  split
  · exact yields_errno (by decide)
  · exact yields_last fun _ => yields_last fun _ => yields_pure hall

/-- The answer of a call that has nothing to report. -/
theorem yields_zero {numbers : List ℕ} :
    Yields (AnswersWith (fun v => v = 0) numbers) (pure 0 : KernelM UInt64) :=
  yields_pure (.inl rfl)

theorem sysClose_yields (fd : UInt64) :
    Yields (AnswersWith (fun v => v = 0) (errnos .close)) (sysClose fd) := by
  refine yields_ite (fun _ => yields_errno (by decide)) fun _ => yields_last fun k => ?_
  exact yields_ite (fun _ => yields_errno (by decide)) fun _ => yields_last fun _ => yields_zero

theorem sysNanosleep_yields (req : ℕ) :
    Yields (AnswersWith (fun v => v = 0) (errnos .nanosleep)) (sysNanosleep req) := by
  refine yields_ite (fun _ => yields_errno (by decide)) fun _ => yields_last fun k => ?_
  refine yields_ite (fun _ => yields_errno (by decide)) fun _ => yields_last fun _ => ?_
  exact yields_last fun _ => yields_last fun _ => yields_last fun _ => yields_zero

theorem meets_attempt {ε σ α : Type} (caught : ε → Bool) (x : EStateM ε σ α) :
    Meets (fun _ => True) (attempt caught x) (fun _ _ => True) (fun e _ => caught e = false) := by
  intro s _
  unfold attempt
  cases hx : x s with
  | ok a t => trivial
  | error e t => cases hcaught : caught e <;> simp [hcaught]

/-- Pages that are not mapped are passed over, so nothing goes wrong. -/
theorem unmapUserRange_no_err (start count : ℕ) (m m' : Mem) (reason : String) :
    unmapUserRange start count m ≠ .error (.err reason) m' := by
  have hpage : ∀ i, Meets (fun _ : Mem => True) (do
      let va ← virtAddr (start + i * pageSize)
      releasePage va) (fun _ _ => True) (fun e _ => e.isErr = false) := by
    intro i
    refine meets_bind (Q := fun _ _ => True) (meets_ite (fun _ => meets_pure _ fun _ _ => trivial)
      fun _ => meets_throw _ fun _ _ => rfl) fun va => ?_
    exact meets_bind (meets_attempt _ _) fun _ => meets_pure _ fun _ _ => trivial
  intro hrun
  have hall := meets_countLoop (fun _ _ _ => True) 0 count () fun i _ _ _ => hpage i
  have hcaught := hall.error trivial hrun
  cases hcaught

theorem sysMunmap_yields (addr len : ℕ) :
    Yields (AnswersWith (fun v => v = 0) (errnos .munmap)) (sysMunmap addr len) := by
  refine yields_ite (fun _ => yields_errno (by decide)) fun _ => yields_last fun k => ?_
  refine yields_last fun _ => yields_ite (fun _ => yields_errno (by decide)) fun _ => ?_
  have hnever : Yields (· ≠ none)
      (onMem (attempt Stop.isErr (unmapUserRange addr (len / pageSize)))) := by
    intro k r k' hrun
    rcases onMem_attempt_cases (unmapUserRange addr (len / pageSize)) k with
      ⟨a, m, -, ho⟩ | ⟨reason, m, hx, -⟩ | ⟨e, m, -, ho⟩
    · rw [ho] at hrun
      cases hrun
      exact nofun
    · exact absurd hx (unmapUserRange_no_err _ _ _ _ _)
    · rw [ho] at hrun
      cases hrun
  refine yields_bind hnever fun r hr => ?_
  cases r with
  | none => exact absurd rfl hr
  | some _ => exact yields_zero

/-- The checks of `execve` refuse with these error numbers only. -/
def Refuses {α : Type} (numbers : List ℕ) (x : Except Stop (Except UInt64 α)) : Prop :=
  ∀ e, x = .ok (.error e) → Failure e numbers

section Refuses
variable {α β : Type} {numbers : List ℕ}

theorem refuses_ok (a : α) : Refuses numbers (.ok (.ok a)) := by
  intro e h
  cases h

theorem refuses_stop (stop : Stop) :
    Refuses numbers (.error stop : Except Stop (Except UInt64 α)) := by
  intro e h
  cases h

theorem refuses_errno {n : ℕ} (h : n ∈ numbers) :
    Refuses numbers (.ok (.error (errno n)) : Except Stop (Except UInt64 α)) := by
  intro e he
  cases he
  exact ⟨n, h, rfl⟩

theorem refuses_bind {x : Except Stop β} {f : β → Except Stop (Except UInt64 α)}
    (hf : ∀ b, x = .ok b → Refuses numbers (f b)) : Refuses numbers (x >>= f) := by
  intro e he
  cases hx : x with
  | error stop =>
      rw [hx] at he
      cases he
  | ok b =>
      rw [hx] at he
      exact hf b hx e he

theorem refuses_ite {c : Prop} [Decidable c] {x y : Except Stop (Except UInt64 α)}
    (hx : Refuses numbers x) (hy : Refuses numbers y) : Refuses numbers (if c then x else y) := by
  split_ifs
  · exact hx
  · exact hy

end Refuses

theorem cstringBytes_refuses (k : Kernel) (ptr cap : ℕ) (v : List UInt8) :
    Refuses [14, 2, 22] (cstringBytes k ptr cap v) := by
  induction cap generalizing v with
  | zero => exact refuses_ok v
  | succ cap ih =>
      refine refuses_ite (refuses_stop _) (refuses_ite (refuses_errno (by decide)) ?_)
      exact refuses_bind fun c _ => refuses_ite (refuses_ok v) (ih _)

theorem readUserCstring_refuses (k : Kernel) (ptr cap : ℕ) :
    Refuses [14, 2, 22] (readUserCstring k ptr cap) := by
  refine refuses_bind fun r hr => ?_
  split
  · intro e he
    cases he
    exact cstringBytes_refuses k ptr cap [] _ hr
  · exact refuses_ite (refuses_ok _) (refuses_errno (by decide))

theorem ptrvecFrom_refuses (k : Kernel) (base maxStr i count : ℕ) (out : List (List UInt8)) :
    Refuses [14, 2, 22] (ptrvecFrom k base maxStr i count out) := by
  induction count generalizing i out with
  | zero => exact refuses_ok out
  | succ count ih =>
      refine refuses_ite (refuses_stop _) (refuses_ite (refuses_errno (by decide)) ?_)
      refine refuses_ite (refuses_stop _) (refuses_bind fun bytes _ => ?_)
      refine refuses_ite (refuses_ok out) (refuses_bind fun r hr => ?_)
      split
      · intro e he
        cases he
        exact readUserCstring_refuses k _ maxStr _ hr
      · exact ih _ _

theorem parseUserPtrvec_refuses (k : Kernel) (base maxPtrs maxStr : ℕ) :
    Refuses [14, 2, 22] (parseUserPtrvec k base maxPtrs maxStr) :=
  refuses_ite (refuses_ok _) (ptrvecFrom_refuses k base maxStr 0 maxPtrs [])

theorem execArgs_refuses (pathU argvU envpU : ℕ) (k : Kernel) :
    Refuses [14, 2, 22] (execArgs pathU argvU envpU k) := by
  refine refuses_ite (refuses_errno (by decide)) (refuses_bind fun path _ => ?_)
  refine refuses_ite (refuses_errno (by decide)) (refuses_bind fun r hr => ?_)
  split
  · intro e he
    cases he
    exact parseUserPtrvec_refuses k argvU 32 256 _ hr
  · refine refuses_bind fun r hr => ?_
    split
    · intro e he
      cases he
      exact parseUserPtrvec_refuses k envpU 16 256 _ hr
    · exact refuses_ok _

theorem sysExecve_yields (w : Walker) (bin : List UInt8) (pathU argvU envpU : ℕ) :
    Yields (AnswersWith (fun v => v = 0) (errnos .execve))
      (sysExecve w bin pathU argvU envpU) := by
  have hargs : Yields (fun r => ∀ e, r = .error e → Failure e [14, 2, 22])
      (inspect (execArgs pathU argvU envpU)) := by
    intro k r k' hrun e he
    obtain ⟨hargs, -⟩ := inspect_ok hrun
    exact execArgs_refuses pathU argvU envpU k e (he ▸ hargs)
  refine yields_bind hargs fun r hr => ?_
  split
  · rename_i e
    obtain ⟨n, hn, rfl⟩ := hr e rfl
    have hsub : [14, 2, 22] ⊆ errnos .execve := by decide
    exact yields_errno (hsub hn)
  · refine yields_last fun r => ?_
    split
    · exact yields_errno (by decide)
    · exact yields_last fun _ => yields_last fun _ => yields_zero

/-! ## The numbers in the table -/

/-- A table entry from which answers can be read. -/
structure NumbersInRange (p : Process) : Prop where
  pid : 1 ≤ p.pid ∧ p.pid ≤ 34
  parent : ∀ q, p.parent = some q → q ≤ 34 ∧ 2 ≤ p.pid
  heap : userBrkBase ≤ p.brkEnd ∧ p.brkEnd ≤ userBrkLimit

def AllNumbered (k : Kernel) : Prop := ∀ s p, k.proc s = some p → NumbersInRange p

/-- Only the identity and the end of the heap matter. -/
theorem NumbersInRange.of_same {p q : Process} (h : NumbersInRange p)
    (hid : identity q = identity p) (hheap : q.brkEnd = p.brkEnd) : NumbersInRange q := by
  simp only [identity, Identity.mk.injEq] at hid
  obtain ⟨hpid, hparent, -⟩ := hid
  exact ⟨hpid ▸ h.pid, fun x hx => hpid ▸ h.parent x (hparent ▸ hx), hheap ▸ h.heap⟩

theorem AllNumbered.of_procs {k k' : Kernel} (h : AllNumbered k) (hprocs : k'.procs = k.procs) :
    AllNumbered k' := by
  intro s p hp
  refine h s p ?_
  rwa [Kernel.proc, hprocs] at hp

theorem AllNumbered.updateCurrent {k : Kernel} {f : Process → Process} (h : AllNumbered k)
    (hf : ∀ p, NumbersInRange p → NumbersInRange (f p)) : AllNumbered (k.updateCurrent f) := by
  intro s p hp
  have hupd := proc_updateProc k k.currentSlot f s
  rw [Kernel.updateCurrent, hupd] at hp
  split_ifs at hp with hs
  · obtain ⟨q, hq, rfl⟩ := Option.map_eq_some_iff.mp hp
    exact hf q (h s q hq)
  · exact h s p hp

theorem numbered_permits {e : Edit} (he : e ≠ .table) : Permits (Keeps AllNumbered) e := by
  cases e with
  | table => exact absurd rfl he
  | own => exact fun k f hf h => h.updateCurrent fun p hp => hp.of_same (hf p).1 (hf p).2
  | heap => exact fun k addr hlo hhi h =>
      h.updateCurrent fun p hp => ⟨hp.pid, hp.parent, hlo, hhi⟩
  | irqs => exact fun k irqs rest h => h.of_procs (takeIrqs_procs irqs { k with waits := rest })
  | bytes => exact fun k m _ h => h.of_procs rfl
  | memory => exact fun k m h => h.of_procs rfl
  | placement => exact fun k next id h => h.of_procs rfl
  | files => exact fun k fs _ h => h.of_procs rfl
  | descriptor => exact fun k files h => h.of_procs rfl
  | terminal => exact fun k tty h => h.of_procs rfl
  | resched => exact fun k h => h.of_procs rfl
  | queue => exact fun k slot h => h.of_procs rfl

section
variable {cfg : Config} {t : Trap} {k k₁ k' : Kernel} {v : UInt64}

theorem currentPid_le (h : AllNumbered k) : 1 ≤ currentPid k ∧ currentPid k ≤ 34 := by
  unfold currentPid
  cases hp : k.current with
  | none => exact ⟨le_rfl, by decide⟩
  | some p => exact (h k.currentSlot p hp).pid

/-- A table with 32 entries never needs a pid above 34. -/
theorem allocPid_le (hslots : k.procs.length ≤ maxProcs) {pid : ℕ}
    (h : allocPid k.procs = some pid) : 2 ≤ pid ∧ pid ≤ 34 := by
  obtain ⟨least, hleast, hlo, hhi, -⟩ := ProcessTable.allocPid_least hslots
  rw [h, Option.some.injEq] at hleast
  rw [hleast]
  exact ⟨hlo, hhi⟩

theorem Forked.numbered {slot : ℕ} {child : Process} (hf : Forked slot child k k')
    (h : AllNumbered k) (hchild : NumbersInRange child) : AllNumbered k' := by
  intro s p hp
  rw [hf.proc] at hp
  split_ifs at hp with hs
  · cases hp
    exact hchild
  · exact h s p hp

theorem Reaped.numbered {slot : ℕ} {p : Process} (hr : Reaped slot p k k') (h : AllNumbered k) :
    AllNumbered k' := by
  intro s q hq
  rw [hr.proc] at hq
  split_ifs at hq with hs
  exact h s q hq

theorem dispatch_numbered (hslots : k.procs.length ≤ maxProcs) (h : AllNumbered k)
    (hcall : dispatch cfg t k = .ok (.returned v) k₁) : AllNumbered k₁ := by
  have htrap : AllNumbered (trapState t k) := h.of_procs rfl
  by_cases hfork : sysno (t.reg .rax) = some .fork
  · rw [dispatch_eq, syscallDispatch, hfork] at hcall
    obtain ⟨v', -, hrun⟩ := returning_ok hcall
    rcases sysFork_cases hrun with ⟨-, m, rfl⟩ | ⟨pid, parent, slot, -, hpid, hparent, -, hf⟩
    · exact htrap.of_procs rfl
    · have hp := allocPid_le (k := trapState t k) hslots hpid
      have hnew : NumbersInRange parent := htrap _ _ hparent
      refine Forked.numbered hf htrap ⟨⟨le_trans (by decide) hp.1, hp.2⟩,
        fun q hq => ?_, hnew.heap⟩
      cases hq
      exact ⟨(currentPid_le htrap).2, hp.1⟩
  by_cases hwait : sysno (t.reg .rax) = some .wait4
  · rw [dispatch_eq, syscallDispatch, hwait] at hcall
    obtain ⟨v', -, hrun⟩ := returning_ok hcall
    rcases sysWait4_cases hrun with rfl | ⟨slot, p, hreap⟩
    · exact htrap
    · exact Reaped.numbered hreap htrap
  have hkept : Keeps AllNumbered (trapState t k) k₁ := by
    refine dispatch_footprint hcall fun c hc e he => numbered_permits ?_
    rintro rfl
    cases c <;> simp_all [footprint]
  exact hkept htrap

theorem step_numbered {e : Event} {o : Option Resumed} (hready : Ready k)
    (hslots : k.procs.length ≤ maxProcs) (h : AllNumbered k)
    (hstep : step cfg e k = some (o, k')) : AllNumbered k' := by
  cases e with
  | irq i =>
      obtain ⟨-, rfl⟩ := step_irq_ok hstep
      exact h.of_procs (takeIrqs_procs [i] k)
  | syscall t =>
      obtain ⟨r, -, hrun⟩ := step_syscall_ok hstep
      intro s p hp
      cases syscall_turn hready hrun with
      | returned v k₁ call noExit outcome proc runnable =>
          have hk₁ := dispatch_numbered hslots h call
          rw [proc] at hp
          split_ifs at hp with hs
          · obtain ⟨q, hq, rfl⟩ := Option.map_eq_some_iff.mp hp
            have hq' := hk₁ s q hq
            exact ⟨hq'.pid, hq'.parent, hq'.heap⟩
          · exact hk₁ s p hp
      | exited call proc runnable =>
          rw [proc] at hp
          split_ifs at hp with hs
          · obtain ⟨q, hq, rfl⟩ := Option.map_eq_some_iff.mp hp
            have hq' := h s q hq
            exact ⟨hq'.pid, hq'.parent, hq'.heap⟩
          · exact h s p hp

/-! ## The counters -/

def SameFd (k k' : Kernel) : Prop := k'.fs.nextFd = k.fs.nextFd

instance : IsPreorder Kernel SameFd where
  refl _ := rfl
  trans _ _ _ h h' := h'.trans h

theorem sameFd_permits {e : Edit} (he : e ≠ .descriptor) : Permits SameFd e := by
  cases e with
  | descriptor => exact absurd rfl he
  | files => exact fun k fs hfs => hfs
  | irqs =>
      intro k irqs rest
      obtain ⟨_, _, _, hsame⟩ := takeIrqs_eq irqs { k with waits := rest }
      rw [SameFd, hsame]
  | bytes => exact fun _ _ _ => rfl
  | memory => exact fun _ _ => rfl
  | own => exact fun _ _ _ => rfl
  | heap => exact fun _ _ _ _ => rfl
  | placement => exact fun _ _ _ => rfl
  | terminal => exact fun _ _ => rfl
  | resched => exact fun _ => rfl
  | table => exact fun _ _ => rfl
  | queue => exact fun _ _ => rfl

theorem dispatch_fd (hcall : dispatch cfg t k = .ok (.returned v) k₁) :
    k₁.fs.nextFd = k.fs.nextFd ∨ k₁.fs.nextFd = k.fs.nextFd + 1 := by
  by_cases hopen : sysno (t.reg .rax) = some .openFile
  · rw [dispatch_eq, syscallDispatch, hopen] at hcall
    obtain ⟨v', -, hrun⟩ := returning_ok hcall
    rcases Descriptors.sysOpen_cases hrun with ⟨hsame, -⟩ | ⟨hissues, -⟩
    · exact .inl hsame.2
    · exact .inr hissues.next
  · have hsame : SameFd (trapState t k) k₁ := by
      refine dispatch_footprint hcall fun c hc e he => sameFd_permits ?_
      rintro rfl
      cases c <;> simp_all [footprint]
    exact .inl hsame

theorem step_fd {e : Event} {o : Option Resumed} (hready : Ready k)
    (hstep : step cfg e k = some (o, k')) :
    k'.fs.nextFd = k.fs.nextFd ∨ k'.fs.nextFd = k.fs.nextFd + 1 := by
  cases e with
  | irq i =>
      obtain ⟨-, rfl⟩ := step_irq_ok hstep
      exact .inl (sameFd_permits (e := .irqs) (by decide) k [i] k.waits)
  | syscall t =>
      obtain ⟨r, -, hrun⟩ := step_syscall_ok hstep
      cases syscall_after hready hrun with
      | exited call final =>
          rw [final]
          exact .inl rfl
      | returned v k₁ call final =>
          obtain ⟨_, _, _, htail⟩ := tailState_eq r.slot t k v k₁
          have hfs : k'.fs = k₁.fs := by
            rw [final, htail]
            rfl
          rw [hfs]
          exact dispatch_fd call

theorem aligned_moved {next len : ℕ} (h : next % pageSize = 0) :
    (next + pageCount len * pageSize) % 2 ^ 64 % pageSize = 0 := by
  have hdvd : pageSize ∣ 2 ^ 64 := by decide
  rw [Nat.mod_mod_of_dvd _ hdvd, Nat.add_mul_mod_self_right]
  exact h

theorem step_aligned {e : Event} {o : Option Resumed} (hready : Ready k)
    (hstep : step cfg e k = some (o, k')) (h : k.nextMmap % pageSize = 0) :
    k'.nextMmap % pageSize = 0 := by
  rcases step_next hready hstep with hsame | ⟨t, -, -, hmoved⟩
  · rw [hsame]
    exact h
  · rw [hmoved]
    exact aligned_moved h

end

/-- The numbers from which answers are read after `n` steps. -/
structure Ranged (n : ℕ) (k : Kernel) : Prop where
  procs : AllNumbered k
  fd : 4 ≤ k.fs.nextFd.toNat ∧ k.fs.nextFd.toNat ≤ 4 + n
  next : userMmapBase ≤ k.nextMmap ∧ k.nextMmap % pageSize = 0

/-- The state in which user code first runs, with the counters as the kernel image
holds them. -/
structure FreshCounters (k : Kernel) : Prop where
  fresh : FreshWindow k
  fd : k.fs.nextFd = 4

theorem FreshCounters.ranged {k : Kernel} (h : FreshCounters k) : Ranged 0 k := by
  refine ⟨?_, by rw [h.fd]; decide, by rw [h.fresh.next]; decide⟩
  obtain ⟨staleTop, boxedTop, k₀, -, rfl⟩ := h.fresh
  intro s p hp
  obtain ⟨-, rfl⟩ := boot_proc hp
  exact ⟨show 1 ≤ 1 ∧ 1 ≤ 34 by decide, nofun,
    show userBrkBase ≤ userBrkBase ∧ userBrkBase ≤ userBrkLimit by decide⟩

section
variable {cfg : Config} {t : Trap} {k₀ k k₁ : Kernel} {v : UInt64} {n : ℕ}
  {tr : List (Event × Option Resumed)}

theorem run_reachable (hfresh : FreshWindow k₀) (hrun : Run (step cfg) k₀ tr k) :
    Reachable cfg k := by
  obtain ⟨staleTop, boxedTop, k₁, -, rfl⟩ := hfresh
  exact ⟨staleTop, boxedTop, k₁, tr, hrun⟩

theorem step_ranged {e : Event} {o : Option Resumed} (hk : Reachable cfg k) (h : Ranged n k)
    (hn : n < 2 ^ 40) (hstep : step cfg e k = some (o, k₁)) :
    AllNumbered k₁ ∧ (4 ≤ k₁.fs.nextFd.toNat ∧ k₁.fs.nextFd.toNat ≤ 4 + (n + 1)) ∧
      k₁.nextMmap % pageSize = 0 := by
  have hready := Reachable.ready hk
  refine ⟨step_numbered hready (ProcessTable.Reachable.sound hk).slots h.procs hstep, ?_,
    step_aligned hready hstep h.next.2⟩
  have hfd := h.fd
  rcases step_fd hready hstep with hsame | hmoved
  · rw [hsame]
    omega
  · rw [hmoved, UInt64.toNat_add]
    simp only [UInt64.reduceToNat]
    omega

theorem run_ranged (hstart : FreshCounters k₀) (hrun : Run (step cfg) k₀ tr k)
    (hlen : tr.length < 2 ^ 40) : Ranged tr.length k := by
  have hnext : ∀ {tr k}, Run (step cfg) k₀ tr k → tr.length < 2 ^ 40 →
      userMmapBase ≤ k.nextMmap := by
    intro tr k hrun hlen
    have hlow := run_next hrun hstart.fresh.ready (room hstart.fresh hlen)
    rw [hstart.fresh.next] at hlow
    exact hlow.1
  suffices hall : Run (step cfg) k₀ tr k ∧ (tr.length < 2 ^ 40 → Ranged tr.length k) from
    hall.2 hlen
  refine hrun.history (J := fun tr k => Run (step cfg) k₀ tr k ∧
    (tr.length < 2 ^ 40 → Ranged tr.length k)) ⟨.done k₀, fun _ => hstart.ranged⟩ ?_
  intro tr e x o y hx hstep
  refine ⟨hx.1.snoc hstep, fun hlen => ?_⟩
  have hy := hnext (hx.1.snoc hstep) hlen
  rw [List.length_append, List.length_singleton] at hlen ⊢
  obtain ⟨hprocs, hfd, haligned⟩ :=
    step_ranged (run_reachable hstart.fresh hx.1) (hx.2 (by omega)) (by omega) hstep
  exact ⟨hprocs, hfd, hy, haligned⟩

/-! ## Answers that are read from the state -/

theorem sysOpen_answer {pathPtr : ℕ} {flags : UInt64} (h : sysOpen pathPtr flags k = .ok v k₁) :
    v = 0 ∨ v = k.fs.nextFd ∨ Failure v (errnos .openFile) := by
  cases hregion : userRegionIsReadableRange k pathPtr 128 with
  | false =>
      rw [Descriptors.sysOpen_of_unreadable flags hregion] at h
      cases h
      exact .inr (.inr ⟨14, by decide, rfl⟩)
  | true =>
      obtain ⟨path, hpath⟩ := Descriptors.pathAt_of_returns hregion h
      cases Descriptors.sysOpen_of_path flags hpath with
      | inl hnew =>
          rw [hnew.2] at h
          exact .inr (.inl (Descriptors.openNew_issues h).fd)
      | inr hother =>
          obtain ⟨-, v', k₂, hrun, hv, -⟩ := hother
          obtain ⟨rfl, -⟩ := EStateM.Result.ok.inj (hrun.symm.trans h)
          simp only [List.mem_cons, List.not_mem_nil, or_false] at hv
          rcases hv with rfl | rfl | rfl | rfl
          · exact .inr (.inr ⟨22, by decide, rfl⟩)
          · exact .inl rfl
          · exact .inr (.inr ⟨2, by decide, rfl⟩)
          · exact .inr (.inr ⟨24, by decide, rfl⟩)

theorem sysBrk_answer {w : Walker} {addr : ℕ} {p : Process} (hp : k.current = some p)
    (hnum : NumbersInRange p) (h : sysBrk w addr k = .ok v k₁) :
    AnswersWith (fun v => userBrkBase ≤ v ∧ v ≤ userBrkLimit) (errnos .brk) v := by
  have hlimit : userBrkLimit < 2 ^ 64 := by decide
  have hin : ∀ a, userBrkBase ≤ a → a ≤ userBrkLimit →
      AnswersWith (fun v => userBrkBase ≤ v ∧ v ≤ userBrkLimit) (errnos .brk) (UInt64.ofNat a) := by
    intro a hlo hhi
    have heq : (UInt64.ofNat a).toNat = a := by
      rw [UInt64.toNat_ofNat', Nat.mod_eq_of_lt (by omega)]
    exact .inl (heq.symm ▸ ⟨hlo, hhi⟩)
  have hedit : ∀ {edit : MemM Unit}, userBrkBase ≤ addr → addr ≤ userBrkLimit →
      editThen edit (setBrkEnd addr) (UInt64.ofNat addr) k = .ok v k₁ →
      AnswersWith (fun v => userBrkBase ≤ v ∧ v ≤ userBrkLimit) (errnos .brk) v := by
    intro edit hlo hhi hrun
    rcases editThen_cases hrun with ⟨m, -, rfl, -⟩ | ⟨reason, m, -, rfl, -⟩
    · exact hin addr hlo hhi
    · exact .inr ⟨12, by decide, rfl⟩
  cases sysBrk_returns hp h with
  | same hv hk haddr =>
      rw [hv]
      exact hin _ hnum.heap.1 hnum.heap.2
  | refused hv hk haddr => exact .inr ⟨12, by decide, hv⟩
  | shrink hlo hhi hlt hrun => exact hedit hlo hhi hrun
  | grow hlo hhi hlt hrun => exact hedit hlo hhi hrun

/-- An area of whole pages in the window. -/
theorem mmapAt_answer {w : Walker} {addr len prot : ℕ} (haligned : addr % pageSize = 0)
    (hlo : userMmapBase ≤ addr) (hhi : addr + pageCount len * pageSize ≤ userMmapLimit)
    (h : mmapAt w addr (pageCount len) prot k = .ok v k₁) :
    AnswersWith (fun v => v % pageSize = 0 ∧ userMmapBase ≤ v ∧
      v + pageCount len * pageSize ≤ userMmapLimit) (errnos .mmap) v := by
  have hlimit : userMmapLimit < 2 ^ 64 := by decide
  rcases (mmapAt_next h).2 with rfl | rfl
  · have heq : (UInt64.ofNat addr).toNat = addr := by
      rw [UInt64.toNat_ofNat', Nat.mod_eq_of_lt (by omega)]
    exact .inl (heq.symm ▸ ⟨haligned, hlo, hhi⟩)
  · exact .inr ⟨12, by decide, rfl⟩

theorem sysMmap_answer {w : Walker} {addr len prot : ℕ}
    (hnext : userMmapBase ≤ k.nextMmap ∧ k.nextMmap % pageSize = 0)
    (h : sysMmap w addr len prot k = .ok v k₁) :
    AnswersWith (fun v => v % pageSize = 0 ∧ userMmapBase ≤ v ∧
      v + pageCount len * pageSize ≤ userMmapLimit) (errnos .mmap) v := by
  have hmax : userMmapLimit < u64Max := by decide
  cases sysMmap_returns h with
  | refused hv hk hargs => exact .inr ⟨22, by decide, hv⟩
  | full hv hk hlen haddr => exact .inr ⟨12, by decide, hv⟩
  | bumped hlen haddr hroom hrun =>
      unfold saturatingAdd at hroom
      exact mmapAt_answer hnext.2 hnext.1 (by omega) hrun
  | fixed hlen haddr haligned hlo hhi hrun =>
      refine mmapAt_answer haligned hlo ?_ hrun
      -- the end of the window is a page boundary, so rounding up stays inside
      have hsize : pageSize = 4096 := rfl
      have hlimit : userMmapLimit = 0x480000 := rfl
      unfold saturatingAdd at hhi
      unfold pageCount
      rw [hsize] at haligned ⊢
      omega

theorem toNat_pid {pid : ℕ} (h : pid ≤ 34) : (UInt64.ofNat pid).toNat = pid := by
  rw [UInt64.toNat_ofNat', Nat.mod_eq_of_lt (by omega)]

theorem sysFork_answer {w : Walker} {mem : UInt64 → UInt64} {rsp top : UInt64}
    (hslots : k.procs.length ≤ maxProcs) (h : sysFork w mem rsp top k = .ok v k₁) :
    AnswersWith (fun v => 2 ≤ v ∧ v ≤ 34) (errnos .fork) v := by
  rcases sysFork_cases h with ⟨rfl, -⟩ | ⟨pid, parent, slot, -, hpid, -, rfl, -⟩
  · exact .inr ⟨12, by decide, rfl⟩
  · have hle := allocPid_le hslots hpid
    exact .inl ((toNat_pid hle.2).symm ▸ hle)

theorem deliverStatus_yields (child : ℕ) (status : Int32) (wstatus : ℕ) :
    Yields (fun v => v = UInt64.ofNat child ∨ v = errno 14)
      (deliverStatus child status wstatus) := by
  refine yields_ite (fun _ => yields_pure (.inl rfl)) fun _ => yields_last fun _ => ?_
  refine yields_ite (fun _ => yields_pure (.inr rfl)) fun _ => ?_
  refine yields_ite (fun _ => yields_throw _ _) fun _ => ?_
  exact yields_last fun _ => yields_pure (.inl rfl)

theorem sysWait4_answer {pid : ℤ} {wstatus : ℕ} (hnum : AllNumbered k)
    (h : sysWait4 pid wstatus k = .ok v k₁) :
    AnswersWith (fun v => 2 ≤ v ∧ v ≤ 34) (errnos .wait4) v := by
  rw [sysWait4] at h
  obtain ⟨r, k₂, hreap, hrest⟩ := bind_ok h
  rcases waitReap_cases hreap with ⟨rfl, -⟩ | ⟨slot, p, code, rfl, -, hr⟩
  · cases hrest
    exact .inr ⟨11, by decide, rfl⟩
  · have hp := hnum slot p hr.zombie.1
    rcases deliverStatus_yields _ _ _ _ _ _ hrest with rfl | rfl
    · exact .inl ((toNat_pid hp.pid.2).symm ▸ ⟨(hp.parent _ hr.child).2, hp.pid.2⟩)
    · exact .inr ⟨14, by decide, rfl⟩

/-! ## Every call -/

theorem dispatch_answers (hready : Ready k) (hslots : k.procs.length ≤ maxProcs)
    (h : Ranged n k) (hn : n < 2 ^ 40) (hcall : dispatch cfg t k = .ok (.returned v) k₁) :
    Answers t v := by
  have hnum : AllNumbered (trapState t k) := h.procs.of_procs rfl
  obtain ⟨p, hp, -⟩ := hready.alive
  have hcurrent : (trapState t k).current = some p := hp
  have hexit := (dispatch_outcome hcall).1
  rw [dispatch_eq, syscallDispatch] at hcall
  unfold Answers
  cases hc : sysno (t.reg .rax) with
  | none =>
      rw [hc] at hcall
      cases hcall
      rfl
  | some c =>
      rw [hc] at hcall
      have hfd := h.fd
      cases c with
      | exit => exact absurd hc hexit
      | read => exact sysRead_yields _ _ _ _ _ _ (returning_run hcall)
      | write => exact sysWrite_yields _ _ _ _ _ _ (returning_run hcall)
      | openFile =>
          rcases sysOpen_answer (returning_run hcall) with rfl | rfl | hfail
          · exact .inl (.inl rfl)
          · exact .inl (.inr ⟨hfd.1, lt_of_le_of_lt hfd.2 (by omega)⟩)
          · exact .inr hfail
      | close => exact sysClose_yields _ _ _ _ (returning_run hcall)
      | mmap => exact sysMmap_answer (k := trapState t k) h.next (returning_run hcall)
      | munmap => exact sysMunmap_yields _ _ _ _ _ (returning_run hcall)
      | brk => exact sysBrk_answer hcurrent (hnum _ _ hcurrent) (returning_run hcall)
      | schedYield =>
          cases returning_run hcall
          exact .inl rfl
      | nanosleep => exact sysNanosleep_yields _ _ _ _ (returning_run hcall)
      | getpid =>
          cases returning_run hcall
          have hle := currentPid_le hnum
          exact .inl ((toNat_pid hle.2).symm ▸ hle)
      | getppid =>
          cases returning_run hcall
          have hle : (currentPpid (trapState t k)).getD 0 ≤ 34 := by
            rw [currentPpid, hcurrent, Option.bind_some]
            cases hparent : p.parent with
            | none => exact Nat.zero_le 34
            | some q => exact ((hnum _ _ hcurrent).parent q hparent).1
          exact .inl ((toNat_pid hle).symm ▸ hle)
      | fork => exact sysFork_answer (k := trapState t k) hslots (returning_run hcall)
      | execve => exact sysExecve_yields _ _ _ _ _ _ _ _ (returning_run hcall)
      | wait4 => exact sysWait4_answer hnum (returning_run hcall)

/-- Results keep away from the error numbers. -/
theorem Success.lt {c : Sysno} {w : ℕ} (h : Success t w c) : w < 2 ^ 41 := by
  have hbrk : userBrkLimit < 2 ^ 41 := by decide
  have hmmap : userMmapLimit < 2 ^ 41 := by decide
  cases c with
  | exit => exact h.elim
  | _ =>
      simp only [Success] at h
      omega

theorem errnos_range (c : Sysno) : ∀ e ∈ errnos c, 0 < e ∧ e ≤ 38 := by
  cases c <;> decide

end

/-- In every run of fewer than 2^40 steps, every answer of a system call is a
result in the range of the call, below 2^41, or one of its error numbers. -/
theorem every_answer_in_range (cfg : Config) (k₀ k k₁ : Kernel) (t : Trap) (v : UInt64)
    (tr : List (Event × Option Resumed)) (hstart : FreshCounters k₀) (hrun : Run (step cfg) k₀ tr k)
    (hlen : tr.length < 2 ^ 40) (hcall : dispatch cfg t k = .ok (.returned v) k₁) :
    Answers t v ∧ (v.toNat < 2 ^ 41 ∨ ∃ e, 0 < e ∧ e ≤ 38 ∧ v = errno e) := by
  have hk := run_reachable hstart.fresh hrun
  have hanswers := dispatch_answers (Reachable.ready hk) (ProcessTable.Reachable.sound hk).slots
    (run_ranged hstart hrun hlen) hlen hcall
  refine ⟨hanswers, ?_⟩
  unfold Answers at hanswers
  cases hc : sysno (t.reg .rax) with
  | none =>
      rw [hc] at hanswers
      exact .inr ⟨38, by decide, le_rfl, hanswers⟩
  | some c =>
      rw [hc] at hanswers
      rcases hanswers with hsuccess | ⟨e, he, hv⟩
      · exact .inl hsuccess.lt
      · have hrange := errnos_range c e he
        exact .inr ⟨e, hrange.1, hrange.2, hv⟩

theorem started_pristine : FreshCounters started := ⟨started_fresh, rfl⟩

/-- Two areas are asked for one after the other. -/
theorem every_answer_in_range_mmap : ∃ o k v k₁,
    step machine (.syscall (mmapTrap 5000)) started = some (o, k) ∧
    dispatch machine (mmapTrap 1) k = .ok (.returned v) k₁ ∧ Answers (mmapTrap 1) v := by
  have hsecond : (step machine (.syscall (mmapTrap 5000)) started).map (fun x =>
      (returned (dispatch machine (mmapTrap 1) x.2)).map (fun y => valueOf y.1)) =
        some (some (some 0x412000)) := by decide +kernel
  obtain ⟨⟨o, k⟩, hstep, hanswer⟩ := Option.map_eq_some_iff.mp hsecond
  obtain ⟨k₁, hcall⟩ := dispatch_of_answer hanswer
  exact ⟨o, k, _, k₁, hstep, hcall, (every_answer_in_range machine started k k₁ (mmapTrap 1) _ _
    started_pristine (.single hstep) (by simp) hcall).1⟩

end Rockos.CallResults
