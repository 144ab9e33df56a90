import Rockos.IrqLocks
import Rockos.RunQueue

/-!
# Which system calls wait

The lock programs leave open how often a wait is repeated. The kernel model
decides it: a call takes one batch of interrupts for every wait, so the batches
that are left when it returns tell how often it waited. Only two calls that
return have waited, a blocking read that finds nothing to deliver and a sleep.
-/
namespace Rockos.IrqWaits
open FallibleState Paging KernelState AddressSpace Tty LockTrace SyscallEffects RunQueue
open Syscall hiding Event

/-- Batches are taken, never added. -/
def Drained (k k' : Kernel) : Prop := k'.waits.length ≤ k.waits.length

instance : IsPreorder Kernel Drained where
  refl _ := le_rfl
  trans _ _ _ h h' := h'.trans h

section
variable {α : Type} {poll : KernelM (Option α)} {k k' : Kernel}

theorem takeIrqs_waits (irqs : List Irq) (k : Kernel) : (takeIrqs irqs k).waits = k.waits := by
  obtain ⟨_, _, _, hsame⟩ := takeIrqs_eq irqs k
  rw [hsame]

theorem enableAndHlt_waits {u : Unit} (h : enableAndHlt k = .ok u k') :
    k'.waits.length < k.waits.length := by
  simp only [enableAndHlt, bind_run, get_run] at h
  cases hw : k.waits with
  | nil => simp [hw] at h
  | cons irqs rest =>
      simp only [hw, modify_run, EStateM.Result.ok.injEq, true_and] at h
      rw [← h, takeIrqs_waits]
      exact Nat.lt_succ_self _

theorem enableAndHlt_drained : Within Drained enableAndHlt := by
  intro k
  cases h : enableAndHlt k with
  | ok u k' => exact (enableAndHlt_waits h).le
  | error e k' =>
      simp only [enableAndHlt, bind_run, get_run] at h
      cases hw : k.waits with
      | nil =>
          simp only [hw, throw_run, EStateM.Result.error.injEq] at h
          exact h.2 ▸ le_rfl
      | cons irqs rest => simp [hw] at h

theorem waitTurns_drained (hpoll : Within Local poll) (n : ℕ) :
    Within Drained (waitTurns poll n) := by
  induction n with
  | zero => exact within_throw _
  | succ n ih =>
      refine within_bind (hpoll.mono fun _ _ h => (congrArg List.length h.waits).le) fun r => ?_
      cases r with
      | none => exact within_bind enableAndHlt_drained fun _ => ih
      | some a => exact within_pure _

/-- A loop that ends did not wait if and only if its first poll succeeded. -/
theorem waitLoop_waits_iff (hpoll : Within Local poll) {a : α} (h : waitLoop poll k = .ok a k') :
    k'.waits.length = k.waits.length ↔ ∃ b k₁, poll k = .ok (some b) k₁ := by
  have hturn : waitTurns poll (k.waits.length + 1) k = .ok a k' := h
  rw [waitTurns] at hturn
  obtain ⟨r, k₁, hfirst, hturn⟩ := bind_ok hturn
  have hwaits := (hpoll.ok hfirst).waits
  cases r with
  | some b =>
      simp only [pure_run, EStateM.Result.ok.injEq] at hturn
      rw [← hturn.2, hwaits]
      exact ⟨fun _ => ⟨b, k₁, hfirst⟩, fun _ => rfl⟩
  | none =>
      obtain ⟨_, k₂, hhlt, hturn⟩ := bind_ok hturn
      have hless := enableAndHlt_waits hhlt
      have hrest : k'.waits.length ≤ k₂.waits.length := (waitTurns_drained hpoll _).ok hturn
      rw [hwaits] at hless
      refine ⟨fun heq => by omega, ?_⟩
      rintro ⟨b, k₁', hfirst'⟩
      simp [hfirst] at hfirst'

end

/-! ## read -/

/-- What the terminal has for a reader with a buffer of `len` bytes. -/
def deliverable (k : Kernel) (len : ℕ) : List UInt8 := (k.tty.readyLines.headD []).take len

/-- `sys_read` enters its loop and finds nothing in the first turn. -/
structure WaitsForLine (fd : UInt64) (buf len : ℕ) (k : Kernel) : Prop where
  size : len ≤ 8192
  writable : userRegionIsWritableRange k buf len = true
  stdin : fd = 0
  blocking : k.fs.stdinNonblock = false
  nothing : deliverable k len = []

section
variable {k k' : Kernel} {buf len : ℕ}

theorem ttyRead_ok {x : Except ℤ ℕ} (h : ttyRead buf len false k = .ok x k') :
    x = .ok (deliverable k len).length := by
  rw [ttyRead] at h
  obtain ⟨k₁, k₂, hget, h⟩ := bind_ok h
  cases hget
  obtain ⟨_, k₃, -, h⟩ := bind_ok h
  cases hl : k.tty.readyLines with
  | nil =>
      simp only [TtyState.read, hl] at h
      obtain ⟨_, k₄, -, h⟩ := bind_ok h
      cases h
      simp [deliverable, hl]
  | cons line rest =>
      simp only [TtyState.read, hl] at h
      obtain ⟨_, k₄, -, h⟩ := bind_ok h
      cases h
      simp [deliverable, hl, Nat.min_comm]

theorem pollStdin_ok {r : Option UInt64} (h : pollStdin buf len k = .ok r k') :
    r = none ↔ deliverable k len = [] := by
  rw [pollStdin] at h
  obtain ⟨x, k₁, hread, h⟩ := bind_ok h
  obtain rfl := ttyRead_ok hread
  rw [← List.length_eq_zero_iff]
  cases hn : (deliverable k len).length with
  | zero =>
      simp only [hn, pure_run, EStateM.Result.ok.injEq] at h
      simp [← h.1]
  | succ n =>
      simp only [hn, pure_run, EStateM.Result.ok.injEq] at h
      simp [← h.1]

theorem readStdin_waits_iff {v : UInt64} (h : readStdin buf len k = .ok v k') :
    k'.waits.length = k.waits.length ↔
      ¬ (k.fs.stdinNonblock = false ∧ deliverable k len = []) := by
  rw [readStdin] at h
  obtain ⟨k₁, k₂, hget, h⟩ := bind_ok h
  cases hget
  cases hnb : k.fs.stdinNonblock with
  | true =>
      rw [hnb, if_neg (by simp)] at h
      obtain ⟨x, k₁, hread, h⟩ := bind_ok h
      have hwaits := ((ttyRead_within allows_local buf len true).ok hread).waits
      have hk : k₁ = k' := by cases x <;> cases h <;> rfl
      simp [← hk, hwaits]
  | false =>
      rw [hnb, if_pos (by simp)] at h
      rw [waitLoop_waits_iff (pollStdin_within allows_local buf len) h]
      constructor
      · rintro ⟨b, k₁, hpoll⟩ ⟨-, hnothing⟩
        exact absurd ((pollStdin_ok hpoll).mpr hnothing) (by simp)
      · intro hsome
        rw [waitLoop, bind_run, get_run] at h
        obtain ⟨r, k₁, hpoll, -⟩ := bind_ok h
        cases r with
        | none => exact absurd ⟨rfl, (pollStdin_ok hpoll).mp rfl⟩ hsome
        | some b => exact ⟨b, k₁, hpoll⟩

theorem sysRead_waits_iff {fd v : UInt64} (h : sysRead fd buf len k = .ok v k') :
    k'.waits.length = k.waits.length ↔ ¬ WaitsForLine fd buf len k := by
  have hstay : k' = k → (∀ hw : WaitsForLine fd buf len k, False) →
      (k'.waits.length = k.waits.length ↔ ¬ WaitsForLine fd buf len k) :=
    fun heq hno => ⟨fun _ hw => hno hw, fun _ => by rw [heq]⟩
  rw [sysRead] at h
  by_cases hlen : len > 8192
  · rw [if_pos hlen] at h
    cases h
    exact hstay rfl fun hw => absurd hw.size (by omega)
  rw [if_neg hlen] at h
  obtain ⟨k₁, k₂, hget, h⟩ := bind_ok h
  cases hget
  cases hwr : userRegionIsWritableRange k buf len with
  | false =>
      rw [hwr, if_pos (by simp)] at h
      cases h
      exact hstay rfl fun hw => by simpa [hwr] using hw.writable
  | true =>
      rw [hwr, if_neg (by simp)] at h
      by_cases hfd : fd = 0
      · rw [if_pos hfd] at h
        rw [readStdin_waits_iff h]
        exact not_congr ⟨fun hw => ⟨by omega, hwr, hfd, hw.1, hw.2⟩,
          fun hw => ⟨hw.blocking, hw.nothing⟩⟩
      · rw [if_neg hfd] at h
        have hwaits : k'.waits = k.waits := by
          split_ifs at h
          · cases h
            rfl
          · exact ((readFile_within allows_local fd buf len).ok h).waits
        exact ⟨fun _ hw => hfd hw.stdin, fun _ => by rw [hwaits]⟩

end

/-! ## nanosleep -/

/-- A request that can be read always sleeps, unless the clock has saturated. -/
structure Sleeps (req : ℕ) (k : Kernel) : Prop where
  request : req ≠ 0
  readable : userRegionIsReadableRange k req 16 = true
  clock : k.ticks < u64Max

theorem sleepTicks_pos {sec nsec : ℤ} {ticks : ℕ} (h : sleepTicks sec nsec = .ok ticks) :
    1 ≤ ticks := by
  unfold sleepTicks at h
  simp only at h
  split_ifs at h
  cases h
  omega

theorem sleepUntilTicks_waits_iff {deadline : ℕ} {u : Unit} {k k' : Kernel}
    (h : sleepUntilTicks deadline k = .ok u k') :
    k'.waits.length = k.waits.length ↔ ¬ k.ticks < deadline := by
  rw [sleepUntilTicks] at h
  rw [waitLoop_waits_iff
    (within_bind within_get fun _ => within_ite (within_pure _) (within_pure _)) h]
  by_cases hlt : k.ticks < deadline
  · simp [bind_run, hlt]
  · simp [bind_run, hlt]

theorem sysNanosleep_waits_iff {req : ℕ} {v : UInt64} {k k' : Kernel}
    (h : sysNanosleep req k = .ok v k') :
    k'.waits.length = k.waits.length ↔ ¬ Sleeps req k := by
  rw [sysNanosleep] at h
  by_cases hreq : req = 0
  · rw [if_pos hreq] at h
    cases h
    exact ⟨fun _ hs => hs.request hreq, fun _ => rfl⟩
  rw [if_neg hreq] at h
  obtain ⟨k₁, k₂, hget, h⟩ := bind_ok h
  cases hget
  cases hrd : userRegionIsReadableRange k req 16 with
  | false =>
      rw [hrd, if_pos (by simp)] at h
      cases h
      exact ⟨fun _ hs => by simpa [hrd] using hs.readable, fun _ => rfl⟩
  | true =>
      rw [hrd, if_neg (by simp)] at h
      obtain ⟨bytes, k₁, hload, h₁⟩ := bind_ok h
      obtain ⟨-, rfl⟩ := inspect_ok hload
      obtain ⟨ticks, k₂, hticks, h₂⟩ := bind_ok h₁
      obtain ⟨hcount, rfl⟩ := inspect_ok hticks
      obtain ⟨k₃, k₄, hget, h₃⟩ := bind_ok h₂
      cases hget
      obtain ⟨_, k₅, hsleep, h₄⟩ := bind_ok h₃
      cases h₄
      have hclock : k₂.ticks < saturatingAdd k₂.ticks ticks ↔ k₂.ticks < u64Max := by
        have hpos := sleepTicks_pos hcount
        simp only [saturatingAdd]
        omega
      rw [sleepUntilTicks_waits_iff hsleep, hclock]
      exact not_congr ⟨fun hc => ⟨hreq, hrd, hc⟩, fun hs => hs.clock⟩

/-! ## Whole calls -/

/-- The two kinds of calls that wait, decided by the state at the `syscall`
instruction. -/
def Waits (t : Trap) (k : Kernel) : Prop :=
  (sysno (t.reg .rax) = some .read ∧ WaitsForLine (t.reg .rdi) (t.reg .rsi).toNat
    (t.reg .rdx).toNat (trapState t k)) ∨
  (sysno (t.reg .rax) = some .nanosleep ∧ Sleeps (t.reg .rdi).toNat (trapState t k))

theorem syscall_waits_iff {cfg : Config} {t : Trap} {k k' : Kernel} {r : Resumed} (h : Ready k)
    (hrun : syscall cfg t k = .ok r k') : k'.waits.length = t.waits.length ↔ ¬ Waits t k := by
  obtain ⟨k₁, d, hdisp, hrest⟩ := syscall_ok hrun
  have hready := h.of_quiet (quiet_trapState t k)
  rcases syscallDispatch_cases hdisp with ⟨v, rfl, -, heff, hlocal⟩ | ⟨r', rfl, hexit, hsched⟩
  · obtain ⟨v', hv, htail⟩ := hrest.resolve_left fun hd => by cases hd.1
    have htailWaits := (completeSyscallAndSchedule_ready (hready.of_effect heff) htail).2.2.1
    rw [htailWaits]
    cases hn : sysno (t.reg .rax) with
    | none => simp [Waits, hn, hlocal (by simp [hn]) (by simp [hn]), trapState]
    | some c =>
        by_cases hread : c = .read
        · subst hread
          rw [syscallDispatch, hn] at hdisp
          obtain ⟨v'', -, hcall⟩ := returning_ok hdisp
          have hiff := sysRead_waits_iff hcall
          simpa [Waits, hn, trapState] using hiff
        · by_cases hsleep : c = .nanosleep
          · subst hsleep
            rw [syscallDispatch, hn] at hdisp
            obtain ⟨v'', -, hcall⟩ := returning_ok hdisp
            have hiff := sysNanosleep_waits_iff hcall
            simpa [Waits, hn, trapState] using hiff
          · simp [Waits, hn, hlocal (by simp [hn, hread]) (by simp [hn, hsleep]), trapState, hread,
              hsleep]
  · obtain ⟨hd, rfl⟩ := hrest.resolve_right (by rintro ⟨v, hv, -⟩; cases hv)
    rw [(exitAndSchedule_ready hready hsched).2.2.1]
    simp [Waits, hexit, trapState]

/-- A path through the locks of a call that returns, with as many waits as the
call made, is safe if and only if the call was not one of the two. -/
theorem syscall_irq_safe_iff {cfg : Config} {t : Trap} {k k' : Kernel} {r : Resumed}
    {tr : List (Action IrqLocks.Lock)} (hk : Reachable cfg k) (hrun : syscall cfg t k = .ok r k')
    (hpath : PathOf (IrqLocks.syscall (sysno (t.reg .rax))) tr)
    (hwaits : tr.count .sti + k'.waits.length = t.waits.length) :
    Safe IrqLocks.handlers ⟨[], false⟩ tr ↔ ¬ Waits t k := by
  rw [IrqLocks.syscall_safe_iff hpath, ← syscall_waits_iff (Reachable.ready hk) hrun,
    ← List.count_eq_zero]
  omega

end Rockos.IrqWaits
