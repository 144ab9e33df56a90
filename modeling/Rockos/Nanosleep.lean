import Mathlib.Data.Rat.Floor
import Rockos.SyscallEffects

/-!
# The deadline of a sleep (syscall.rs, scheduler.rs)

`sys_nanosleep` turns a `timespec` into ticks: the seconds with saturating
operations, the nanoseconds with a plain product and a division that rounds
down. The requested time is stated in rational numbers and compared with the
deadline up to which the call sleeps.
-/
namespace Rockos.Nanosleep
open FallibleState PhysMemory Paging ElfLoader KernelState AddressSpace SyscallEffects
open Syscall hiding Event step

/-- Seconds and nanoseconds at an address. -/
def timespecAt (m : Mem) (req : ℕ) : Option (ℤ × ℤ) :=
  (loadBytes m req 16).toOption.map fun bytes =>
    (toI64 (field bytes 0 8), toI64 (field bytes 8 8))

/-- The argument of `sleep_until_ticks`. -/
def deadline (now : ℕ) (sec nsec : ℤ) : Except Stop ℕ :=
  (sleepTicks sec nsec).map (saturatingAdd now)

/-- The least number of ticks that is no shorter than the requested time. -/
def requestedTicks (sec nsec : ℤ) : ℤ :=
  ⌈(((sec * 1000000000 + nsec) * timerHz : ℤ) : ℚ) / 1000000000⌉

/-- The requests for which the deadline must not come early. -/
structure ProperRequest (sec nsec : ℤ) : Prop where
  sec_nonneg : 0 ≤ sec
  nsec_nonneg : 0 ≤ nsec
  nsec_lt : nsec < 1000000000
  total : requestedTicks sec nsec ≤ 2 ^ 63 - 1

/-- The product of the nanoseconds and the timer frequency is an `i64`. -/
def ProductFits (nsec : ℤ) : Prop := -2 ^ 63 ≤ nsec * timerHz ∧ nsec * timerHz < 2 ^ 63

instance (nsec : ℤ) : Decidable (ProductFits nsec) := inferInstanceAs (Decidable (_ ∧ _))

/-- The nanoseconds are whole ticks, or the whole request is below one tick; and
the end is a tick count. -/
structure ExactDeadline (now : ℕ) (sec nsec : ℤ) : Prop where
  whole : nsec % 10000000 = 0 ∨ (sec = 0 ∧ nsec < 10000000)
  clock : now + requestedTicks sec nsec ≤ u64Max

/-! ## The arithmetic -/

theorem requestedTicks_eq (sec nsec : ℤ) :
    requestedTicks sec nsec = sec * 100 + (nsec * 100 + 999999999) / 1000000000 := by
  have hceil : ∀ n : ℤ, ⌈(n : ℚ) / 1000000000⌉ = (n + 999999999) / 1000000000 := by
    intro n
    rw [show (1000000000 : ℚ) = ((1000000000 : ℕ) : ℚ) by norm_num, Rat.ceil_intCast_div_natCast]
    omega
  rw [requestedTicks, hceil, timerHz]
  omega

theorem sleepTicks_returns_iff {sec nsec : ℤ} :
    (∃ ticks, sleepTicks sec nsec = .ok ticks) ↔ ProductFits nsec := by
  simp only [sleepTicks, ProductFits]
  split_ifs with hout
  · simp only [exists_false, false_iff]
    omega
  · simp only [Except.ok.injEq, exists_eq', true_iff]
    omega

/-- In range nothing saturates, and the nanoseconds are rounded down. -/
theorem sleepTicks_of_proper {sec nsec : ℤ} (h : ProperRequest sec nsec) :
    sleepTicks sec nsec = .ok (max (sec * 100 + nsec * 100 / 1000000000) 1).toNat := by
  obtain ⟨hsec, hnsec, hlt, htotal⟩ := h
  rw [requestedTicks_eq] at htotal
  have hfits : ¬ (nsec * timerHz < -2 ^ 63 ∨ nsec * timerHz ≥ 2 ^ 63) := by
    rw [timerHz]
    omega
  have hdiv : (nsec * timerHz).tdiv 1000000000 = nsec * 100 / 1000000000 :=
    Int.tdiv_eq_ediv_of_nonneg (by rw [timerHz]; omega)
  have hseconds : saturateI64 (sec * timerHz) = sec * 100 := by
    rw [saturateI64, timerHz]
    omega
  simp only [sleepTicks, if_neg hfits, hdiv, hseconds]
  congr 3
  rw [saturateI64]
  omega

theorem deadline_returns_iff {now : ℕ} {sec nsec : ℤ} :
    (∃ d, deadline now sec nsec = .ok d) ↔ ProductFits nsec := by
  rw [← sleepTicks_returns_iff, deadline]
  cases sleepTicks sec nsec with
  | error e => simp [Except.map]
  | ok ticks => simp [Except.map]

/-- The deadline is late enough exactly for whole ticks and for requests below
one tick, as long as the clock can count so far. -/
theorem deadline_late_iff {now : ℕ} {sec nsec : ℤ} (h : ProperRequest sec nsec)
    (hnow : now ≤ u64Max) :
    (∃ d, deadline now sec nsec = .ok d ∧ now + requestedTicks sec nsec ≤ d) ↔
      ExactDeadline now sec nsec := by
  have hvalue : deadline now sec nsec = .ok (saturatingAdd now
      (max (sec * 100 + nsec * 100 / 1000000000) 1).toNat) := by
    rw [deadline, sleepTicks_of_proper h]
    rfl
  obtain ⟨hsec, hnsec, hlt, htotal⟩ := h
  have hrequest := requestedTicks_eq sec nsec
  have hmax : u64Max = 18446744073709551615 := rfl
  simp only [hvalue, Except.ok.injEq, exists_eq_left', saturatingAdd]
  constructor
  · intro hle
    exact ⟨by omega, by omega⟩
  · intro hexact
    obtain ⟨hwhole, hclock⟩ := hexact
    omega

/-! ## The call -/

theorem sysNanosleep_eq {k : Kernel} {req : ℕ} {sec nsec : ℤ} (hreq : req ≠ 0)
    (hread : userRegionIsReadableRange k req 16 = true)
    (hspec : timespecAt k.mem req = some (sec, nsec)) :
    sysNanosleep req k = (do
      let d ← inspect fun k => deadline k.ticks sec nsec
      sleepUntilTicks d
      pure 0 : KernelM UInt64) k := by
  obtain ⟨bytes, hbytes, hvalues⟩ := Option.map_eq_some_iff.mp hspec
  have hload : inspect (fun k : Kernel => loadBytes k.mem req 16) k = .ok bytes k :=
    inspect_of_toOption hbytes
  simp only [Prod.mk.injEq] at hvalues
  rw [sysNanosleep, if_neg hreq, bind_run, get_run]
  simp only [hread, Bool.not_true, Bool.false_eq_true, if_false]
  rw [bind_of_ok hload, hvalues.1, hvalues.2]
  cases hticks : sleepTicks sec nsec with
  | error e => simp [bind_run, inspect, deadline, hticks, Except.map]
  | ok ticks => simp [bind_run, inspect, deadline, hticks, Except.map]

/-- A sleep that ends has reached its deadline. -/
theorem sleepUntilTicks_reached {d : ℕ} {k k' : Kernel} {u : Unit}
    (h : sleepUntilTicks d k = .ok u k') : d ≤ k'.ticks := by
  obtain ⟨k₁, hpoll⟩ := waitTurns_ok h
  rw [bind_run, get_run] at hpoll
  simp only at hpoll
  split_ifs at hpoll with hlt
  · cases hpoll
  · cases hpoll
    exact Nat.not_lt.mp hlt

/-- A readable request sleeps up to a deadline, and the call that returns has
reached it. The deadline is computed without overflow, and is not early for a
proper request, exactly when the product of the nanoseconds fits and a proper
request is exact. -/
theorem nanosleep_deadline_iff (k : Kernel) (req : ℕ) (sec nsec : ℤ) (hreq : req ≠ 0)
    (hread : userRegionIsReadableRange k req 16 = true)
    (hspec : timespecAt k.mem req = some (sec, nsec)) (hclock : k.ticks ≤ u64Max) :
    sysNanosleep req k = (do
      let d ← inspect fun k => deadline k.ticks sec nsec
      sleepUntilTicks d
      pure 0 : KernelM UInt64) k ∧
    (∀ v k', sysNanosleep req k = .ok v k' →
      ∃ d, deadline k.ticks sec nsec = .ok d ∧ d ≤ k'.ticks) ∧
    ((∃ d, deadline k.ticks sec nsec = .ok d ∧
        (ProperRequest sec nsec → k.ticks + requestedTicks sec nsec ≤ d)) ↔
      ProductFits nsec ∧ (ProperRequest sec nsec → ExactDeadline k.ticks sec nsec)) := by
  have heq := sysNanosleep_eq hreq hread hspec
  refine ⟨heq, ?_, ?_⟩
  · intro v k' hcall
    rw [heq] at hcall
    obtain ⟨d, hd, hcall⟩ := inspect_bind_ok hcall
    obtain ⟨_, k₁, hsleep, hcall⟩ := bind_ok hcall
    cases hcall
    exact ⟨d, hd, sleepUntilTicks_reached hsleep⟩
  · constructor
    · intro h
      obtain ⟨d, hd, hlate⟩ := h
      refine ⟨deadline_returns_iff.mp ⟨d, hd⟩, ?_⟩
      intro hproper
      exact (deadline_late_iff hproper hclock).mp ⟨d, hd, hlate hproper⟩
    · intro h
      obtain ⟨hfits, hexact⟩ := h
      obtain ⟨d, hd⟩ := (@deadline_returns_iff k.ticks sec nsec).mpr hfits
      refine ⟨d, hd, ?_⟩
      intro hproper
      obtain ⟨d', hd', hlate⟩ := (deadline_late_iff hproper hclock).mpr (hexact hproper)
      rw [hd] at hd'
      cases hd'
      exact hlate

/-- The first process, with a `timespec` of zero seconds on its stack. -/
def withNanoseconds (nsec : ℕ) : Kernel :=
  let stores := (leBytes 8 nsec).zipIdx.map fun b => (0x401F08 + b.2, b.1)
  { started with mem := stores.foldl userStore started.mem }

theorem proper_below_second {nsec : ℤ} (h : 0 ≤ nsec) (hlt : nsec < 1000000000) :
    ProperRequest 0 nsec := by
  refine ⟨le_rfl, h, hlt, ?_⟩
  rw [requestedTicks_eq]
  omega

/-- Ten milliseconds are one tick, and the deadline is one tick ahead. -/
theorem nanosleep_deadline_iff_tick : ∃ d,
    deadline (withNanoseconds 10000000).ticks 0 10000000 = .ok d ∧
      (withNanoseconds 10000000).ticks + requestedTicks 0 10000000 ≤ d := by
  have hfacts : userRegionIsReadableRange (withNanoseconds 10000000) 0x401F00 16 = true ∧
      timespecAt (withNanoseconds 10000000).mem 0x401F00 = some (0, 10000000) ∧
      (withNanoseconds 10000000).ticks = 0 := by decide +kernel
  obtain ⟨hread, hspec, hticks⟩ := hfacts
  have hproper : ProperRequest 0 10000000 := proper_below_second (by decide) (by decide)
  have hexact : ExactDeadline (withNanoseconds 10000000).ticks 0 10000000 := by
    refine ⟨by decide, ?_⟩
    rw [hticks, requestedTicks_eq]
    decide
  obtain ⟨d, hd, hlate⟩ := (nanosleep_deadline_iff _ _ _ _ (by decide) hread hspec
    (by rw [hticks]; decide)).2.2.mpr ⟨by decide, fun _ => hexact⟩
  exact ⟨d, hd, hlate hproper⟩

/-- One nanosecond more takes two ticks, but the deadline is still one tick
ahead; and the product of `2^62` nanoseconds overflows. -/
theorem nanosleep_early_and_overflow :
    timespecAt (withNanoseconds 10000001).mem 0x401F00 = some (0, 10000001) ∧
    ProperRequest 0 10000001 ∧ requestedTicks 0 10000001 = 2 ∧
    deadline (withNanoseconds 10000001).ticks 0 10000001 = .ok 1 ∧
    timespecAt (withNanoseconds (2 ^ 62)).mem 0x401F00 = some (0, 2 ^ 62) ∧
    deadline (withNanoseconds (2 ^ 62)).ticks 0 (2 ^ 62) = .error .panic := by
  have hfacts : timespecAt (withNanoseconds 10000001).mem 0x401F00 = some (0, 10000001) ∧
      (withNanoseconds 10000001).ticks = 0 ∧
      timespecAt (withNanoseconds (2 ^ 62)).mem 0x401F00 = some (0, 2 ^ 62) := by decide +kernel
  obtain ⟨hspec, hticks, hlarge⟩ := hfacts
  refine ⟨hspec, proper_below_second (by decide) (by decide), ?_, ?_, hlarge, ?_⟩
  · rw [requestedTicks_eq]
    rfl
  · rw [hticks]
    decide
  · rw [deadline, sleepTicks, if_pos (by decide)]
    rfl

end Rockos.Nanosleep
