import Rockos.CallFootprints

/-!
# Where mmap places areas (process.rs)

A request without an address is placed at `NEXT_MMAP`, which is shared by all
processes and only ever moves up: past the area if there is room for it, and
past the area as well if there is not. So no address is handed out twice in the
life of the system, whoever unmaps what, and once the window is too full for a
request it stays so. The counter would wrap around after 2^45 requests; the
results are about runs that are shorter.
-/
namespace Rockos.MmapWindow
open FallibleState PhysMemory Paging KernelState AddressSpace Syscall SyscallEffects RunQueue Turns
open CallFootprints Runs

/-- `mmap` without an address. -/
def Floating (t : Trap) : Prop := sysno (t.reg .rax) = some .mmap ∧ t.reg .rdi = 0

/-- The length of the area, in whole pages. -/
def asked (t : Trap) : ℕ := pageCount (t.reg .rsi).toNat * pageSize

/-- The length is one that `mmap` accepts. -/
def Sized (t : Trap) : Prop :=
  ¬((t.reg .rsi).toNat = 0 ∨ (t.reg .rsi).toNat > userMmapLimit - userMmapBase)

def windowSize : ℕ := userMmapLimit - userMmapBase

section
variable {cfg : Config} {t : Trap} {k k₁ k' : Kernel} {r : Resumed} {v : UInt64}

theorem asked_le (h : Sized t) : asked t ≤ windowSize := by
  unfold Sized at h
  unfold asked windowSize pageCount
  have hbase : userMmapBase = 0x410000 := rfl
  have hlimit : userMmapLimit = 0x480000 := rfl
  have hsize : pageSize = 4096 := rfl
  rw [hsize]
  omega

/-! ## One call -/

def SameNext (k k' : Kernel) : Prop := k'.nextMmap = k.nextMmap

instance : IsPreorder Kernel SameNext where
  refl _ := rfl
  trans _ _ _ h h' := h'.trans h

theorem sameNext_permits (e : Edit) (he : e ≠ .placement) : Permits SameNext e := by
  cases e with
  | placement => exact absurd rfl he
  | irqs =>
      intro k irqs rest
      obtain ⟨_, _, _, hsame⟩ := takeIrqs_eq irqs { k with waits := rest }
      rw [SameNext, hsame]
  | bytes => exact fun _ _ _ => rfl
  | memory => exact fun _ _ => rfl
  | own => exact fun _ _ _ => rfl
  | heap => exact fun _ _ _ _ => rfl
  | files => exact fun _ _ _ => rfl
  | descriptor => exact fun _ _ => rfl
  | terminal => exact fun _ _ => rfl
  | resched => exact fun _ => rfl
  | table => exact fun _ _ => rfl
  | queue => exact fun _ _ => rfl

theorem mmapAt_next {w : Walker} {addr nPages prot : ℕ}
    (h : mmapAt w addr nPages prot k = .ok v k') :
    k'.nextMmap = k.nextMmap ∧ (v = UInt64.ofNat addr ∨ v = errno 12) := by
  rw [mmapAt] at h
  rcases editThen_cases h with ⟨m, -, hv, rfl⟩ | ⟨reason, m, -, hv, rfl⟩
  · exact ⟨rfl, .inl hv⟩
  · exact ⟨rfl, .inr hv⟩

/-- A request without an address moves the counter, and its answer is the old
value of the counter if there is room up to the end of the window. -/
theorem floating_call (hcall : dispatch cfg t k = .ok (.returned v) k₁) (hf : Floating t)
    (hsized : Sized t) : k₁.nextMmap = (k.nextMmap + asked t) % 2 ^ 64 ∧
      (v = errno 12 ∨ v = UInt64.ofNat k.nextMmap ∧ k.nextMmap + asked t ≤ userMmapLimit) := by
  have hmax : userMmapLimit < u64Max := by decide
  rw [dispatch_eq, syscallDispatch, hf.1] at hcall
  obtain ⟨v', hd, hrun⟩ := returning_ok hcall
  cases hd
  have hzero : (t.reg .rdi).toNat = 0 := by rw [hf.2]; rfl
  cases sysMmap_returns hrun with
  | refused hv hk h => exact absurd h (not_or.mpr ⟨hsized, fun hne => hne hzero⟩)
  | full hv hk hlen haddr =>
      rw [hk]
      exact ⟨rfl, .inl hv⟩
  | bumped hlen haddr hroom h =>
      obtain ⟨hnext, hv⟩ := mmapAt_next h
      refine ⟨hnext, hv.symm.imp_right fun hv => ⟨hv, ?_⟩⟩
      have hroom' : saturatingAdd k.nextMmap (asked t) ≤ userMmapLimit := hroom
      unfold saturatingAdd at hroom'
      omega
  | fixed hlen haddr _ _ _ h => exact absurd hzero haddr

/-- No other call moves the counter. -/
theorem other_call (hcall : dispatch cfg t k = .ok (.returned v) k₁)
    (hother : ¬(Floating t ∧ Sized t)) : k₁.nextMmap = k.nextMmap := by
  by_cases hmmap : sysno (t.reg .rax) = some .mmap
  · rw [dispatch_eq, syscallDispatch, hmmap] at hcall
    obtain ⟨v', hd, hrun⟩ := returning_ok hcall
    have hzero : (t.reg .rdi).toNat = 0 → ¬ Sized t := fun heq hsized =>
      hother ⟨⟨hmmap, UInt64.toNat_inj.mp heq⟩, hsized⟩
    cases sysMmap_returns hrun with
    | refused hv hk h =>
        rw [hk]
        rfl
    | full hv hk hlen haddr => exact absurd hlen (hzero haddr)
    | bumped hlen haddr hroom h => exact absurd hlen (hzero haddr)
    | fixed hlen haddr _ _ _ h => exact (mmapAt_next h).1
  · have hsame : SameNext (trapState t k) k₁ := by
      refine dispatch_footprint hcall fun c hc e he => sameNext_permits e ?_
      rintro rfl
      cases c <;> simp_all [footprint]
    exact hsame

theorem tailState_next (slot : ℕ) (t : Trap) (k : Kernel) (v : UInt64) (k₁ : Kernel) :
    (tailState slot t k v k₁).nextMmap = k₁.nextMmap := by
  obtain ⟨_, _, _, htail⟩ := tailState_eq slot t k v k₁
  rw [htail]
  rfl

/-- The counter after a step: moved by the area that was asked for, if one was. -/
theorem step_next {e : Event} {o : Option Resumed} (h : Ready k)
    (hstep : step cfg e k = some (o, k')) :
    k'.nextMmap = k.nextMmap ∨
      ∃ t, e = .syscall t ∧ Sized t ∧ k'.nextMmap = (k.nextMmap + asked t) % 2 ^ 64 := by
  cases e with
  | irq i =>
      obtain ⟨-, rfl⟩ := step_irq_ok hstep
      exact .inl (sameNext_permits .irqs (by decide) k [i] k.waits)
  | syscall t =>
      obtain ⟨r, -, hrun⟩ := step_syscall_ok hstep
      cases syscall_after h hrun with
      | exited call final =>
          rw [final]
          exact .inl rfl
      | returned v k₁ call final =>
          rw [final, tailState_next]
          by_cases hf : Floating t ∧ Sized t
          · exact .inr ⟨t, rfl, hf.2, (floating_call call hf.1 hf.2).1⟩
          · exact .inl (other_call call hf)

/-! ## Runs -/

/-- A counter that does not wrap only moves up, by at most one window a step. -/
theorem run_next {tr : List (Event × Option Resumed)} (hrun : Run (step cfg) k tr k')
    (h : Ready k) (hroom : k.nextMmap + tr.length * windowSize < 2 ^ 64) :
    k.nextMmap ≤ k'.nextMmap ∧ k'.nextMmap ≤ k.nextMmap + tr.length * windowSize := by
  induction hrun with
  | done k => simp
  | @step k k₁ _ e o tr hstep _ ih =>
      rw [List.length_cons, Nat.add_mul, Nat.one_mul] at hroom ⊢
      have hone : k.nextMmap ≤ k₁.nextMmap ∧ k₁.nextMmap ≤ k.nextMmap + windowSize := by
        rcases step_next h hstep with hsame | ⟨t, -, hsized, hmoved⟩
        · omega
        · have hle := asked_le hsized
          rw [hmoved, Nat.mod_eq_of_lt (by omega)]
          omega
      have hrest := ih (step_ready _ _ _ _ hstep h) (by omega)
      omega

end

/-- The state in which user code first runs, with the counter as the kernel image holds it. -/
def FreshWindow (k : Kernel) : Prop :=
  ∃ staleTop boxedTop k₀, k₀.nextMmap = userMmapBase ∧ k = boot staleTop boxedTop k₀

theorem FreshWindow.ready {k : Kernel} (h : FreshWindow k) : Ready k := by
  obtain ⟨staleTop, boxedTop, k₀, -, rfl⟩ := h
  exact boot_ready staleTop boxedTop k₀

theorem FreshWindow.next {k : Kernel} (h : FreshWindow k) : k.nextMmap = userMmapBase := by
  obtain ⟨staleTop, boxedTop, k₀, hnext, rfl⟩ := h
  exact hnext

/-- The requests up to here do not make the counter wrap. -/
theorem room {k₀ : Kernel} (h : FreshWindow k₀) {n : ℕ} (hn : n < 2 ^ 40) :
    k₀.nextMmap + n * windowSize < 2 ^ 64 := by
  have hwindow : windowSize = 0x70000 := rfl
  have hbase : userMmapBase = 0x410000 := rfl
  rw [h.next, hwindow, hbase]
  omega

/-- Of two requests without an address that are granted, by whichever processes,
the later one lies behind the earlier one, and both are in the window. -/
theorem placed_areas_never_overlap (cfg : Config) (k₀ k k₁ x y z : Kernel) (t t' : Trap)
    (o : Option Resumed) (v v' : UInt64) (tr tr' : List (Event × Option Resumed))
    (hfresh : FreshWindow k₀) (hrun : Run (step cfg) k₀ tr k)
    (hstep : step cfg (.syscall t) k = some (o, k₁)) (hrun' : Run (step cfg) k₁ tr' x)
    (hlen : tr.length + tr'.length + 1 < 2 ^ 40)
    (ht : Floating t ∧ Sized t) (ht' : Floating t' ∧ Sized t')
    (hv : dispatch cfg t k = .ok (.returned v) y) (hv' : dispatch cfg t' x = .ok (.returned v') z)
    (hok : v ≠ errno 12) (hok' : v' ≠ errno 12) :
    userMmapBase ≤ v.toNat ∧ v.toNat + asked t ≤ v'.toNat ∧
      v'.toNat + asked t' ≤ userMmapLimit := by
  have hlimit : userMmapLimit < 2 ^ 64 := by decide
  have hready : Ready k := hrun.invariant step_ready hfresh.ready
  obtain ⟨hmoved, hanswer⟩ := floating_call hv ht.1 ht.2
  obtain ⟨-, hanswer'⟩ := floating_call hv' ht'.1 ht'.2
  obtain ⟨hval, hend⟩ := hanswer.resolve_left hok
  obtain ⟨hval', hend'⟩ := hanswer'.resolve_left hok'
  have hlow := run_next hrun hfresh.ready (room hfresh (by omega))
  rw [hfresh.next] at hlow
  -- the step itself moves the counter past the area
  have hpast : k₁.nextMmap = k.nextMmap + asked t := by
    obtain ⟨r, -, hsys⟩ := step_syscall_ok hstep
    cases syscall_after hready hsys with
    | exited call final =>
        rw [ht.1.1] at call
        cases call
    | returned v₁ k₂ call final =>
        rw [final, tailState_next, (floating_call call ht.1 ht.2).1, Nat.mod_eq_of_lt (by omega)]
  have hhigh := run_next hrun' (step_ready _ _ _ _ hstep hready) (by
    have hwindow : windowSize = 0x70000 := rfl
    have hlimit' : userMmapLimit = 0x480000 := rfl
    rw [hpast, hwindow]
    omega)
  rw [hval, hval', UInt64.toNat_ofNat', UInt64.toNat_ofNat', Nat.mod_eq_of_lt (by omega),
    Nat.mod_eq_of_lt (by omega)]
  omega

/-- `mmap(NULL, len, PROT_READ | PROT_WRITE)`. -/
def mmapTrap (len : UInt64) : Trap := trapWith
  (fun | .rax => 9 | .rsi => len | .rdx => 3 | .rsp => 0x401FF8 | .rcx => 0x400078 | .r11 => 0x202
       | _ => 0) []

/-- The value a call returns to its caller. -/
def valueOf : Dispatched → Option UInt64
  | .returned v => some v
  | .switched _ => none

theorem dispatch_of_answer {cfg : Config} {t : Trap} {k : Kernel} {v : UInt64}
    (h : (returned (dispatch cfg t k)).map (fun x => valueOf x.1) = some (some v)) :
    ∃ k₁, dispatch cfg t k = .ok (.returned v) k₁ := by
  obtain ⟨d, k₁, hrun, hd⟩ := ok_of_returned h
  cases d with
  | switched r => cases hd
  | returned v' =>
      cases hd
      exact ⟨k₁, hrun⟩

theorem started_fresh : FreshWindow started := ⟨_, _, _, rfl, rfl⟩

theorem placed_areas_never_overlap_two : ∃ k v v' y z,
    dispatch machine (mmapTrap 5000) started = .ok (.returned v) y ∧
    (∃ o, step machine (.syscall (mmapTrap 5000)) started = some (o, k)) ∧
    dispatch machine (mmapTrap 1) k = .ok (.returned v') z ∧
    userMmapBase ≤ v.toNat ∧ v.toNat + 8192 ≤ v'.toNat ∧ v'.toNat + 4096 ≤ userMmapLimit := by
  have hfirst : (returned (dispatch machine (mmapTrap 5000) started)).map (fun x => valueOf x.1) =
      some (some 0x410000) := by decide +kernel
  have hsecond : (step machine (.syscall (mmapTrap 5000)) started).map (fun x =>
      (returned (dispatch machine (mmapTrap 1) x.2)).map (fun y => valueOf y.1)) =
        some (some (some 0x412000)) := by decide +kernel
  obtain ⟨y, hv⟩ := dispatch_of_answer hfirst
  obtain ⟨⟨o, k⟩, hstep, hanswer⟩ := Option.map_eq_some_iff.mp hsecond
  obtain ⟨z, hv'⟩ := dispatch_of_answer hanswer
  have hcalls : ∀ len, sysno ((mmapTrap len).reg .rax) = some .mmap := fun _ => rfl
  have hplaced := placed_areas_never_overlap machine started started k k y z (mmapTrap 5000)
    (mmapTrap 1) o _ _ [] [] started_fresh (.done _) hstep (.done _) (by simp)
    ⟨⟨hcalls 5000, rfl⟩, by unfold Sized; decide⟩ ⟨⟨hcalls 1, rfl⟩, by unfold Sized; decide⟩ hv hv'
    (by decide) (by decide)
  exact ⟨k, _, _, y, z, hv, ⟨o, hstep⟩, hv', hplaced⟩

end Rockos.MmapWindow
