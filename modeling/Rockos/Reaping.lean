import Rockos.ProcessCalls

/-!
# Which child wait_reap finds (process.rs)

`wait_reap` looks for a child that has exited and that the caller asked for. It
reads the exit code of every child it passes with `?`, inside the closure that
holds the loop, so a child that is still alive ends the search and not only the
turn. The scan is described by the first entry at which it halts; the result is
what the entry there is.
-/
namespace Rockos.Reaping
open FallibleState Paging SyscallFrame KernelState AddressSpace ProcessCalls

/-- A child of `me` that has not exited. -/
def LiveChild (me : ℕ) (p : Process) : Prop := p.parent = some me ∧ p.exitCode = none

instance (me : ℕ) (p : Process) : Decidable (LiveChild me p) := by
  unfold LiveChild; infer_instance

/-- A child of `me` that has exited with `code` and that `target` asks for. -/
def Awaited (me : ℕ) (target : ℤ) (p : Process) (code : Int32) : Prop :=
  p.parent = some me ∧ p.exitCode = some code ∧ (target < 0 ∨ (p.pid : ℤ) = target)

instance (me : ℕ) (target : ℤ) (p : Process) (code : Int32) :
    Decidable (Awaited me target p code) := by
  unfold Awaited; infer_instance

/-! ## The scan -/

variable {me : ℕ} {target : ℤ}

theorem reapScan_live {p : Process} (h : LiveChild me p) (slot : ℕ) (ps : List (Option Process)) :
    reapScan me target slot (some p :: ps) = none := by
  rw [reapScan, if_neg (not_not_intro h.1), h.2]

theorem reapScan_awaited {p : Process} {code : Int32} (h : Awaited me target p code) (slot : ℕ)
    (ps : List (Option Process)) :
    reapScan me target slot (some p :: ps) = some (slot, p.pid, code) := by
  have hasked : ¬(target ≥ 0 ∧ (p.pid : ℤ) ≠ target) := by
    rintro ⟨hnonneg, hother⟩
    cases h.2.2 with
    | inl hany => omega
    | inr hpid => exact hother hpid
  rw [reapScan, if_neg (not_not_intro h.1), h.2.1]
  simp only [if_neg hasked]

/-- Every other entry is passed over. -/
theorem reapScan_pass {p : Process} (hlive : ¬LiveChild me p)
    (hawaited : ∀ code, ¬Awaited me target p code) (slot : ℕ) (ps : List (Option Process)) :
    reapScan me target slot (some p :: ps) = reapScan me target (slot + 1) ps := by
  rw [reapScan]
  by_cases hparent : p.parent = some me
  · rw [if_neg (not_not_intro hparent)]
    cases hcode : p.exitCode with
    | none => exact absurd ⟨hparent, hcode⟩ hlive
    | some code =>
        have hother : target ≥ 0 ∧ (p.pid : ℤ) ≠ target := by
          by_contra hno
          apply hawaited code
          refine ⟨hparent, hcode, ?_⟩
          by_cases hany : target < 0
          · exact .inl hany
          · exact .inr (by_contra fun hpid => hno ⟨by omega, hpid⟩)
        simp only [if_pos hother]
  · rw [if_pos hparent]

theorem reapScan_found {ps : List (Option Process)} {i : ℕ} {p : Process} {code : Int32}
    (hp : ps[i]? = some (some p)) (hcode : Awaited me target p code)
    (hlive : ∀ j < i, ∀ q, ps[j]? = some (some q) → ¬LiveChild me q)
    (hfirst : ∀ j < i, ∀ q, ps[j]? = some (some q) → ∀ c, ¬Awaited me target q c) (slot : ℕ) :
    reapScan me target slot ps = some (slot + i, p.pid, code) := by
  induction ps generalizing i slot with
  | nil => simp at hp
  | cons x ps ih =>
      cases i with
      | zero =>
          simp only [List.getElem?_cons_zero, Option.some.injEq] at hp
          rw [hp]
          exact reapScan_awaited hcode slot ps
      | succ i =>
          have hrest : reapScan me target (slot + 1) ps = some (slot + 1 + i, p.pid, code) := by
            apply ih hp
            · intro j hj q hq
              exact hlive (j + 1) (by omega) q hq
            · intro j hj q hq
              exact hfirst (j + 1) (by omega) q hq
          rw [show slot + (i + 1) = slot + 1 + i by omega, ← hrest]
          cases x with
          | none => rfl
          | some q => exact reapScan_pass (hlive 0 (by omega) q rfl) (hfirst 0 (by omega) q rfl) _ _

/-- What the scan returns stands at an entry that was asked for, and no child
before it is alive. -/
theorem reapScan_some {ps : List (Option Process)} {slot s pid : ℕ} {code : Int32}
    (h : reapScan me target slot ps = some (s, pid, code)) :
    ∃ i p, s = slot + i ∧ ps[i]? = some (some p) ∧ Awaited me target p code ∧ p.pid = pid ∧
      ∀ j < i, ∀ q, ps[j]? = some (some q) → ¬LiveChild me q := by
  induction ps generalizing slot with
  | nil => simp [reapScan] at h
  | cons x ps ih =>
      have hnext : reapScan me target (slot + 1) ps = some (s, pid, code) →
          (∀ q, x = some q → ¬LiveChild me q) →
          ∃ i p, s = slot + i ∧ (x :: ps)[i]? = some (some p) ∧ Awaited me target p code ∧
            p.pid = pid ∧ ∀ j < i, ∀ q, (x :: ps)[j]? = some (some q) → ¬LiveChild me q := by
        intro hrest hx
        obtain ⟨i, p, hs, hp, hcode, hpid, hbefore⟩ := ih hrest
        refine ⟨i + 1, p, by omega, hp, hcode, hpid, ?_⟩
        intro j hj q hq
        cases j with
        | zero => exact hx q (by simpa using hq)
        | succ j => exact hbefore j (by omega) q hq
      cases x with
      | none => exact hnext h (by simp)
      | some q =>
          by_cases hlive : LiveChild me q
          · rw [reapScan_live hlive] at h
            simp at h
          · by_cases hfound : ∃ c, Awaited me target q c
            · obtain ⟨c, hc⟩ := hfound
              rw [reapScan_awaited hc] at h
              simp only [Option.some.injEq, Prod.mk.injEq] at h
              obtain ⟨rfl, rfl, rfl⟩ := h
              exact ⟨0, q, rfl, rfl, hc, rfl, by simp⟩
            · rw [reapScan_pass hlive (not_exists.mp hfound)] at h
              apply hnext h
              simpa using hlive

/-! ## The call -/

theorem waitReap_run (target : ℤ) (k : Kernel) :
    waitReap target k = match reapScan (currentPid k) target 0 k.procs with
      | none => .ok none k
      | some (slot, pid, code) => .ok (some (pid, code)) { k with procs := k.procs.set slot none }
    := by
  unfold waitReap
  rw [bind_run, get_run]
  simp only
  cases reapScan (currentPid k) target 0 k.procs with
  | none => rfl
  | some x => rfl

/-- The slot holds a child that the current process is asking for. -/
def AwaitedAt (k : Kernel) (target : ℤ) (slot : ℕ) (p : Process) (code : Int32) : Prop :=
  k.proc slot = some p ∧ Awaited (currentPid k) target p code

/-- The call hands out that child and frees its slot. -/
def Reaps (k : Kernel) (target : ℤ) (slot : ℕ) (p : Process) (code : Int32) : Prop :=
  waitReap target k = .ok (some (p.pid, code)) { k with procs := k.procs.set slot none }

/-- A child is handed out exactly if there is one to be had, and otherwise the
call changes nothing. -/
structure Complete (k : Kernel) (target : ℤ) : Prop where
  found : (∃ slot p code, AwaitedAt k target slot p code ∧ Reaps k target slot p code) ↔
    ∃ slot p code, AwaitedAt k target slot p code
  absent : (¬∃ slot p code, AwaitedAt k target slot p code) → waitReap target k = .ok none k

/-- Some child that is asked for has no living sibling in an earlier slot. -/
def ExposedChild (k : Kernel) (target : ℤ) : Prop :=
  ∃ slot p code, AwaitedAt k target slot p code ∧
    ∀ j < slot, ∀ q, k.proc j = some q → ¬LiveChild (currentPid k) q

theorem proc_eq_some {k : Kernel} {slot : ℕ} {p : Process} :
    k.proc slot = some p ↔ k.procs[slot]? = some (some p) := by
  unfold Kernel.proc
  cases k.procs[slot]? with
  | none => simp
  | some x => simp

/-- The scan halts only at a child that is exposed. -/
theorem waitReap_of_not_exposed {k : Kernel} (h : ¬ExposedChild k target) :
    waitReap target k = .ok none k := by
  rw [waitReap_run]
  cases hscan : reapScan (currentPid k) target 0 k.procs with
  | none => rfl
  | some x =>
      obtain ⟨i, q, -, hq, hcode, -, hbefore⟩ := reapScan_some hscan
      apply absurd _ h
      refine ⟨i, q, x.2.2, ⟨proc_eq_some.mpr hq, hcode⟩, ?_⟩
      intro j hj r hr
      exact hbefore j hj r (proc_eq_some.mp hr)

theorem waitReap_of_absent {k : Kernel} (h : ¬∃ slot p code, AwaitedAt k target slot p code) :
    waitReap target k = .ok none k := by
  apply waitReap_of_not_exposed
  rintro ⟨slot, p, code, hawaited, -⟩
  exact h ⟨slot, p, code, hawaited⟩

theorem exposed_of_reaps {k : Kernel} {slot : ℕ} {p : Process} {code : Int32}
    (h : Reaps k target slot p code) : ExposedChild k target := by
  by_contra hnot
  rw [Reaps, waitReap_of_not_exposed hnot] at h
  cases h

/-- The least exposed slot is where the scan halts. -/
theorem reaps_of_exposed {k : Kernel} (h : ExposedChild k target) :
    ∃ slot p code, AwaitedAt k target slot p code ∧ Reaps k target slot p code := by
  classical
  have hslot : ∃ slot, ∃ p code, AwaitedAt k target slot p code ∧
      ∀ j < slot, ∀ q, k.proc j = some q → ¬LiveChild (currentPid k) q := h
  obtain ⟨p, code, hawaited, hlive⟩ := Nat.find_spec hslot
  refine ⟨Nat.find hslot, p, code, hawaited, ?_⟩
  have hfirst : ∀ j < Nat.find hslot, ∀ q, k.procs[j]? = some (some q) →
      ∀ c, ¬Awaited (currentPid k) target q c := by
    intro j hj q hq c hc
    apply Nat.find_min hslot hj
    refine ⟨q, c, ⟨proc_eq_some.mpr hq, hc⟩, ?_⟩
    intro i hi
    exact hlive i (by omega)
  have hscan := reapScan_found (proc_eq_some.mp hawaited.1) hawaited.2
    (fun j hj q hq => hlive j hj q (proc_eq_some.mpr hq)) hfirst 0
  unfold Reaps
  rw [waitReap_run, hscan, Nat.zero_add]

theorem waitReap_complete_iff (k : Kernel) (target : ℤ) :
    Complete k target ↔
      ((∃ slot p code, AwaitedAt k target slot p code) → ExposedChild k target) := by
  constructor
  · intro hcomplete hexists
    obtain ⟨slot, p, code, -, hreaps⟩ := hcomplete.found.mpr hexists
    exact exposed_of_reaps hreaps
  · intro hexposed
    constructor
    · constructor
      · rintro ⟨slot, p, code, hawaited, -⟩
        exact ⟨slot, p, code, hawaited⟩
      · intro hexists
        exact reaps_of_exposed (hexposed hexists)
    · exact waitReap_of_absent

/-- A parent with a living child and, in the slot behind it, one that has exited. -/
def siblings : Kernel :=
  let child (pid : ℕ) (exitCode : Option Int32) : Process :=
    { Process.new pid (some 1) 0 (bootstrapUser 0 0 0x202) with exitCode := exitCode }
  { statics (memInit []) with
    procs := [some (Process.new 1 none 0 (bootstrapUser 0 0 0x202)), some (child 2 none),
      some (child 3 (some 7))] }

/-- The exited child is asked for and not found. -/
theorem waitReap_misses_sibling : (∃ p, AwaitedAt siblings (-1) 2 p 7) ∧
    waitReap (-1) siblings = .ok none siblings ∧ ¬Complete siblings (-1) := by
  have hawaited : ∃ p, AwaitedAt siblings (-1) 2 p 7 := ⟨_, rfl, rfl, rfl, by decide⟩
  have hnone : waitReap (-1) siblings = .ok none siblings := by
    rw [waitReap_run, show reapScan (currentPid siblings) (-1) 0 siblings.procs = none by rfl]
  refine ⟨hawaited, hnone, ?_⟩
  intro hcomplete
  obtain ⟨p, hp⟩ := hawaited
  obtain ⟨slot, q, code, -, hreaps⟩ := hcomplete.found.mpr ⟨2, p, 7, hp⟩
  unfold Reaps at hreaps
  rw [hnone] at hreaps
  simp at hreaps

/-! ## The status pointer

`sys_wait4` takes the child out of the table before it looks at the pointer. -/

/-- The checks read the entry of the caller and the image, and nothing else. -/
theorem userRegionIsWritableRange_congr {k k' : Kernel} (hcurrent : k'.current = k.current)
    (himage : k'.mem.image = k.mem.image) (addr len : ℕ) :
    userRegionIsWritableRange k' addr len = userRegionIsWritableRange k addr len := by
  simp only [userRegionIsWritableRange, coversBrkHeap, coversMmapWrite, coversMmap, hcurrent,
    himage]

/-- A caller that has not exited is not the child that is taken out. -/
theorem current_of_reaped {k : Kernel} {slot : ℕ} {p : Process} {code : Int32}
    (hcaller : ∀ q, k.current = some q → q.exitCode = none) (h : AwaitedAt k target slot p code) :
    ({ k with procs := k.procs.set slot none } : Kernel).current = k.current := by
  have hne : slot ≠ k.currentSlot := by
    intro heq
    have hcode := h.2.2.1
    rw [hcaller p (by rw [Kernel.current, ← heq, h.1])] at hcode
    cases hcode
  simp only [Kernel.current, Kernel.proc, List.getElem?_set_ne hne]

/-- An error from `sys_wait4` leaves the table as it was. -/
def WaitErrorsKeepTable (k : Kernel) (target : ℤ) (wstatus : ℕ) : Prop :=
  ∀ v k', sysWait4 target wstatus k = .ok v k' → v = errno 11 ∨ v = errno 14 →
    k'.procs = k.procs

theorem pid_ne_error {pid : ℕ} (h : pid < 1024) :
    ¬(UInt64.ofNat pid = errno 11 ∨ UInt64.ofNat pid = errno 14) := by
  have hpid : (UInt64.ofNat pid).toNat = pid := by
    rw [UInt64.toNat_ofNat', Nat.mod_eq_of_lt (by omega)]
  intro herr
  have hsmall : (UInt64.ofNat pid).toNat < 1024 := by omega
  cases herr with
  | inl heq =>
      rw [heq] at hsmall
      exact absurd hsmall (by decide)
  | inr heq =>
      rw [heq] at hsmall
      exact absurd hsmall (by decide)

/-- A child that has been taken out is either handed to the caller or lost. -/
theorem deliverStatus_value {child : ℕ} {status : Int32} {wstatus : ℕ} {k k' : Kernel} {v : UInt64}
    (hok : wstatus = 0 ∨ userRegionIsWritableRange k wstatus 4 = true)
    (h : deliverStatus child status wstatus k = .ok v k') : v = UInt64.ofNat child := by
  unfold deliverStatus at h
  by_cases hzero : wstatus = 0
  · rw [if_pos hzero] at h
    exact (EStateM.Result.ok.inj h).1.symm
  rw [if_neg hzero, bind_run, get_run] at h
  simp only [hok.resolve_left hzero, Bool.not_true, Bool.false_eq_true, if_false] at h
  by_cases haligned : wstatus % 4 ≠ 0
  · rw [if_pos haligned] at h
    cases h
  · rw [if_neg haligned] at h
    obtain ⟨_, t, -, h⟩ := bind_ok h
    exact (EStateM.Result.ok.inj h).1.symm

/-- The table survives every error if and only if the pointer is null or
acceptable, or there is no child to be lost. -/
theorem wait4_errors_keep_table_iff (k : Kernel) (target : ℤ) (wstatus : ℕ)
    (hcaller : ∀ p, k.current = some p → p.exitCode = none)
    (hpids : ∀ s p, k.proc s = some p → p.pid < 1024) :
    WaitErrorsKeepTable k target wstatus ↔
      wstatus = 0 ∨ userRegionIsWritableRange k wstatus 4 = true ∨ ¬ExposedChild k target := by
  by_cases hexposed : ExposedChild k target
  · obtain ⟨slot, p, code, hawaited, hreaps⟩ := reaps_of_exposed hexposed
    have hrun : sysWait4 target wstatus k =
        deliverStatus p.pid code wstatus { k with procs := k.procs.set slot none } :=
      bind_of_ok hreaps _
    have hcheck := @userRegionIsWritableRange_congr k { k with procs := k.procs.set slot none }
      (current_of_reaped hcaller hawaited) rfl wstatus 4
    constructor
    · intro hkeep
      by_contra hbad
      simp only [not_or, not_not, Bool.not_eq_true] at hbad
      have herror : sysWait4 target wstatus k =
          .ok (errno 14) { k with procs := k.procs.set slot none } := by
        rw [hrun, deliverStatus, if_neg hbad.1]
        simp [bind_run, hcheck, hbad.2.1]
      have hsame := hkeep _ _ herror (.inr rfl)
      have hslot := congrArg (fun procs => procs[slot]?) hsame
      simp [proc_eq_some.mp hawaited.1, List.getElem?_set_self'] at hslot
    · intro hok v k' hcall herr
      rw [hrun] at hcall
      have hvalue := deliverStatus_value (hok.imp_right fun h =>
        (hcheck.trans (h.resolve_right (not_not_intro hexposed)))) hcall
      rw [hvalue] at herr
      exact absurd herr (pid_ne_error (hpids slot p hawaited.1))
  · constructor
    · intro _
      exact .inr (.inr hexposed)
    · intro _ v k' hcall _
      have hrun : sysWait4 target wstatus k = .ok (errno 11) k :=
        bind_of_ok (waitReap_of_not_exposed hexposed) _
      rw [hrun] at hcall
      obtain ⟨-, rfl⟩ := EStateM.Result.ok.inj hcall
      rfl

/-- A parent whose only child has exited with status 7. -/
def bereaved : Kernel :=
  { statics (memInit []) with
    procs := [some (Process.new 1 none 0 (bootstrapUser 0 0 0x202)),
      some { Process.new 2 (some 1) 0 (bootstrapUser 0 0 0x202) with exitCode := some 7 }] }

theorem bereaved_proc {s : ℕ} {p : Process} (h : bereaved.proc s = some p) : p.pid < 1024 := by
  have hmem : some p ∈ bereaved.procs := List.mem_of_getElem? (proc_eq_some.mp h)
  simp only [bereaved, List.mem_cons, Option.some.injEq, List.not_mem_nil, or_false] at hmem
  cases hmem with
  | inl heq => rw [heq]; decide
  | inr heq => rw [heq]; decide

theorem wait4_errors_keep_table_null : WaitErrorsKeepTable bereaved (-1) 0 ∧
    ∃ k', sysWait4 (-1) 0 bereaved = .ok 2 k' := by
  constructor
  · apply (wait4_errors_keep_table_iff bereaved (-1) 0 ?_ fun s p => bereaved_proc).mpr
    · exact .inl rfl
    · intro p hp
      rw [← Option.some.inj hp]
      rfl
  · exact ⟨_, rfl⟩

/-- With a status pointer at 16 the child is gone, and asking again finds nobody. -/
theorem wait4_loses_child : ∃ k', sysWait4 (-1) 16 bereaved = .ok (errno 14) k' ∧
    sysWait4 (-1) 0 k' = .ok (errno 11) k' ∧ ¬WaitErrorsKeepTable bereaved (-1) 16 := by
  refine ⟨{ bereaved with procs := bereaved.procs.set 1 none }, rfl, rfl, ?_⟩
  intro hkeep
  have hsame := hkeep _ _ rfl (.inr rfl)
  have hlen := congrArg (fun procs => (procs.filterMap id).length) hsame
  exact absurd hlen (by decide)

end Rockos.Reaping
