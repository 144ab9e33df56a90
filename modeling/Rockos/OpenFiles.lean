import Rockos.Descriptors

/-!
# How many files can be open (fs.rs)

`sys_open` refuses an ordinary path once the table holds more than 64 files, so
65 is the most that ordinary opens can reach. The branch for `/dev/null` enters
a file without looking at the number of files. A run stays within the bound
exactly as long as no such open meets a full table.
-/
namespace Rockos.OpenFiles
open FallibleState Paging KernelState AddressSpace Syscall Descriptors Runs

/-- `FILES` is not larger than the check of `sys_open` permits. -/
def Bounded (fs : FileTable) : Prop := fs.files.length ≤ 65

/-- There is room for one more file, or the next one replaces a file. -/
def Roomy (fs : FileTable) : Prop :=
  fs.files.length ≤ 64 ∨ ∃ f ∈ fs.files, f.1 = fs.nextFd

/-- The call is no open of `/dev/null`, or it finds room. -/
def Fits (k : Kernel) : FdCall → Prop
  | .openPath pathPtr _ => OpensNull k pathPtr → Roomy k.fs
  | .close _ | .read _ _ _ | .write _ _ _ => True

/-! ## One call -/

section
variable {k k' : Kernel} {v : UInt64}

/-- With a full table a new file fits only in the place of an old one. -/
theorem Issues.bounded_iff (hi : Issues k v k') (hk : Bounded k.fs) :
    Bounded k'.fs ↔ Roomy k.fs := by
  have hlen : k'.fs.files.length = (k.fs.files.filter (·.1 ≠ k.fs.nextFd)).length + 1 := by
    rw [hi.files, hi.fd, List.length_cons]
  have hle := List.length_filter_le (fun f : UInt64 × List UInt8 => decide (f.1 ≠ k.fs.nextFd))
    k.fs.files
  unfold Bounded at hk ⊢
  unfold Roomy
  rw [hlen]
  constructor
  · intro hroom
    by_cases hfew : k.fs.files.length ≤ 64
    · exact .inl hfew
    · right
      by_contra hnone
      have hall : k.fs.files.filter (·.1 ≠ k.fs.nextFd) = k.fs.files := by
        rw [List.filter_eq_self]
        intro f hf
        exact decide_eq_true fun heq => hnone ⟨f, hf, heq⟩
      rw [hall] at hroom
      omega
  · intro hroom
    cases hroom with
    | inl hfew => omega
    | inr hold =>
        obtain ⟨f, hf, heq⟩ := hold
        have hlt : (k.fs.files.filter (·.1 ≠ k.fs.nextFd)).length < k.fs.files.length := by
          rw [List.length_filter_lt_length_iff_exists]
          exact ⟨f, hf, by simp [heq]⟩
        omega

theorem bounded_step {c : FdCall} (hrun : c.run k = .ok v k') (hk : Bounded k.fs) :
    Bounded k'.fs ↔ Fits k c := by
  cases c with
  | openPath pathPtr flags =>
      unfold Fits
      cases sysOpen_cases hrun with
      | inl hsame =>
          unfold Bounded at hk ⊢
          rw [hsame.1.1]
          exact iff_of_true hk fun hnull => absurd hnull hsame.2.2
      | inr hi =>
          rw [Issues.bounded_iff hi.1 hk]
          constructor
          · exact fun hroom _ => hroom
          · intro hfits
            cases hi.2 with
            | inl hnull => exact hfits hnull
            | inr hfew => exact .inl hfew
  | close fd =>
      apply iff_of_true _ trivial
      cases sysClose_cases hrun with
      | inl hsame => rwa [hsame.2]
      | inr hclose =>
          unfold Bounded at hk ⊢
          rw [hclose.2]
          exact le_trans (List.length_filter_le ..) hk
  | read fd buf len =>
      have hfs : k'.fs = k.fs := (sysRead_fs fd buf len).ok hrun
      rw [hfs]
      exact iff_of_true hk trivial
  | write fd buf len =>
      apply iff_of_true _ trivial
      cases sysWrite_cases hrun with
      | inl hsame => rwa [hsame.1]
      | inr hwrote =>
          obtain ⟨-, -, -, slice, -, ha⟩ := hwrote
          unfold Bounded at hk ⊢
          rw [ha.files, List.length_map]
          exact hk

end

/-! ## Runs -/

abbrev Transcript := List ((Kernel × FdCall) × UInt64 × Option FdEvent)

/-- Every state of the run is within the bound, the last one included. -/
def StaysBounded (k₀ : Kernel) (tr : Transcript) : Prop :=
  ∀ tr₁ tr₂ k, tr = tr₁ ++ tr₂ → Run fdStep k₀ tr₁ k → Bounded k.fs

/-- Every call of the run fits. -/
def AllFit (k₀ : Kernel) (tr : Transcript) : Prop :=
  ∀ x i y, Takes fdStep k₀ tr x i y → Fits { i.1 with fs := x.fs } i.2

theorem bounded_of_allFit {k₀ k : Kernel} {tr : Transcript} (hstart : Bounded k₀.fs)
    (hrun : Run fdStep k₀ tr k) (hfit : AllFit k₀ tr) : Bounded k.fs := by
  apply hrun.invariant_taken (I := fun k => Bounded k.fs) hstart
  intro x i y htakes hx
  have hfits := hfit x i y htakes
  obtain ⟨tr₁, o, tr₂, -, -, hstep⟩ := htakes
  obtain ⟨hcall, -⟩ := fdStep_ok hstep
  exact (bounded_step (k := { i.1 with fs := x.fs }) hcall hx).mpr hfits

/-- The table stays within 65 files exactly in the runs in which every open of
`/dev/null` finds room. -/
theorem files_bounded_iff (k₀ : Kernel) (tr : Transcript) (hstart : k₀.fs.files = []) :
    StaysBounded k₀ tr ↔ AllFit k₀ tr := by
  have hempty : Bounded k₀.fs := by
    unfold Bounded
    rw [hstart]
    decide
  constructor
  · intro hbound x i y htakes
    obtain ⟨tr₁, o, tr₂, rfl, hx, hstep⟩ := htakes
    obtain ⟨hcall, -⟩ := fdStep_ok hstep
    have hbefore : Bounded x.fs := hbound tr₁ _ x rfl hx
    have hafter : Bounded y.fs := by
      apply hbound (tr₁ ++ [(i, o)]) tr₂ y
      · simp
      · exact hx.snoc hstep
    exact (bounded_step (k := { i.1 with fs := x.fs }) hcall hbefore).mp hafter
  · rintro hfit tr₁ tr₂ k rfl hk
    apply bounded_of_allFit hempty hk
    intro x i y htakes
    exact hfit x i y htakes.extend

/-! ## Growth -/

theorem sysOpen_null {k : Kernel} {pathPtr : ℕ} (flags : UInt64) (h : OpensNull k pathPtr) :
    ∃ v k', sysOpen pathPtr flags k = .ok v k' := by
  cases sysOpen_of_path flags h with
  | inl hnew => exact ⟨_, _, hnew.2⟩
  | inr hother =>
      obtain ⟨-, v, k', hrun, -⟩ := hother
      exact ⟨v, k', hrun⟩

/-- After `n` opens in a row the table holds `n` files, numbered from 4 on. -/
structure Opened (n : ℕ) (fs : FileTable) : Prop where
  count : fs.files.length = n
  next : fs.nextFd.toNat = 4 + n
  below : ∀ f ∈ fs.files, f.1.toNat < 4 + n

theorem Opened.step {n : ℕ} {k k' : Kernel} {v : UInt64} (h : Opened n k.fs)
    (hn : 4 + n + 1 < 2 ^ 64) (hi : Issues k v k') : Opened (n + 1) k'.fs := by
  have hkept : k.fs.files.filter (·.1 ≠ v) = k.fs.files := by
    rw [List.filter_eq_self]
    intro f hf
    apply decide_eq_true
    intro heq
    have hlt := h.below f hf
    rw [heq, hi.fd, h.next] at hlt
    omega
  constructor
  · rw [hi.files, hkept, List.length_cons, h.count]
  · rw [hi.next, UInt64.toNat_add, h.next]
    simp only [UInt64.reduceToNat]
    omega
  · intro f hf
    rw [hi.files, hkept] at hf
    cases List.mem_cons.mp hf with
    | inl hnew =>
        rw [hnew, hi.fd, h.next]
        omega
    | inr hold => exact lt_trans (h.below f hold) (by omega)

/-- Only the range of the counter limits the number of files. -/
theorem null_opens_grow {env k₀ : Kernel} {pathPtr : ℕ} (hnull : OpensNull env pathPtr)
    (hstart : Opened 0 k₀.fs) (n : ℕ) (hn : 4 + n < 2 ^ 64) : ∃ tr k, Run fdStep k₀ tr k ∧
      tr.map (·.1) = List.replicate n (env, .openPath pathPtr 0) ∧ Opened n k.fs := by
  induction n with
  | zero => exact ⟨[], k₀, .done k₀, rfl, hstart⟩
  | succ n ih =>
      obtain ⟨tr, k, hrun, hcalls, hopened⟩ := ih (by omega)
      obtain ⟨v, k', hopen⟩ := sysOpen_null (k := { env with fs := k.fs }) 0 hnull
      have hi : Issues { env with fs := k.fs } v k' := by
        cases sysOpen_cases hopen with
        | inl hsame => exact absurd hnull hsame.2.2
        | inr hi => exact hi.1
      have hstep : fdStep (env, .openPath pathPtr 0) k = some ((v,
          FdCall.event { env with fs := k.fs } k' v (.openPath pathPtr 0)), k') := by
        simp only [fdStep, FdCall.run, hopen, returned, Option.map_some]
      refine ⟨_, k', hrun.snoc hstep, ?_, Opened.step (k := { env with fs := k.fs }) hopened hn hi⟩
      rw [List.map_append, hcalls, List.replicate_succ']
      rfl

/-- The first process, with the path `/dev/null` on its stack. -/
def withNull : Kernel :=
  let stores := (ascii "/dev/null").zipIdx.map fun b => (0x401F00 + b.2, b.1)
  { started with mem := stores.foldl userStore started.mem }

theorem withNull_opens : OpensNull withNull 0x401F00 := by
  unfold OpensNull
  decide +kernel

theorem started_opened : Opened 0 started.fs := by
  refine ⟨rfl, rfl, ?_⟩
  rw [show started.fs.files = [] from rfl]
  simp

/-- One open of `/dev/null` finds room. -/
theorem files_bounded_iff_single : ∃ tr k, Run fdStep started tr k ∧ k.fs.files.length = 1 ∧
    StaysBounded started tr := by
  obtain ⟨tr, k, hrun, hcalls, hopened⟩ :=
    null_opens_grow withNull_opens started_opened 1 (by decide)
  refine ⟨tr, k, hrun, hopened.count, (files_bounded_iff started tr rfl).mpr ?_⟩
  obtain ⟨x, rfl⟩ : ∃ x, tr = [x] := by
    rw [← List.length_eq_one_iff, ← List.length_map (·.1), hcalls]
    rfl
  intro s i t htakes
  obtain ⟨rfl, rfl⟩ := takes_singleton htakes
  rw [show x.1 = (withNull, .openPath 0x401F00 0) by simpa using hcalls]
  exact fun _ => .inl (by rw [show started.fs.files = [] from rfl]; decide)

/-- 66 opens of `/dev/null` all succeed. -/
theorem files_exceed_bound : ∃ tr k, Run fdStep started tr k ∧
    tr.map (·.1) = List.replicate 66 (withNull, .openPath 0x401F00 0) ∧
    k.fs.files.length = 66 := by
  obtain ⟨tr, k, hrun, hcalls, hopened⟩ :=
    null_opens_grow withNull_opens started_opened 66 (by decide)
  exact ⟨tr, k, hrun, hcalls, hopened.count⟩

end Rockos.OpenFiles
