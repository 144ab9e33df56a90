import Rockos.ProcessTable
import Rockos.Turns

/-!
# Process instances

Slots and pids are both used again, so neither of them says which process an
entry stands for. The chronicle of a run does: it numbers the processes in the
order of their creation and notes, from outside the kernel, who created each of
them, what its latest system call returned, which context was saved for it, and
how it exited. The kernel does not see it, and every run has one.

What the table says about a process agrees with its chronicle at every point of
a run.
-/
namespace Rockos.Instances
open FallibleState PhysMemory Paging StackMachine SyscallFrame KernelState ProcessCalls
open Syscall SyscallEffects RunQueue ProcessTable Turns Runs

/-- One process, from its creation to the moment its slot is emptied. -/
structure Instance where
  birth : ℕ
  pid : ℕ
  creator : Option ℕ
  result : UInt64
  saved : SyscallSaved
  exited : Option Int32
  deriving DecidableEq

/-- `exits` and `reaped` list the numbers of the processes that exited, with the
argument of the call, and of those that were reaped. -/
structure Chronicle where
  births : ℕ
  holder : ℕ → Option Instance
  exits : List (ℕ × Int32)
  reaped : List ℕ

/-- The first process. -/
def Chronicle.start (k : Kernel) : Chronicle where
  births := 1
  holder := Function.update (fun _ => none) 0 (some ⟨0, 1, none, 0,
    bootstrapUser (UInt64.ofNat k.mem.image.entryRip) (UInt64.ofNat userStackTop) 0x202, none⟩)
  exits := []
  reaped := []

def Chronicle.amend (slot : ℕ) (f : Instance → Instance) (c : Chronicle) : Chronicle :=
  { c with holder := Function.update c.holder slot ((c.holder slot).map f) }

/-- A process that has not made a system call yet would be resumed with zero. -/
def Chronicle.born (slot pid : ℕ) (creator : Option ℕ) (saved : SyscallSaved) (c : Chronicle) :
    Chronicle :=
  { c with
    births := c.births + 1
    holder := Function.update c.holder slot (some ⟨c.births, pid, creator, 0, saved, none⟩) }

def Chronicle.freed (slot : ℕ) (c : Chronicle) : Chronicle :=
  { c with
    holder := Function.update c.holder slot none
    reaped := c.reaped ++ ((c.holder slot).map Instance.birth).toList }

def Chronicle.answered (slot : ℕ) (value : UInt64) (saved : SyscallSaved) (c : Chronicle) :
    Chronicle :=
  c.amend slot fun i => { i with result := value, saved := saved }

def Chronicle.exit (slot : ℕ) (status : Int32) (c : Chronicle) : Chronicle :=
  { c.amend slot fun i => { i with exited := some status } with
    exits := c.exits ++ ((c.holder slot).map fun i => (i.birth, status)).toList }

/-! ## What is noted of a step -/

def filledSlot (k k' : Kernel) : Option ℕ :=
  (List.range k'.procs.length).find? fun s => (k.proc s).isNone && (k'.proc s).isSome

def freedSlot (k k' : Kernel) : Option ℕ := filledSlot k' k

/-- What `syscall_dispatch` returns, if it does. -/
def answer (cfg : Config) (t : Trap) (k : Kernel) : Option UInt64 :=
  (returned (dispatch cfg t k)).bind fun x =>
    match x.1 with
    | .returned v => some v
    | .switched _ => none

/-- The caller is the process in the current slot. -/
def record (cfg : Config) : Event → Kernel → Kernel → Chronicle → Chronicle
  | .irq _, _, _, c => c
  | .syscall t, k, k', c =>
      let c₁ := (filledSlot k k').elim c fun s =>
        c.born s ((k'.proc s).elim 0 Process.pid) ((c.holder k.currentSlot).map Instance.birth)
          (childSave (forkSave cfg t k))
      let c₂ := (freedSlot k k').elim c₁ c₁.freed
      if sysno (t.reg .rax) = some .exit then c₂.exit k.currentSlot (exitStatus t)
      else (answer cfg t k).elim c₂ fun v => c₂.answered k.currentSlot v (tailSave t k)

abbrev recordedStep (cfg : Config) := observed (step cfg) (record cfg)

/-- A state and the chronicle of the run that led to it. -/
def Recorded (cfg : Config) (k : Kernel) (c : Chronicle) : Prop :=
  ∃ staleTop boxedTop k₀ tr,
    Run (recordedStep cfg) (boot staleTop boxedTop k₀, .start k₀) tr (k, c)

theorem Recorded.reachable {cfg : Config} {k : Kernel} {c : Chronicle} (h : Recorded cfg k c) :
    Reachable cfg k := by
  obtain ⟨staleTop, boxedTop, k₀, tr, hrun⟩ := h
  exact ⟨staleTop, boxedTop, k₀, tr, hrun.forget⟩

theorem Reachable.recorded {cfg : Config} {k : Kernel} (h : Reachable cfg k) :
    ∃ c, Recorded cfg k c := by
  obtain ⟨staleTop, boxedTop, k₀, tr, hrun⟩ := h
  have hobserved : ∃ c, Run (recordedStep cfg) (_, .start k₀) tr (k, c) := hrun.observe _
  obtain ⟨c, hobs⟩ := hobserved
  exact ⟨c, staleTop, boxedTop, k₀, tr, hobs⟩

theorem boot_recorded (cfg : Config) (staleTop boxedTop : UInt64) (k : Kernel) :
    Recorded cfg (boot staleTop boxedTop k) (.start (boot staleTop boxedTop k)) :=
  ⟨staleTop, boxedTop, k, [], .done _⟩

theorem Recorded.run {cfg : Config} {k k' : Kernel} {c c' : Chronicle}
    {tr : List (Event × Option Resumed)} (h : Recorded cfg k c)
    (hrun : Run (recordedStep cfg) (k, c) tr (k', c')) : Recorded cfg k' c' := by
  obtain ⟨staleTop, boxedTop, k₀, _, hstart⟩ := h
  exact ⟨staleTop, boxedTop, k₀, _, hstart.append hrun⟩

theorem Recorded.step {cfg : Config} {k k' : Kernel} {c c' : Chronicle} {e : Event}
    {o : Option Resumed} (h : Recorded cfg k c)
    (hstep : recordedStep cfg e (k, c) = some (o, k', c')) : Recorded cfg k' c' :=
  h.run (.single hstep)

/-! ## The table agrees with the chronicle -/

/-- An entry of the table and the process it stands for. -/
structure Matches (p : Process) (i : Instance) : Prop where
  pid : i.pid = p.pid
  exited : i.exited = p.exitCode
  result : i.result = p.pendingRax
  saved : i.saved = p.save

/-- No number is given twice, and none comes back after its process was reaped. -/
structure Numbered (c : Chronicle) : Prop where
  young : ∀ s i, c.holder s = some i → i.birth < c.births ∧ ∀ b, i.creator = some b → b < c.births
  distinct : ∀ s s' i i', c.holder s = some i → c.holder s' = some i' → i.birth = i'.birth → s = s'
  reapedOnce : c.reaped.Nodup
  reapedGone : ∀ b ∈ c.reaped, b < c.births ∧ ∀ s i, c.holder s = some i → i.birth ≠ b

structure Faithful (proc : ℕ → Option Process) (c : Chronicle) : Prop extends Numbered c where
  entry : ∀ s, Option.Rel Matches (proc s) (c.holder s)
  exitedOnce : (c.exits.map Prod.fst).Nodup
  exitedOld : ∀ x ∈ c.exits, x.1 < c.births
  exited : ∀ s i code, c.holder s = some i → i.exited = some code → (i.birth, code) ∈ c.exits
  running : ∀ s i, c.holder s = some i → i.exited = none → ∀ x ∈ c.exits, x.1 ≠ i.birth

/-! ### Numbers -/

section
variable {c : Chronicle} {slot : ℕ}

theorem holder_born {pid : ℕ} {creator : Option ℕ} {saved : SyscallSaved} {s : ℕ} {i : Instance}
    (h : (c.born slot pid creator saved).holder s = some i) :
    (s = slot ∧ i = ⟨c.births, pid, creator, 0, saved, none⟩) ∨ c.holder s = some i := by
  by_cases hs : s = slot
  · subst hs
    simp only [Chronicle.born, Function.update_self, Option.some.injEq] at h
    exact .inl ⟨rfl, h.symm⟩
  · exact .inr (by simpa [Chronicle.born, Function.update_of_ne hs] using h)

theorem holder_freed {s : ℕ} {i : Instance} (h : (c.freed slot).holder s = some i) :
    s ≠ slot ∧ c.holder s = some i := by
  by_cases hs : s = slot
  · simp [Chronicle.freed, hs] at h
  · exact ⟨hs, by simpa [Chronicle.freed, Function.update_of_ne hs] using h⟩

theorem holder_amend {f : Instance → Instance} {s : ℕ} {i : Instance} :
    (c.amend slot f).holder s = some i ↔
      ∃ j, c.holder s = some j ∧ i = if s = slot then f j else j := by
  by_cases hs : s = slot
  · subst hs
    simp only [Chronicle.amend, Function.update_self, Option.map_eq_some_iff, if_true]
    exact exists_congr fun j => and_congr_right fun _ => eq_comm
  · simp only [Chronicle.amend, Function.update_of_ne hs, if_neg hs]
    exact ⟨fun h => ⟨i, h, rfl⟩, fun ⟨j, hj, hij⟩ => hij ▸ hj⟩

theorem Numbered.born (h : Numbered c) {pid : ℕ} {creator : Option ℕ} {saved : SyscallSaved}
    (hcreator : ∀ b, creator = some b → b < c.births) :
    Numbered (c.born slot pid creator saved) := by
  refine ⟨fun s i hi => ?_, fun s s' i i' hi hi' hb => ?_, h.reapedOnce, fun b hb => ?_⟩
  · rcases holder_born hi with ⟨-, rfl⟩ | hold
    · exact ⟨Nat.lt_succ_self _, fun b hb => Nat.lt_succ_of_lt (hcreator b hb)⟩
    · obtain ⟨hbirth, hparent⟩ := h.young s i hold
      exact ⟨Nat.lt_succ_of_lt hbirth, fun b hb => Nat.lt_succ_of_lt (hparent b hb)⟩
  · rcases holder_born hi with ⟨rfl, rfl⟩ | hold <;> rcases holder_born hi' with ⟨rfl, rfl⟩ | hold'
    · rfl
    · exact absurd hb.symm (h.young s' i' hold').1.ne
    · exact absurd hb (h.young s i hold).1.ne
    · exact h.distinct s s' i i' hold hold' hb
  · obtain ⟨hlt, hgone⟩ := h.reapedGone b hb
    refine ⟨Nat.lt_succ_of_lt hlt, fun s i hi => ?_⟩
    rcases holder_born hi with ⟨-, rfl⟩ | hold
    · exact hlt.ne'
    · exact hgone s i hold

theorem Numbered.freed (h : Numbered c) {j : Instance} (hj : c.holder slot = some j) :
    Numbered (c.freed slot) := by
  have hreaped : (c.freed slot).reaped = c.reaped ++ [j.birth] := by simp [Chronicle.freed, hj]
  refine ⟨fun s i hi => h.young s i (holder_freed hi).2,
    fun s s' i i' hi hi' => h.distinct s s' i i' (holder_freed hi).2 (holder_freed hi').2, ?_,
    fun b hb => ?_⟩
  · rw [hreaped, List.nodup_append]
    refine ⟨h.reapedOnce, List.nodup_singleton _, ?_⟩
    rintro b hb b' hb' rfl
    exact (h.reapedGone b hb).2 slot j hj (List.mem_singleton.mp hb').symm
  · rw [hreaped, List.mem_append, List.mem_singleton] at hb
    rcases hb with hb | rfl
    · exact ⟨(h.reapedGone b hb).1, fun s i hi => (h.reapedGone b hb).2 s i (holder_freed hi).2⟩
    · refine ⟨(h.young slot j hj).1, fun s i hi heq => ?_⟩
      exact (holder_freed hi).1 (h.distinct s slot i j (holder_freed hi).2 hj heq)

/-- What a process does to itself leaves its number and its creator's as they are. -/
theorem Numbered.amend (h : Numbered c) {f : Instance → Instance}
    (hf : ∀ i, (f i).birth = i.birth ∧ (f i).creator = i.creator) : Numbered (c.amend slot f) := by
  have hold : ∀ {s i}, (c.amend slot f).holder s = some i →
      ∃ j, c.holder s = some j ∧ i.birth = j.birth ∧ i.creator = j.creator := by
    intro s i hi
    obtain ⟨j, hj, rfl⟩ := holder_amend.mp hi
    refine ⟨j, hj, ?_⟩
    split_ifs
    · exact hf j
    · exact ⟨rfl, rfl⟩
  refine ⟨fun s i hi => ?_, fun s s' i i' hi hi' hb => ?_, h.reapedOnce,
    fun b hb => ⟨(h.reapedGone b hb).1, fun s i hi => ?_⟩⟩
  · obtain ⟨j, hj, hb, hc⟩ := hold hi
    rw [hb, hc]
    exact h.young s j hj
  · obtain ⟨j, hj, hjb, -⟩ := hold hi
    obtain ⟨j', hj', hjb', -⟩ := hold hi'
    exact h.distinct s s' j j' hj hj' (hjb ▸ hjb' ▸ hb)
  · obtain ⟨j, hj, hjb, -⟩ := hold hi
    exact hjb ▸ (h.reapedGone b hb).2 s j hj

end

/-! ### Entries and exits -/

section
variable {proc : ℕ → Option Process} {c : Chronicle} {slot : ℕ} {p : Process}

theorem Faithful.holder (h : Faithful proc c) {s : ℕ} (hp : proc s = some p) :
    ∃ i, c.holder s = some i ∧ Matches p i := by
  have hs := h.entry s
  rw [hp] at hs
  cases hi : c.holder s with
  | none =>
      rw [hi] at hs
      cases hs
  | some i =>
      rw [hi] at hs
      cases hs with
      | some hm => exact ⟨i, rfl, hm⟩

theorem Faithful.process (h : Faithful proc c) {s : ℕ} {i : Instance} (hi : c.holder s = some i) :
    ∃ p, proc s = some p ∧ Matches p i := by
  have hs := h.entry s
  rw [hi] at hs
  cases hp : proc s with
  | none =>
      rw [hp] at hs
      cases hs
  | some p =>
      rw [hp] at hs
      cases hs with
      | some hm => exact ⟨p, rfl, hm⟩

theorem Faithful.born (h : Faithful proc c) (halive : p.exitCode = none) (hrax : p.pendingRax = 0)
    {creator : Option ℕ} (hcreator : ∀ b, creator = some b → b < c.births) :
    Faithful (Function.update proc slot (some p)) (c.born slot p.pid creator p.save) := by
  refine ⟨h.toNumbered.born hcreator, fun s => ?_, h.exitedOnce,
    fun x hx => Nat.lt_succ_of_lt (h.exitedOld x hx), fun s i code hi hcode => ?_,
    fun s i hi hnone => ?_⟩
  · by_cases hs : s = slot
    · subst hs
      simp only [Chronicle.born, Function.update_self]
      exact .some ⟨rfl, halive.symm, hrax.symm, rfl⟩
    · simpa [Chronicle.born, Function.update_of_ne hs] using h.entry s
  · rcases holder_born hi with ⟨-, rfl⟩ | hold
    · cases hcode
    · exact h.exited s i code hold hcode
  · rcases holder_born hi with ⟨-, rfl⟩ | hold
    · exact fun x hx => (h.exitedOld x hx).ne
    · exact h.running s i hold hnone

theorem Faithful.freed (h : Faithful proc c) (hp : proc slot = some p) :
    Faithful (Function.update proc slot none) (c.freed slot) := by
  obtain ⟨j, hj, -⟩ := h.holder hp
  refine ⟨h.toNumbered.freed hj, fun s => ?_, h.exitedOnce, h.exitedOld,
    fun s i code hi => h.exited s i code (holder_freed hi).2,
    fun s i hi => h.running s i (holder_freed hi).2⟩
  by_cases hs : s = slot
  · subst hs
    simp only [Chronicle.freed, Function.update_self]
    exact .none
  · simpa [Chronicle.freed, Function.update_of_ne hs] using h.entry s

theorem Faithful.answered (h : Faithful proc c) (hp : proc slot = some p) {q : Process}
    (hid : identity q = identity p) :
    Faithful (Function.update proc slot (some q)) (c.answered slot q.pendingRax q.save) := by
  have hold : ∀ {s i}, (c.answered slot q.pendingRax q.save).holder s = some i →
      ∃ j, c.holder s = some j ∧ i.birth = j.birth ∧ i.exited = j.exited := by
    intro s i hi
    obtain ⟨j, hj, rfl⟩ := holder_amend.mp hi
    refine ⟨j, hj, ?_⟩
    split_ifs <;> exact ⟨rfl, rfl⟩
  refine ⟨h.toNumbered.amend fun _ => ⟨rfl, rfl⟩, fun s => ?_, h.exitedOnce, h.exitedOld,
    fun s i code hi hcode => ?_, fun s i hi hnone => ?_⟩
  · by_cases hs : s = slot
    · subst hs
      obtain ⟨j, hj, hm⟩ := h.holder hp
      simp only [identity, Identity.mk.injEq] at hid
      simp only [Chronicle.answered, Chronicle.amend, Function.update_self, hj, Option.map_some]
      exact .some ⟨hm.pid.trans hid.1.symm, hm.exited.trans hid.2.2.1.symm, rfl, rfl⟩
    · simpa [Chronicle.answered, Chronicle.amend, Function.update_of_ne hs] using h.entry s
  · obtain ⟨j, hj, hjb, hje⟩ := hold hi
    rw [hjb]
    exact h.exited s j code hj (hje ▸ hcode)
  · obtain ⟨j, hj, hjb, hje⟩ := hold hi
    rw [hjb]
    exact h.running s j hj (hje ▸ hnone)

theorem holder_exit {status : Int32} {s : ℕ} {i : Instance}
    (hi : (c.exit slot status).holder s = some i) :
    ∃ j, c.holder s = some j ∧ i.birth = j.birth ∧
      i.exited = if s = slot then some status else j.exited := by
  obtain ⟨j, hj, rfl⟩ := holder_amend.mp hi
  refine ⟨j, hj, ?_⟩
  split_ifs <;> exact ⟨rfl, rfl⟩

theorem Faithful.exit (h : Faithful proc c) (hp : proc slot = some p) (halive : p.exitCode = none)
    (status : Int32) :
    Faithful (Function.update proc slot (some { p with exitCode := some status }))
      (c.exit slot status) := by
  obtain ⟨me, hme, hm⟩ := h.holder hp
  have hrunning : me.exited = none := hm.exited.trans halive
  have hexits : (c.exit slot status).exits = c.exits ++ [(me.birth, status)] := by
    simp [Chronicle.exit, hme]
  have hnum : Numbered (c.amend slot fun i => { i with exited := some status }) :=
    h.toNumbered.amend fun _ => ⟨rfl, rfl⟩
  refine ⟨⟨hnum.young, hnum.distinct, hnum.reapedOnce, hnum.reapedGone⟩, fun s => ?_, ?_,
    fun x hx => ?_, fun s i code hi hcode => ?_, fun s i hi hnone x hx => ?_⟩
  · by_cases hs : s = slot
    · subst hs
      simp only [Chronicle.exit, Chronicle.amend, Function.update_self, hme, Option.map_some]
      exact .some ⟨hm.pid, rfl, hm.result, hm.saved⟩
    · simpa [Chronicle.exit, Chronicle.amend, Function.update_of_ne hs] using h.entry s
  · rw [hexits, List.map_append, List.nodup_append]
    refine ⟨h.exitedOnce, List.nodup_singleton _, ?_⟩
    rintro b hb b' hb' rfl
    obtain ⟨x, hx, rfl⟩ := List.mem_map.mp hb
    exact h.running slot me hme hrunning x hx (List.mem_singleton.mp hb')
  · rw [hexits, List.mem_append, List.mem_singleton] at hx
    rcases hx with hx | rfl
    · exact h.exitedOld x hx
    · exact (h.young slot me hme).1
  · obtain ⟨j, hj, hjb, hje⟩ := holder_exit hi
    rw [hexits, List.mem_append, List.mem_singleton, hjb]
    split_ifs at hje with hs
    · subst hs
      rw [hme, Option.some.injEq] at hj
      rw [hje, Option.some.injEq] at hcode
      exact .inr (by rw [hj, hcode])
    · exact .inl (h.exited s j code hj (hje ▸ hcode))
  · obtain ⟨j, hj, hjb, hje⟩ := holder_exit hi
    rw [hexits, List.mem_append, List.mem_singleton] at hx
    rw [hjb]
    split_ifs at hje with hs
    · rw [hje] at hnone
      cases hnone
    · rcases hx with hx | rfl
      · exact h.running s j hj (hje ▸ hnone) x hx
      · exact fun heq => hs (h.distinct s slot j me hj hme heq.symm)

end

/-! ## Every run -/

theorem find?_range_of_unique {P : ℕ → Bool} {n a : ℕ} (ha : a < n)
    (hP : ∀ s, P s = true ↔ s = a) : (List.range n).find? P = some a := by
  refine List.find?_range_eq_some.mpr ⟨(hP a).mpr rfl, List.mem_range.mpr ha, fun j hj => ?_⟩
  have hne : ¬ P j = true := fun h => hj.ne ((hP j).mp h)
  simpa using hne

section
variable {cfg : Config} {t : Trap} {k k' : Kernel} {c : Chronicle} {slot : ℕ}

theorem proc_lt {s : ℕ} (h : (k.proc s).isSome) : s < k.procs.length := by
  by_contra hge
  simp [Kernel.proc, List.getElem?_eq_none (not_lt.mp hge)] at h

theorem filledSlot_none (h : ∀ s, (k'.proc s).isSome → (k.proc s).isSome) :
    filledSlot k k' = none := by
  refine List.find?_eq_none.mpr fun s _ hs => ?_
  simp only [Bool.and_eq_true, Option.isNone_iff_eq_none] at hs
  have hold := h s hs.2
  simp [hs.1] at hold

theorem freedSlot_none (h : ∀ s, (k.proc s).isSome → (k'.proc s).isSome) :
    freedSlot k k' = none :=
  filledSlot_none h

theorem filledSlot_some (hfree : k.proc slot = none) (hnew : (k'.proc slot).isSome)
    (hother : ∀ s, s ≠ slot → (k'.proc s).isSome → (k.proc s).isSome) :
    filledSlot k k' = some slot := by
  refine find?_range_of_unique (proc_lt hnew) fun s => ⟨fun hs => ?_, ?_⟩
  · by_contra hne
    simp only [Bool.and_eq_true, Option.isNone_iff_eq_none] at hs
    have hold := hother s hne hs.2
    simp [hs.1] at hold
  · rintro rfl
    simp [hfree, hnew]

theorem answer_of_dispatch {v : UInt64} {k₁ : Kernel}
    (h : dispatch cfg t k = .ok (.returned v) k₁) : answer cfg t k = some v := by
  simp [answer, h, returned]

/-- Filling the place of an old value keeps the domain. -/
theorem isSome_update {f : ℕ → Option Process} {a : ℕ} {x y : Process} (h : f a = some x) (s : ℕ) :
    (Function.update f a (some y) s).isSome = (f s).isSome := by
  by_cases hs : s = a
  · subst hs
    simp [h]
  · simp [hs]

theorem record_exited {p : Process} (hcall : sysno (t.reg .rax) = some .exit)
    (hp : k.current = some p) (hproc : k'.proc = Function.update k.proc k.currentSlot
      (some { p with exitCode := some (exitStatus t) })) :
    record cfg (.syscall t) k k' c = c.exit k.currentSlot (exitStatus t) := by
  have hsome : ∀ s, (k'.proc s).isSome = (k.proc s).isSome := by
    rw [hproc]
    exact isSome_update hp
  simp only [record, filledSlot_none fun s hs => hsome s ▸ hs,
    freedSlot_none fun s hs => (hsome s).symm ▸ hs, Option.elim_none, if_pos hcall]

section
variable {p q : Process}

theorem record_quiet (hown : Answered cfg t k p q)
    (hproc : k'.proc = Function.update k.proc k.currentSlot (some q)) :
    record cfg (.syscall t) k k' c = c.answered k.currentSlot q.pendingRax q.save := by
  obtain ⟨k₁, hvalue⟩ := hown.value
  have hsome : ∀ s, (k'.proc s).isSome = (k.proc s).isSome := by
    rw [hproc]
    exact isSome_update hown.caller
  simp only [record, filledSlot_none fun s hs => hsome s ▸ hs,
    freedSlot_none fun s hs => (hsome s).symm ▸ hs, Option.elim_none, if_neg hown.noExit,
    answer_of_dispatch hvalue, Option.elim_some, hown.save]

theorem record_forked (hown : Answered cfg t k p q) {child : Process} (hfree : k.proc slot = none)
    (hchild : child.save = childSave (forkSave cfg t k))
    (hproc : k'.proc = Function.update (Function.update k.proc slot (some child)) k.currentSlot
      (some q)) :
    record cfg (.syscall t) k k' c =
      (c.born slot child.pid ((c.holder k.currentSlot).map Instance.birth) child.save).answered
        k.currentSlot q.pendingRax q.save := by
  obtain ⟨k₁, hvalue⟩ := hown.value
  have hne := slot_ne_of_free hown.caller hfree
  have hslot : k'.proc slot = some child := by rw [hproc]; simp [hne.symm]
  have hsome : ∀ s, (k'.proc s).isSome = (Function.update k.proc slot (some child) s).isSome := by
    rw [hproc]
    exact isSome_update (caller_after hown.caller hne _)
  have hfilled : filledSlot k k' = some slot := by
    refine filledSlot_some hfree (by simp [hslot]) fun s hs hnew => ?_
    rwa [hsome, Function.update_of_ne hs] at hnew
  have hfreed : freedSlot k k' = none := by
    refine freedSlot_none fun s hs => ?_
    rw [hsome]
    by_cases heq : s = slot
    · simp [heq]
    · rwa [Function.update_of_ne heq]
  simp only [record, hfilled, hfreed, Option.elim_none, Option.elim_some, if_neg hown.noExit,
    answer_of_dispatch hvalue, hslot, hown.save, hchild]

theorem record_reaped (hown : Answered cfg t k p q) {zombie : Process}
    (hne : slot ≠ k.currentSlot) (hheld : k.proc slot = some zombie)
    (hproc : k'.proc = Function.update (Function.update k.proc slot none) k.currentSlot (some q)) :
    record cfg (.syscall t) k k' c =
      (c.freed slot).answered k.currentSlot q.pendingRax q.save := by
  obtain ⟨k₁, hvalue⟩ := hown.value
  have hslot : k'.proc slot = none := by rw [hproc]; simp [hne]
  have hsome : ∀ s, (k'.proc s).isSome = (Function.update k.proc slot none s).isSome := by
    rw [hproc]
    exact isSome_update (caller_after hown.caller hne.symm _)
  have hfilled : filledSlot k k' = none := by
    refine filledSlot_none fun s hs => ?_
    rw [hsome] at hs
    by_cases heq : s = slot
    · simp [heq] at hs
    · rwa [Function.update_of_ne heq] at hs
  have hfreed : freedSlot k k' = some slot := by
    refine filledSlot_some hslot (by simp [hheld]) fun s hs hold => ?_
    rwa [hsome, Function.update_of_ne hs]
  simp only [record, hfilled, hfreed, Option.elim_none, Option.elim_some, if_neg hown.noExit,
    answer_of_dispatch hvalue, hown.save]

end

theorem Faithful.step (h : Faithful k.proc c) (he : TableEdit cfg t k k') :
    Faithful k'.proc (record cfg (.syscall t) k k' c) := by
  cases he with
  | quiet p q own proc =>
      rw [record_quiet own proc, proc]
      exact h.answered own.caller own.same
  | forked p q own slot child new free proc =>
      have hne := slot_ne_of_free own.caller free
      rw [record_forked own free new.save proc, proc]
      refine (h.born new.alive new.rax fun b hb => ?_).answered
        (caller_after own.caller hne _) own.same
      obtain ⟨i, hi, rfl⟩ := Option.map_eq_some_iff.mp hb
      exact (h.young _ i hi).1
  | reaped p q own slot zombie other held dead proc =>
      rw [record_reaped own other held proc, proc]
      exact (h.freed held).answered (caller_after own.caller other.symm _)
        own.same
  | exited p call caller alive proc =>
      rw [record_exited call caller proc, proc]
      exact h.exit caller alive _

/-- What is noted of another live process stays. -/
theorem record_other (he : TableEdit cfg t k k') {s : ℕ} {p : Process} (hs : s ≠ k.currentSlot)
    (hp : k.proc s = some p) (halive : p.exitCode = none) :
    (record cfg (.syscall t) k k' c).holder s = c.holder s := by
  have hkept : ∀ {d : Chronicle} {f : Instance → Instance},
      (d.amend k.currentSlot f).holder s = d.holder s := fun {_ _} => Function.update_of_ne hs _ _
  cases he with
  | quiet _ q own proc =>
      rw [record_quiet own proc]
      exact hkept
  | forked _ q own slot child new free proc =>
      have hslot : s ≠ slot := by
        rintro rfl
        rw [free] at hp
        cases hp
      rw [record_forked own free new.save proc]
      exact hkept.trans (Function.update_of_ne hslot _ _)
  | reaped _ q own slot zombie other held dead proc =>
      have hslot : s ≠ slot := by
        rintro rfl
        rw [held, Option.some.injEq] at hp
        exact dead (hp ▸ halive)
      rw [record_reaped own other held proc]
      exact hkept.trans (Function.update_of_ne hslot _ _)
  | exited _ call caller _ proc =>
      rw [record_exited call caller proc]
      exact hkept

end

theorem start_faithful (staleTop boxedTop : UInt64) (k : Kernel) :
    Faithful (boot staleTop boxedTop k).proc (.start k) := by
  have honly : ∀ {s i}, (Chronicle.start k).holder s = some i → s = 0 ∧ i.birth = 0 ∧
      i.creator = none ∧ i.exited = none := by
    intro s i hi
    by_cases hs : s = 0
    · subst hs
      simp only [Chronicle.start, Function.update_self, Option.some.injEq] at hi
      subst hi
      exact ⟨rfl, rfl, rfl, rfl⟩
    · simp [Chronicle.start, hs] at hi
  refine ⟨⟨fun s i hi => ?_, fun s s' i i' hi hi' _ => ?_, List.nodup_nil,
      by simp [Chronicle.start]⟩,
    fun s => ?_, List.nodup_nil, by simp [Chronicle.start], fun s i code hi hcode => ?_,
    by simp [Chronicle.start]⟩
  · obtain ⟨-, hb, hc, -⟩ := honly hi
    simp [hb, hc, Chronicle.start]
  · rw [(honly hi).1, (honly hi').1]
  · cases s with
    | zero => exact .some ⟨rfl, rfl, rfl, rfl⟩
    | succ s =>
        rw [boot_proc_succ]
        exact .none
  · rw [(honly hi).2.2.2] at hcode
    cases hcode

section
variable {cfg : Config} {k k' : Kernel} {c c' : Chronicle}

/-- A recorded system call. -/
theorem recordedStep_syscall {t : Trap} {o : Option Resumed} (h : Ready k)
    (hstep : recordedStep cfg (.syscall t) (k, c) = some (o, k', c')) :
    TableEdit cfg t k k' ∧ c' = record cfg (.syscall t) k k' c := by
  obtain ⟨hst, hnote⟩ := observed_eq_some.mp hstep
  obtain ⟨r, -, hsys⟩ := step_syscall_ok hst
  exact ⟨turn_edit h (syscall_turn h hsys), hnote⟩

theorem Recorded.faithful (h : Recorded cfg k c) : Faithful k.proc c := by
  obtain ⟨staleTop, boxedTop, k₀, tr, hrun⟩ := h
  suffices hall : Ready k ∧ Faithful k.proc c from hall.2
  refine hrun.invariant (I := fun x => Ready x.1 ∧ Faithful x.1.proc x.2) ?_
    ⟨boot_ready staleTop boxedTop k₀, start_faithful staleTop boxedTop k₀⟩
  rintro e ⟨k, c⟩ o ⟨k', c'⟩ hstep ⟨hready, hf⟩
  obtain ⟨hst, hnote⟩ := observed_eq_some.mp hstep
  refine ⟨step_ready e k o k' hst hready, ?_⟩
  cases e with
  | syscall t =>
      obtain ⟨hedit, rfl⟩ := recordedStep_syscall hready hstep
      exact hf.step hedit
  | irq i =>
      rw [step_irq_proc hst, show c' = c from hnote]
      exact hf

end

/-- Whoever is resumed gets the result of its own latest call and the context
that was saved for it; calls of others change neither. -/
theorem results_reach_their_caller (cfg : Config) (k k' : Kernel) (c c' : Chronicle) (e : Event)
    (r : Resumed) (h : Recorded cfg k c)
    (hstep : recordedStep cfg e (k, c) = some (some r, k', c')) :
    (∃ i, c'.holder r.slot = some i ∧ r.context.rax = i.result ∧ r.saved = i.saved) ∧
    ∀ s p, s ≠ k.currentSlot → k.proc s = some p → p.exitCode = none →
      k'.proc s = some p ∧ c'.holder s = c.holder s := by
  have hready := Reachable.ready h.reachable
  cases e with
  | irq i => simp [observed, Syscall.step] at hstep
  | syscall t =>
      obtain ⟨r', hr', hsw⟩ := step_syscall hready (observed_eq_some.mp hstep).1
      cases hr'
      obtain ⟨hedit, hnote⟩ := recordedStep_syscall hready hstep
      refine ⟨?_, fun s p hs hp halive => ⟨hedit.other hs hp halive, ?_⟩⟩
      swap
      · rw [hnote]
        exact record_other hedit hs hp halive
      obtain ⟨p, m, hp, hsaved, hctx⟩ := hsw.resumes.context
      obtain ⟨i, hi, hm⟩ := (h.step hstep).faithful.holder hp
      refine ⟨i, hi, ?_, hsaved.trans hm.saved.symm⟩
      rw [hctx, resume_eq]
      exact hm.result.symm

theorem started_recorded : Recorded machine started (.start started) :=
  boot_recorded machine _ _ _

/-- The first process forks, and its child yields: the first process is resumed
with the child's pid, which is what its own call returned. -/
theorem results_reach_the_parent : ∃ k k' c c' r i, Recorded machine k c ∧
    recordedStep machine (.syscall (callTrap 0x44444444C000 0 24 0)) (k, c) =
      some (some r, k', c') ∧
    r.slot = 0 ∧ c'.holder 0 = some i ∧ i.birth = 0 ∧ i.result = 2 ∧ r.context.rax = i.result := by
  have hall : (replay (recordedStep machine)
      [.syscall (callTrap 0x10000204000 0x44444444C000 57 0),
        .syscall (callTrap 0x44444444C000 0 24 0)] (started, .start started)).map (fun x =>
      (x.1.map fun y => y.2.map Resumed.slot,
        (x.2.2.holder 0).map fun i => (i.birth, i.result))) =
      some ([some 1, some 0], some (0, 2)) := by decide +kernel
  obtain ⟨o₁, ⟨k, c⟩, h₁, hall⟩ := replay_cons hall
  obtain ⟨o₂, ⟨k', c'⟩, h₂, hall⟩ := replay_cons hall
  simp only [replay, Option.map_some, List.map_cons, List.map_nil, Option.some.injEq,
    Prod.mk.injEq, List.cons.injEq, and_true, Option.map_eq_some_iff] at hall
  obtain ⟨⟨-, r, rfl, hr⟩, j, hj, hbirth, hresult⟩ := hall
  have hrec : Recorded machine k c := started_recorded.step h₁
  obtain ⟨⟨i, hi, hrax, -⟩, -⟩ := results_reach_their_caller machine k k' c c' _ r hrec h₂
  rw [hr, hj, Option.some.injEq] at hi
  exact ⟨k, k', c, c', r, j, hrec, h₂, hr, hj, hbirth, hresult, hi ▸ hrax⟩

end Rockos.Instances
