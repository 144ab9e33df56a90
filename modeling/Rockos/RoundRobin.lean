import Rockos.Turns

/-!
# Round-robin order

A process that loses the processor goes to the back of the queue, so every
other live process stands before it. That order is kept until the other process
reaches the front: the processes that leave the front go to the back or off the
queue, new ones are added behind, and nobody is taken from the middle.
-/
namespace Rockos.RoundRobin
open PhysMemory KernelState ProcessCalls Syscall SyscallEffects RunQueue Turns Runs

/-- `b` stands before `a`. -/
def Precedes (b a : ℕ) (queue : List ℕ) : Prop := [b, a].Sublist queue

section
variable {a b x : ℕ} {queue rest : List ℕ}

/-- The front of the queue is neither of the two unless it is `b`. -/
theorem Precedes.front_ne (h : Precedes b a (x :: rest)) (hnodup : (x :: rest).Nodup)
    (hb : x ≠ b) : x ≠ a ∧ Precedes b a rest := by
  have hrest : [b, a].Sublist rest := (List.sublist_cons_iff.mp h).resolve_right fun ⟨r, hr, _⟩ =>
    hb (List.cons.inj hr).1.symm
  refine ⟨?_, hrest⟩
  rintro rfl
  exact (List.nodup_cons.mp hnodup).1 (hrest.subset (by simp))

theorem Precedes.append (h : Precedes b a queue) (added : List ℕ) :
    Precedes b a (queue ++ added) :=
  h.trans (List.sublist_append_left queue added)

theorem Precedes.filter (h : Precedes b a queue) (hb : b ≠ x) (ha : a ≠ x) :
    Precedes b a (queue.filter (· ≠ x)) := by
  have hkept := List.Sublist.filter (· ≠ x) h
  simpa [Precedes, hb, ha] using hkept

theorem precedes_of_mem (h : b ∈ rest) : Precedes b a (rest ++ [a]) :=
  (List.singleton_sublist.mpr h).append (List.Sublist.refl [a])

end

section
variable {cfg : Config} {t : Trap} {k k₁ k' : Kernel} {v : UInt64} {a b : ℕ}

/-- The dispatcher only ever adds to the back of the queue. -/
theorem Outcome.runnable (h : Outcome cfg t k v k₁) :
    ∃ added, k₁.sched.runnable = k.sched.runnable ++ added := by
  cases h with
  | quiet h => exact ⟨[], by rw [h.runnable, List.append_nil]; rfl⟩
  | reaped slot p _ h => exact ⟨[], by rw [h.runnable, List.append_nil]; rfl⟩
  | forked slot child _ _ h =>
      rw [h.runnable]
      split_ifs
      · exact ⟨[], by rw [List.append_nil]; rfl⟩
      · exact ⟨[slot], rfl⟩

theorem reschedule_runnable (k : Kernel) :
    (reschedule k).sched.runnable = k.sched.runnable ∨
      ∃ front rest, k.sched.runnable = front :: rest ∧
        (reschedule k).sched.runnable = rest ++ [front] := by
  unfold reschedule
  split_ifs with hneed
  · simp only [rotateRunnable]
    cases hq : k.sched.runnable with
    | nil => exact .inl rfl
    | cons front rest => exact .inr ⟨front, rest, rfl, rfl⟩
  · exact .inl rfl

theorem Ready.cons (h : Ready k) : ∃ rest, k.sched.runnable = k.currentSlot :: rest := by
  have hfront := h.front
  cases hq : k.sched.runnable with
  | nil => simp [hq] at hfront
  | cons c rest =>
      rw [hq, List.head?_cons, Option.some.injEq] at hfront
      exact ⟨rest, by rw [hfront]⟩

/-- Only the caller can change places, and `b` is not the caller. -/
theorem turn_precedes (h : Ready k) (hturn : Turn cfg t k k') (hcur : k.currentSlot ≠ b)
    (hab : Precedes b a k.sched.runnable) : Precedes b a k'.sched.runnable := by
  obtain ⟨rest, hq⟩ := Ready.cons h
  rw [hq] at hab
  obtain ⟨ha, hrest⟩ := hab.front_ne (hq ▸ h.queue.nodup) hcur
  cases hturn with
  | returned v k₁ _ _ hout _ hrun =>
      obtain ⟨added, hadded⟩ := Outcome.runnable hout
      rw [hq] at hadded
      rw [hrun]
      rcases reschedule_runnable k₁ with hsame | ⟨front, rest', hk₁, hrot⟩
      · rw [hsame, hadded]
        exact hab.append added
      · rw [hadded, List.cons_append, List.cons.injEq] at hk₁
        rw [hrot, ← hk₁.2]
        exact (hrest.append added).append _
  | exited _ _ hrun =>
      rw [hrun, hq]
      exact hab.filter (Ne.symm hcur) (Ne.symm ha)

/-- A live process that loses the processor is behind all others. -/
theorem turn_loses (h : Ready k) (hturn : Turn cfg t k k') (h' : Ready k')
    (hlose : k'.currentSlot ≠ k.currentSlot) (halive : Alive k' k.currentSlot)
    (hb : Alive k' b) (hne : k.currentSlot ≠ b) :
    Precedes b k.currentSlot k'.sched.runnable := by
  obtain ⟨rest, hq⟩ := Ready.cons h
  cases hturn with
  | returned v k₁ _ _ hout _ hrun =>
      obtain ⟨added, hadded⟩ := Outcome.runnable hout
      rw [hq, List.cons_append] at hadded
      rcases reschedule_runnable k₁ with hsame | ⟨front, rest', hk₁, hrot⟩
      · -- without a rotation the caller stays at the front
        have hfront := h'.front
        rw [hrun, hsame, hadded, List.head?_cons, Option.some.injEq] at hfront
        exact absurd hfront.symm hlose
      · rw [hadded, List.cons.injEq] at hk₁
        obtain ⟨rfl, rfl⟩ := hk₁
        have hmem := (h'.queue.mem_iff b).mpr hb
        rw [hrun, hrot] at hmem ⊢
        rcases List.mem_append.mp hmem with hmem | hmem
        · exact precedes_of_mem hmem
        · exact absurd (List.mem_singleton.mp hmem).symm hne
  | exited _ hproc _ =>
      obtain ⟨p, hp, hcode⟩ := halive
      obtain ⟨q, hq', -⟩ := h.alive
      rw [hproc, if_pos rfl, hq', Option.map_some, Option.some.injEq] at hp
      rw [← hp] at hcode
      cases hcode

end

/-- The slots that were resumed, in order. -/
def dispatched (tr : List (Event × Option Resumed)) : List ℕ :=
  (tr.filterMap Prod.snd).map Resumed.slot

/-- The order lasts until `b` is dispatched. -/
theorem run_precedes {cfg : Config} {k k' : Kernel} {tr : List (Event × Option Resumed)} {a b : ℕ}
    (hrun : Run (step cfg) k tr k') (h : Ready k) (hcur : k.currentSlot ≠ b)
    (hab : Precedes b a k.sched.runnable) :
    b ∈ dispatched tr ∨ (Ready k' ∧ k'.currentSlot ≠ b ∧ Precedes b a k'.sched.runnable) := by
  induction hrun with
  | done _ => exact .inr ⟨h, hcur, hab⟩
  | @step k k₁ _ e o tr hstep _ ih =>
      cases e with
      | irq i =>
          obtain ⟨rfl, rfl⟩ := step_irq_ok hstep
          have hquiet := quiet_takeIrq i k
          exact ih (h.of_quiet hquiet) (by rwa [hquiet.slot]) (by rwa [hquiet.runnable])
      | syscall t =>
          obtain ⟨r, rfl, hsys⟩ := step_syscall_ok hstep
          have hsw := syscall_switched h hsys
          by_cases hr : r.slot = b
          · exact .inl (by simp [dispatched, hr])
          · have hnext : k₁.currentSlot ≠ b := by rwa [hsw.resumes.current]
            rcases ih hsw.ready hnext (turn_precedes h (syscall_turn h hsys) hcur hab) with hd | hd
            · exact .inl (by
                simp only [dispatched, List.filterMap_cons, List.map_cons] at hd ⊢
                exact List.mem_cons_of_mem _ hd)
            · exact .inr hd

/-- Between the moment `a` loses the processor and the next time it is
dispatched, every process that is alive at that moment is dispatched. -/
theorem no_overtaking (cfg : Config) (k k₁ k₂ k₃ : Kernel) (e₁ e₂ : Event) (r₁ r₂ : Resumed)
    (tr : List (Event × Option Resumed)) (a b : ℕ) (hk : Reachable cfg k)
    (ha : k.currentSlot = a) (hstep : step cfg e₁ k = some (some r₁, k₁)) (hlose : r₁.slot ≠ a)
    (halive : Alive k₁ a) (hab : a ≠ b) (hb : Alive k₁ b) (hrun : Run (step cfg) k₁ tr k₂)
    (hagain : step cfg e₂ k₂ = some (some r₂, k₃)) (hr₂ : r₂.slot = a) :
    b ∈ dispatched ((e₁, some r₁) :: tr) := by
  have hready := Reachable.ready hk
  have hsys : ∀ {e : Event} {s u : Kernel} {r : Resumed}, Ready s →
      step cfg e s = some (some r, u) → ∃ t, Turn cfg t s u ∧ Switched cfg t r s u := by
    intro e s u r hs hst
    cases e with
    | irq i => simp [step] at hst
    | syscall t =>
        obtain ⟨r', hr', hok⟩ := step_syscall_ok hst
        cases hr'
        exact ⟨t, syscall_turn hs hok, syscall_switched hs hok⟩
  obtain ⟨t₁, hturn₁, hsw₁⟩ := hsys hready hstep
  subst ha
  by_cases hr₁ : r₁.slot = b
  · simp [dispatched, hr₁]
  have hprec := turn_loses hready hturn₁ hsw₁.ready (by rwa [hsw₁.resumes.current]) halive hb hab
  rcases run_precedes hrun hsw₁.ready (by rwa [hsw₁.resumes.current]) hprec with
    hd | ⟨hk₂, hcur, hp⟩
  · simp only [dispatched, List.filterMap_cons, List.map_cons] at hd ⊢
    exact List.mem_cons_of_mem _ hd
  · -- `a` cannot be at the front while `b` stands before it
    obtain ⟨t₂, hturn₂, hsw₂⟩ := hsys hk₂ hagain
    have hp₃ := turn_precedes hk₂ hturn₂ hcur hp
    obtain ⟨rest, hq⟩ := Ready.cons hsw₂.ready
    rw [hq, hsw₂.resumes.current, hr₂] at hp₃
    have hnodup := hsw₂.ready.queue.nodup
    rw [hq, hsw₂.resumes.current, hr₂] at hnodup
    exact absurd rfl (hp₃.front_ne hnodup hab).1

/-- The first process forks, its child forks, the first two processes yield:
the grandchild is dispatched before the child is again. -/
def threeProcesses : List Event :=
  [.syscall (callTrap 0x10000204000 0x44444444C000 57 0),
    .syscall (callTrap 0x44444444C000 0x444444450000 57 0),
    .syscall (callTrap 0x444444448000 0 24 0), .syscall (callTrap 0x444444450000 0 24 0)]

theorem no_overtaking_grandchild : ∃ k₁ k₂ k₃ k₄ r₁ r₂ r₃ r₄,
    step machine threeProcesses[0] started = some (some r₁, k₁) ∧
    step machine threeProcesses[1] k₁ = some (some r₂, k₂) ∧
    step machine threeProcesses[2] k₂ = some (some r₃, k₃) ∧
    step machine threeProcesses[3] k₃ = some (some r₄, k₄) ∧
    k₁.currentSlot = 1 ∧ r₂.slot ≠ 1 ∧ r₄.slot = 1 ∧
    2 ∈ dispatched [(threeProcesses[1], some r₂), (threeProcesses[2], some r₃)] := by
  have hall : ((step machine threeProcesses[0] started).bind fun x₁ =>
      (step machine threeProcesses[1] x₁.2).bind fun x₂ =>
      (step machine threeProcesses[2] x₂.2).bind fun x₃ =>
      (step machine threeProcesses[3] x₃.2).bind fun x₄ =>
      some ([x₁.1, x₂.1, x₃.1, x₄.1].map (Option.map Resumed.slot), x₂.2.sched.runnable)) =
        some ([some 1, some 0, some 2, some 1], [0, 2, 1]) := by decide +kernel
  simp only [Option.bind_eq_some_iff, Option.some.injEq, Prod.mk.injEq, List.map_cons,
    List.map_nil, List.cons.injEq, Option.map_eq_some_iff, and_true] at hall
  obtain ⟨⟨_, k₁⟩, h₁, ⟨_, k₂⟩, h₂, ⟨_, k₃⟩, h₃, ⟨_, k₄⟩, h₄, ⟨⟨r₁, rfl, hr₁⟩, ⟨r₂, rfl, hr₂⟩,
    ⟨r₃, rfl, hr₃⟩, ⟨r₄, rfl, hr₄⟩⟩, hqueue⟩ := hall
  have hk₁ : Reachable machine k₁ := started_reachable.step h₁
  have hlive : ∀ s ∈ [0, 2, 1], Alive k₂ s := fun s hs =>
    ((Reachable.ready (hk₁.step h₂)).queue.mem_iff s).mp (hqueue ▸ hs)
  obtain ⟨r, hr, hsw⟩ := step_syscall (Reachable.ready started_reachable) h₁
  cases hr
  have hcur : k₁.currentSlot = 1 := hsw.resumes.current.trans hr₁
  refine ⟨k₁, k₂, k₃, k₄, r₁, r₂, r₃, r₄, h₁, h₂, h₃, h₄, hcur, by simp [hr₂], hr₄, ?_⟩
  exact no_overtaking machine k₁ k₂ k₃ k₄ _ _ r₂ r₄ _ 1 2 hk₁ hcur h₂ (by simp [hr₂])
    (hlive 1 (by simp)) (by decide) (hlive 2 (by simp)) (.single h₃) h₄ hr₄

end Rockos.RoundRobin
