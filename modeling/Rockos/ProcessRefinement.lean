import Rockos.FairTurns
import Rockos.ProcessMachine

/-!
# The kernel is a process machine

`view` forgets everything but the pids: the table becomes a map from pids to
parents and exit codes, and the run queue a list of pids. Under it every system
call is one step of the process machine, whose action is determined by the call
and its result, and an interrupt is no step at all.
-/
namespace Rockos.ProcessRefinement
open FallibleState SyscallFrame KernelState ProcessCalls
open Syscall SyscallEffects RunQueue ProcessTable Turns RoundRobin CallFootprints FairTurns Runs
open ProcessMachine (ProcessEntry Processes ProcessAction Step Path NextPid MayPass)

def entryOf (p : Process) : ProcessEntry := ⟨p.parent, p.exitCode⟩

def pidAt (k : Kernel) (slot : ℕ) : ℕ := ((k.proc slot).map Process.pid).getD 0

def view (k : Kernel) : Processes where
  entry pid := ((k.procs.filterMap id).find? fun p => p.pid = pid).map entryOf
  turns := k.sched.runnable.map (pidAt k)

section
variable {cfg : Config} {t : Trap} {k k₁ k' : Kernel} {r : Resumed} {v : UInt64} {pid : ℕ}

/-! ## Looking up a pid -/

theorem entry_eq_none : (view k).entry pid = none ↔ Unused pid k.procs := by
  simp only [view, Option.map_eq_none_iff, List.find?_eq_none, List.mem_filterMap, id,
    exists_eq_right, decide_eq_true_eq, Unused, ne_eq]

theorem entry_eq_some (h : TableSound k) {e : ProcessEntry} :
    (view k).entry pid = some e ↔ ∃ s p, k.proc s = some p ∧ p.pid = pid ∧ entryOf p = e := by
  simp only [view, Option.map_eq_some_iff]
  constructor
  · intro hfind
    obtain ⟨p, hp, he⟩ := hfind
    have hmem : some p ∈ k.procs := by simpa using List.mem_of_find?_eq_some hp
    obtain ⟨s, hs⟩ := some_mem_iff.mp hmem
    exact ⟨s, p, hs, by simpa using List.find?_some hp, he⟩
  · intro hheld
    obtain ⟨s, p, hs, hpid, he⟩ := hheld
    have hmem : p ∈ k.procs.filterMap id := by simpa using some_mem_iff.mpr ⟨s, hs⟩
    cases hfind : (k.procs.filterMap id).find? fun p => p.pid = pid with
    | none =>
        have hne := List.find?_eq_none.mp hfind p hmem
        simp [hpid] at hne
    | some q =>
        have hq : some q ∈ k.procs := by simpa using List.mem_of_find?_eq_some hfind
        have hqpid : q.pid = pid := by simpa using List.find?_some hfind
        obtain ⟨s', hs'⟩ := some_mem_iff.mp hq
        have hsame := h.distinct s s' p q hs hs' (hpid.trans hqpid.symm)
        rw [← hsame, hs, Option.some.injEq] at hs'
        exact ⟨q, rfl, hs' ▸ he⟩

/-- What the view sees of a table entry. -/
def brief (p : Process) : ℕ × ProcessEntry := (p.pid, entryOf p)

theorem brief_of_identity {p q : Process} (h : identity p = identity q) : brief p = brief q := by
  simp only [identity, Identity.mk.injEq] at h
  simp only [brief, entryOf, h]

/-- An entry is found under its pid if its slot shows it. -/
theorem entry_of_brief (h : TableSound k) {s : ℕ} {x : ℕ × ProcessEntry}
    (hs : (k.proc s).map brief = some x) : (view k).entry x.1 = some x.2 := by
  obtain ⟨p, hp, rfl⟩ := Option.map_eq_some_iff.mp hs
  exact (entry_eq_some h).mpr ⟨s, p, hp, rfl, rfl⟩

theorem brief_of_entry (h : TableSound k) {e : ProcessEntry} (he : (view k).entry pid = some e) :
    ∃ s, (k.proc s).map brief = some (pid, e) := by
  obtain ⟨s, p, hp, hpid, hentry⟩ := (entry_eq_some h).mp he
  exact ⟨s, by rw [hp, Option.map_some, brief, hpid, hentry]⟩

theorem brief_injective (h : TableSound k) {s s' : ℕ} {x y : ℕ × ProcessEntry}
    (hs : (k.proc s).map brief = some x) (hs' : (k.proc s').map brief = some y)
    (hpid : x.1 = y.1) : s = s' := by
  obtain ⟨p, hp, rfl⟩ := Option.map_eq_some_iff.mp hs
  obtain ⟨p', hp', rfl⟩ := Option.map_eq_some_iff.mp hs'
  exact h.distinct s s' p p' hp hp' hpid

/-- One slot is edited, and whatever it holds before and after has the pid. -/
theorem entry_edit (h : TableSound k) (h' : TableSound k') {slot : ℕ} {o : Option ProcessEntry}
    (hold : ∀ x, (k.proc slot).map brief = some x → x.1 = pid)
    (hclear : o = none → (k.proc slot).map brief ≠ none)
    (hproc : ∀ s, (k'.proc s).map brief =
      if s = slot then o.map (Prod.mk pid) else (k.proc s).map brief) :
    (view k').entry = Function.update (view k).entry pid o := by
  have hfrom : ∀ {q e}, (view k').entry q = some e →
      (q = pid ∧ o = some e) ∨ (view k).entry q = some e := by
    intro q e he
    obtain ⟨s, hs⟩ := brief_of_entry h' he
    rw [hproc] at hs
    split_ifs at hs with hslot
    · obtain ⟨e', ho, heq⟩ := Option.map_eq_some_iff.mp hs
      cases heq
      exact .inl ⟨rfl, ho⟩
    · exact .inr (entry_of_brief h hs)
  have hkept : ∀ {s x}, s ≠ slot → (k.proc s).map brief = some x →
      (view k').entry x.1 = some x.2 := by
    intro s x hs hx
    have hx' := hproc s
    rw [if_neg hs, hx] at hx'
    exact entry_of_brief h' hx'
  funext q
  by_cases hq : q = pid
  · subst hq
    rw [Function.update_self]
    cases o with
    | some e =>
        have hslot := hproc slot
        rw [if_pos rfl] at hslot
        exact entry_of_brief h' hslot
    | none =>
        cases hnone : (view k').entry q with
        | none => rfl
        | some e =>
            exfalso
            obtain ⟨s, hs⟩ := brief_of_entry h' hnone
            rw [hproc] at hs
            split_ifs at hs with hslot
            · cases hs
            · -- the pid stood in the slot that was emptied, so it stands in no other
              obtain ⟨x, hx⟩ := Option.ne_none_iff_exists'.mp (hclear rfl)
              exact hslot (brief_injective h hs hx (hold x hx).symm)
  · rw [Function.update_of_ne hq]
    cases he' : (view k').entry q with
    | some e => exact ((hfrom he').resolve_left fun hpid => hq hpid.1).symm
    | none =>
        cases he : (view k).entry q with
        | none => rfl
        | some e =>
            obtain ⟨s, hs⟩ := brief_of_entry h he
            have hne : s ≠ slot := fun heq => hq (hold _ (heq ▸ hs))
            rw [hkept hne hs] at he'
            cases he'

theorem entry_congr (h : TableSound k) (h' : TableSound k')
    (hproc : ∀ s, (k'.proc s).map brief = (k.proc s).map brief) :
    (view k').entry = (view k).entry := by
  funext q
  cases he : (view k).entry q with
  | some e =>
      obtain ⟨s, hs⟩ := brief_of_entry h he
      exact entry_of_brief h' ((hproc s).trans hs)
  | none =>
      cases he' : (view k').entry q with
      | none => rfl
      | some e =>
          obtain ⟨s, hs⟩ := brief_of_entry h' he'
          rw [entry_of_brief h ((hproc s).symm.trans hs)] at he
          cases he

theorem pidAt_eq (k : Kernel) (s : ℕ) :
    pidAt k s = (((k.proc s).map brief).map Prod.fst).getD 0 := by
  rw [pidAt, Option.map_map]
  rfl

/-- A queue whose slots show the same entries. -/
theorem map_pidAt {q : List ℕ} (h : ∀ s ∈ q, (k'.proc s).map brief = (k.proc s).map brief) :
    q.map (pidAt k') = q.map (pidAt k) := by
  refine List.map_congr_left fun s hs => ?_
  rw [pidAt_eq, pidAt_eq, h s hs]

theorem pidAt_current (h : Ready k) : pidAt k k.currentSlot = currentPid k := by
  obtain ⟨p, hp, -⟩ := h.alive
  rw [currentPid_of_caller hp, pidAt, hp]
  rfl

/-! ## The tail -/

theorem reschedule_asked {front : ℕ} {rest : List ℕ} (hneed : k.needResched = true)
    (hq : k.sched.runnable = front :: rest) :
    (reschedule k).sched.runnable = rest ++ [front] := by
  simp only [reschedule, hneed, if_true, rotateRunnable, hq]

theorem spawn_asks {pid parentPid : ℕ} {parent : Process} {save : SyscallSaved} {top : UInt64}
    (h : spawn pid parentPid parent save top k = .ok v k') : k'.needResched = true := by
  simp only [spawn, bind_run, get_run] at h
  cases ha : allocSlot k.procs with
  | none => simp [ha] at h
  | some r =>
      simp only [ha, bind_run, modify_run, pure_run, EStateM.Result.ok.injEq] at h
      rw [← h.2]
      rfl

/-- A `fork` that adds a process asks for a rotation. -/
theorem sysFork_asks {w : Paging.Walker} {mem : UInt64 → UInt64} {rsp top : UInt64}
    (h : sysFork w mem rsp top k = .ok v k') : v = errno 12 ∨ k'.needResched = true := by
  simp only [sysFork, bind_run, get_run] at h
  cases hp : allocPid k.procs with
  | none =>
      simp only [hp, pure_run, EStateM.Result.ok.injEq] at h
      exact .inl h.1.symm
  | some pid =>
      simp only [hp, bind_run] at h
      rcases onMem_attempt_cases (mapChildStackAndCopy w (saveFromDispatchRsp mem rsp)) k with
        ⟨_, m, -, ho⟩ | ⟨reason, m, -, ho⟩ | ⟨e, m, -, ho⟩
      · simp only [ho] at h
        cases hc : k.current with
        | none => simp [hc] at h
        | some parent =>
            simp only [hc] at h
            exact .inr (spawn_asks h)
      · simp only [ho, pure_run, EStateM.Result.ok.injEq] at h
        exact .inl h.1.symm
      · simp [ho] at h

theorem fork_asks (hcall : dispatch cfg t k = .ok (.returned v) k₁)
    (hfork : sysno (t.reg .rax) = some .fork) {child : ℕ} (hv : v = UInt64.ofNat child)
    (hchild : child < 1024) : k₁.needResched = true := by
  rw [dispatch_eq, syscallDispatch, hfork] at hcall
  obtain ⟨v', hd, hrun⟩ := returning_ok hcall
  cases hd
  rcases sysFork_asks hrun with herr | hneed
  · exfalso
    rw [hv] at herr
    have hnat := congrArg UInt64.toNat herr
    rw [UInt64.toNat_ofNat', Nat.mod_eq_of_lt (by omega)] at hnat
    have herrno : (errno 12).toNat = 2 ^ 64 - 12 := by decide
    omega
  · exact hneed

theorem yield_asks (hcall : dispatch cfg t k = .ok (.returned v) k₁)
    (hyield : sysno (t.reg .rax) = some .schedYield) : k₁.needResched = true := by
  rw [dispatch_eq, syscallDispatch, hyield] at hcall
  obtain ⟨v', -, hrun⟩ := returning_ok hcall
  simp only [sysSchedYield, bind_run, modify_run, pure_run, EStateM.Result.ok.injEq] at hrun
  rw [← hrun.2]
  rfl

/-! ## One call -/

/-- The call that an action is. A call that fails is none of the four. -/
def Performed (t : Trap) : ProcessAction → Prop
  | .fork _ => sysno (t.reg .rax) = some .fork
  | .reap _ _ => sysno (t.reg .rax) = some .wait4
  | .exit status => sysno (t.reg .rax) = some .exit ∧ status = exitStatus t
  | .yield => sysno (t.reg .rax) = some .schedYield
  | .other => sysno (t.reg .rax) ≠ some .exit ∧ sysno (t.reg .rax) ≠ some .schedYield

theorem turns_eq (h : Ready k) {rest : List ℕ} (hq : k.sched.runnable = k.currentSlot :: rest) :
    (view k).turns = currentPid k :: rest.map (pidAt k) := by
  rw [view, hq, List.map_cons, pidAt_current h]

/-- The tail changes nothing that the view shows of the table. -/
theorem tail_brief {slot : ℕ} {save : SyscallSaved}
    (hproc : ∀ s, k'.proc s = if s = slot
      then (k₁.proc s).map fun p => { p with save := save, pendingRax := v } else k₁.proc s)
    (s : ℕ) : (k'.proc s).map brief = (k₁.proc s).map brief := by
  rw [hproc s]
  split_ifs with hs
  · rw [Option.map_map]
    rfl
  · rfl

theorem quiet_brief (h : Quiet k k') (s : ℕ) : (k'.proc s).map brief = (k.proc s).map brief := by
  by_cases hs : s = k.currentSlot
  · have hown := h.own
    rw [Kernel.current, Kernel.current, h.slot, ← hs] at hown
    cases hp : k.proc s with
    | none =>
        rw [hp, Option.map_none, Option.map_eq_none_iff] at hown
        rw [hown]
    | some p =>
        rw [hp, Option.map_some] at hown
        obtain ⟨p', hp', hid⟩ := Option.map_eq_some_iff.mp hown
        rw [hp', Option.map_some, Option.map_some, brief_of_identity hid]
  · rw [h.other s hs]

/-- After a call that adds nobody to the queue, the caller keeps its turn or
goes to the end. -/
theorem mayPass (hrun : k'.sched.runnable = (reschedule k₁).sched.runnable)
    (hsame : k₁.sched.runnable = k.sched.runnable)
    (hbrief : ∀ s ∈ k.sched.runnable, (k'.proc s).map brief = (k.proc s).map brief) :
    MayPass (view k).turns (view k').turns := by
  have hturns : (view k').turns = k'.sched.runnable.map (pidAt k) := by
    refine map_pidAt fun s hs => hbrief s ?_
    rw [hrun] at hs
    exact hsame ▸ (reschedule_perm k₁).mem_iff.mp hs
  rw [hturns, hrun]
  rcases reschedule_runnable k₁ with hkeep | ⟨front, rest, hk₁, hrot⟩
  · exact .inl (by rw [hkeep, hsame, view])
  · refine .inr ⟨pidAt k front, rest.map (pidAt k), ?_, ?_⟩
    · rw [view, ← hsame, hk₁, List.map_cons]
    · rw [hrot, List.map_append, List.map_singleton]

theorem quiet_refines (h : Ready k) (hs : TableSound k) (hs' : TableSound k')
    (hcall : dispatch cfg t k = .ok (.returned v) k₁) (noExit : sysno (t.reg .rax) ≠ some .exit)
    (hq : Quiet (trapState t k) k₁) (htail : ∀ s, (k'.proc s).map brief = (k₁.proc s).map brief)
    (hrun : k'.sched.runnable = (reschedule k₁).sched.runnable) :
    ∃ a, Performed t a ∧ Step (view k) (currentPid k) a (view k') := by
  have hbrief : ∀ s, (k'.proc s).map brief = (k.proc s).map brief := fun s =>
    (htail s).trans (quiet_brief hq s)
  have hentry := entry_congr hs hs' hbrief
  obtain ⟨rest, hqueue⟩ := Ready.cons h
  have hme := turns_eq h hqueue
  by_cases hyield : sysno (t.reg .rax) = some .schedYield
  · have hq₁ : k₁.sched.runnable = k.currentSlot :: rest := hq.runnable.trans hqueue
    have hview : view k' = ⟨(view k).entry, rest.map (pidAt k) ++ [currentPid k]⟩ := by
      refine Processes.ext hentry ?_
      rw [view, map_pidAt fun s _ => hbrief s, hrun, reschedule_asked (yield_asks hcall hyield) hq₁,
        List.map_append, List.map_singleton, pidAt_current h]
    rw [hview]
    exact ⟨.yield, hyield, .yield _ _ hme⟩
  · have hpass := mayPass hrun hq.runnable fun s _ => hbrief s
    have hview : view k' = ⟨(view k).entry, (view k').turns⟩ := Processes.ext hentry rfl
    rw [hview]
    exact ⟨.other, ⟨noExit, hyield⟩, .other _ _ _ hme hpass⟩

theorem fork_refines (h : Ready k) (hs : TableSound k) (hs' : TableSound k')
    (hcall : dispatch cfg t k = .ok (.returned v) k₁) {slot : ℕ} {child : Process}
    (hnew : Spawned cfg t k child) (hv : v = UInt64.ofNat child.pid)
    (hf : Forked slot child (trapState t k) k₁)
    (htail : ∀ s, (k'.proc s).map brief = (k₁.proc s).map brief)
    (hrun : k'.sched.runnable = (reschedule k₁).sched.runnable) :
    Step (view k) (currentPid k) (.fork child.pid) (view k') := by
  obtain ⟨hunused, ⟨htwo, hlt⟩, hleast⟩ := allocPid_eq_some_iff.mp hnew.pid
  have hfree : k.proc slot = none := hf.free
  have hchild : entryOf child = ⟨some (currentPid k), none⟩ := by
    rw [entryOf, hnew.parent, hnew.alive]
  have hbrief : ∀ s, (k'.proc s).map brief = if s = slot
      then (some (entryOf child)).map (Prod.mk child.pid) else (k.proc s).map brief := by
    intro s
    rw [htail s, hf.proc s]
    split_ifs <;> rfl
  have hentry := entry_edit hs hs' (by simp [hfree]) (by simp) hbrief
  have hfresh : NextPid (view k) child.pid := by
    refine ⟨entry_eq_none.mpr hunused, htwo, fun q hq hlt hnone => ?_⟩
    exact hleast q hq hlt (entry_eq_none.mp hnone)
  obtain ⟨rest, hqueue⟩ := Ready.cons h
  have hnot : slot ∉ k.sched.runnable := by
    intro hmem
    obtain ⟨p, hp, -⟩ := (h.queue.mem_iff slot).mp hmem
    rw [hfree] at hp
    cases hp
  have hq₁ : k₁.sched.runnable = k.currentSlot :: (rest ++ [slot]) := by
    rw [hf.runnable, if_neg (show slot ∉ (trapState t k).sched.runnable from hnot)]
    exact congrArg (· ++ [slot]) hqueue
  have hold : ∀ s ∈ k.sched.runnable, (k'.proc s).map brief = (k.proc s).map brief := by
    intro s hmem
    have hne : s ≠ slot := by
      rintro rfl
      exact hnot hmem
    rw [hbrief s, if_neg hne]
  rw [hqueue] at hold
  have hslot : pidAt k' slot = child.pid := by
    rw [pidAt_eq, hbrief slot, if_pos rfl]
    rfl
  have hcur : pidAt k' k.currentSlot = currentPid k := by
    rw [← pidAt_current h, pidAt_eq, pidAt_eq, hold _ List.mem_cons_self]
  have hview : view k' =
      ⟨Function.update (view k).entry child.pid (some ⟨some (currentPid k), none⟩),
        rest.map (pidAt k) ++ [child.pid] ++ [currentPid k]⟩ := by
    refine Processes.ext (by rw [hentry, hchild]) ?_
    rw [view, hrun, reschedule_asked (fork_asks hcall hnew.call hv hlt) hq₁]
    simp only [List.map_append, List.map_singleton, hslot, hcur]
    rw [map_pidAt fun s hmem => hold s (List.mem_cons_of_mem _ hmem)]
  rw [hview]
  exact .fork _ _ _ (turns_eq h hqueue) hfresh

theorem reap_refines (h : Ready k) (hs : TableSound k) (hs' : TableSound k') {slot : ℕ}
    {z : Process} (hr : Reaped slot z (trapState t k) k₁)
    (htail : ∀ s, (k'.proc s).map brief = (k₁.proc s).map brief)
    (hrun : k'.sched.runnable = (reschedule k₁).sched.runnable) :
    ∃ status, Step (view k) (currentPid k) (.reap z.pid status) (view k') := by
  have hz : k.proc slot = some z := hr.zombie.1
  obtain ⟨status, hstatus⟩ := Option.ne_none_iff_exists'.mp hr.zombie.2
  have hbrief : ∀ s, (k'.proc s).map brief = if s = slot
      then (none : Option ProcessEntry).map (Prod.mk z.pid) else (k.proc s).map brief := by
    intro s
    rw [htail s, hr.proc s]
    split_ifs <;> rfl
  have hold : ∀ x, (k.proc slot).map brief = some x → x.1 = z.pid := by
    intro x hx
    rw [hz, Option.map_some, Option.some.injEq] at hx
    rw [← hx, brief]
  have hentry := entry_edit hs hs' hold (by simp [hz]) hbrief
  have hzombie : (view k).entry z.pid = some ⟨some (currentPid k), some status⟩ := by
    refine (entry_eq_some hs).mpr ⟨slot, z, hz, rfl, ?_⟩
    rw [entryOf, hstatus, hr.child]
    rfl
  have hpass : MayPass (view k).turns (view k').turns := by
    refine mayPass hrun hr.runnable fun s hmem => ?_
    rw [hbrief s, if_neg]
    rintro rfl
    obtain ⟨p, hp, halive⟩ := (h.queue.mem_iff s).mp hmem
    rw [hz, Option.some.injEq] at hp
    exact hr.zombie.2 (hp ▸ halive)
  obtain ⟨rest, hqueue⟩ := Ready.cons h
  have hview : view k' = ⟨Function.update (view k).entry z.pid none, (view k').turns⟩ :=
    Processes.ext hentry rfl
  rw [hview]
  exact ⟨status, .reap _ _ _ _ _ (turns_eq h hqueue) hzombie hpass⟩

theorem exit_refines (h : Ready k) (hs : TableSound k) (hs' : TableSound k')
    (hproc : ∀ s, k'.proc s = if s = k.currentSlot
      then (k.proc s).map fun p => { p with exitCode := some (exitStatus t) } else k.proc s)
    (hrun : k'.sched.runnable = k.sched.runnable.filter (· ≠ k.currentSlot)) :
    Step (view k) (currentPid k) (.exit (exitStatus t)) (view k') := by
  obtain ⟨p, hp, halive⟩ := h.alive
  have hpid : currentPid k = p.pid := currentPid_of_caller hp
  have hbrief : ∀ s, (k'.proc s).map brief = if s = k.currentSlot
      then (some (⟨p.parent, some (exitStatus t)⟩ : ProcessEntry)).map (Prod.mk (currentPid k))
      else (k.proc s).map brief := by
    intro s
    rw [hproc s]
    split_ifs with hcur
    · rw [hcur, hp, hpid]
      rfl
    · rfl
  have hold : ∀ x, (k.proc k.currentSlot).map brief = some x → x.1 = currentPid k := by
    intro x hx
    rw [hp, Option.map_some, Option.some.injEq] at hx
    rw [← hx, hpid, brief]
  have hentry := entry_edit hs hs' hold (by simp) hbrief
  have hme : (view k).entry (currentPid k) = some ⟨p.parent, none⟩ := by
    refine (entry_eq_some hs).mpr ⟨k.currentSlot, p, hp, hpid.symm, ?_⟩
    rw [entryOf, halive]
  obtain ⟨rest, hqueue⟩ := Ready.cons h
  have hnodup := h.queue.nodup
  rw [hqueue] at hnodup
  rw [hqueue, filter_front hnodup] at hrun
  have hview : view k' = ⟨Function.update (view k).entry (currentPid k)
      (some ⟨p.parent, some (exitStatus t)⟩), rest.map (pidAt k)⟩ := by
    refine Processes.ext hentry ?_
    rw [view, hrun]
    refine map_pidAt fun s hmem => ?_
    rw [hbrief s, if_neg]
    rintro rfl
    exact (List.nodup_cons.mp hnodup).1 hmem
  rw [hview]
  exact .exit _ _ _ _ (turns_eq h hqueue) hme

/-- A system call is one action of the caller. -/
theorem call_refines (h : Ready k) (hs : TableSound k) (hrun : syscall cfg t k = .ok r k') :
    ∃ a, Performed t a ∧ Step (view k) (currentPid k) a (view k') := by
  have hs' : TableSound k' := (syscall_sound cfg t).ok hrun hs
  cases syscall_turn h hrun with
  | exited call hproc hqueue =>
      exact ⟨.exit (exitStatus t), ⟨call, rfl⟩, exit_refines h hs hs' hproc hqueue⟩
  | returned v k₁ call noExit outcome hproc hqueue =>
      have htail := tail_brief hproc
      cases outcome with
      | quiet hq => exact quiet_refines h hs hs' call noExit hq htail hqueue
      | forked slot child new value hf =>
          exact ⟨.fork child.pid, new.call, fork_refines h hs hs' call new value hf htail hqueue⟩
      | reaped slot z hcall hr =>
          obtain ⟨status, hstep⟩ := reap_refines h hs hs' hr htail hqueue
          exact ⟨.reap z.pid status, hcall, hstep⟩

theorem view_takeIrq (i : Irq) (k : Kernel) : view (takeIrq i k) = view k := by
  obtain ⟨_, _, _, hsame⟩ := takeIrqs_eq [i] k
  have hone : takeIrq i k = takeIrqs [i] k := rfl
  rw [hone, hsame]
  rfl

/-! ## Runs -/

/-- The system calls of a run. -/
def traps : List (Event × Option Resumed) → List Trap
  | [] => []
  | (.irq _, _) :: tr => traps tr
  | (.syscall t, _) :: tr => t :: traps tr

theorem run_refines {tr : List (Event × Option Resumed)} (hrun : Run (step cfg) k tr k')
    (h : Ready k) (hs : TableSound k) : ∃ as, Path (view k) as (view k') ∧
      List.Forall₂ (fun t x => Performed t x.2) (traps tr) as := by
  induction hrun with
  | done k => exact ⟨[], .done _, .nil⟩
  | @step k k₁ _ e o tr hstep _ ih =>
      obtain ⟨as, hpath, has⟩ := ih (step_ready _ _ _ _ hstep h) (step_sound _ _ _ _ hstep hs)
      cases e with
      | irq i =>
          obtain ⟨-, rfl⟩ := step_irq_ok hstep
          rw [view_takeIrq] at hpath
          exact ⟨as, hpath, has⟩
      | syscall t =>
          obtain ⟨r, -, hcall⟩ := step_syscall_ok hstep
          obtain ⟨a, ha, hfirst⟩ := call_refines h hs hcall
          exact ⟨(currentPid k, a) :: as, .step hfirst hpath, .cons ha has⟩

theorem view_boot (staleTop boxedTop : UInt64) (k : Kernel) :
    view (boot staleTop boxedTop k) = .start := by
  refine Processes.ext (funext fun pid => ?_) rfl
  have hone : (boot staleTop boxedTop k).procs.filterMap id = [Process.new 1 none boxedTop
      (bootstrapUser (UInt64.ofNat k.mem.image.entryRip) (UInt64.ofNat Paging.userStackTop)
        0x202)] := rfl
  simp only [view, hone, List.find?_singleton, Processes.start, Function.update_apply]
  by_cases hpid : pid = 1
  · subst hpid
    rfl
  · simp [Process.new, hpid, Ne.symm hpid]

end

/-- Every run of the kernel is a path of the process machine, with one action
for each of its system calls. -/
theorem kernel_refines_processes (cfg : Config) (staleTop boxedTop : UInt64) (k₀ k : Kernel)
    (tr : List (Event × Option Resumed))
    (hrun : Run (step cfg) (boot staleTop boxedTop k₀) tr k) :
    ∃ as, Path .start as (view k) ∧ List.Forall₂ (fun t x => Performed t x.2) (traps tr) as := by
  obtain ⟨as, hpath, has⟩ := run_refines hrun (boot_ready _ _ _) (boot_sound _ _ _)
  rw [view_boot] at hpath
  exact ⟨as, hpath, has⟩

/-- A child that exits with 7 while its parent waits for its turn, and is then
waited for. -/
def forkExitWait : List Event :=
  [.syscall (callTrap 0x10000204000 0x44444444C000 57 0),
    .syscall (callTrap 0x44444444C000 0 60 7), .syscall (callTrap 0x444444448000 0 61 2)]

theorem kernel_refines_processes_wait : ∃ tr k as,
    replay (step machine) forkExitWait started = some (tr, k) ∧ tr.length = 3 ∧
    Path .start as (view k) ∧ List.Forall₂ (fun t x => Performed t x.2) (traps tr) as ∧
    (view k).turns = [1] ∧ (view k).entry 2 = none := by
  have hall : (replay (step machine) forkExitWait started).map
      (fun x => ((view x.2).turns, (view x.2).entry 2, x.1.length)) = some ([1], none, 3) := by
    decide +kernel
  obtain ⟨⟨tr, k⟩, hreplay, hfinal⟩ := Option.map_eq_some_iff.mp hall
  simp only [Prod.mk.injEq] at hfinal
  obtain ⟨as, hpath, has⟩ := kernel_refines_processes machine _ _ _ k tr (.of_replay hreplay)
  exact ⟨tr, k, as, hreplay, hfinal.2.2, hpath, has, hfinal.1, hfinal.2.1⟩

/-! ## The life of a process -/

/-- A step that is neither an exit of the process nor a wait by its parent
leaves its entry alone. -/
theorem step_entry_kept {cfg : Config} {ev : Event} {o : Option Resumed} {x y : Kernel} {pid : ℕ}
    {e : ProcessEntry} (hstep : step cfg ev x = some (o, y)) (h : Ready x) (hs : TableSound x)
    (hexit : ∀ t, ev = .syscall t → sysno (t.reg .rax) = some .exit → currentPid x ≠ pid)
    (hwait : ∀ t, ev = .syscall t → sysno (t.reg .rax) = some .wait4 → e.status ≠ none →
      e.parent ≠ some (currentPid x))
    (he : (view x).entry pid = some e) : (view y).entry pid = some e := by
  cases ev with
  | irq i =>
      obtain ⟨-, rfl⟩ := step_irq_ok hstep
      rwa [view_takeIrq]
  | syscall t =>
      obtain ⟨r, -, hcall⟩ := step_syscall_ok hstep
      obtain ⟨a, ha, hfirst⟩ := call_refines h hs hcall
      rcases hfirst.entry_kept he with hkept | ⟨hme, status, rfl⟩ | ⟨hparent, status, hst, rfl⟩
      · exact hkept
      · exact absurd hme (hexit t rfl ha.1)
      · exact absurd hparent (hwait t rfl ha (by simp [hst]))

/-- A process stays in the table with its pid, its parent and its state until it
exits itself or, once it has exited, a process with its parent's pid waits. -/
theorem leaves_by_exit_and_wait (cfg : Config) (k k' : Kernel) (tr : List (Event × Option Resumed))
    (slot : ℕ) (p : Process) (hreach : Reachable cfg k) (hrun : Run (step cfg) k tr k')
    (hp : k.proc slot = some p) :
    (∃ slot' p', k'.proc slot' = some p' ∧ p'.pid = p.pid ∧ p'.parent = p.parent ∧
      p'.exitCode = p.exitCode) ∨
    (∃ x t y, Takes (step cfg) k tr x (.syscall t) y ∧ sysno (t.reg .rax) = some .exit ∧
      currentPid x = p.pid) ∨
    (∃ x t y, Takes (step cfg) k tr x (.syscall t) y ∧ sysno (t.reg .rax) = some .wait4 ∧
      p.exitCode ≠ none ∧ p.parent = some (currentPid x)) := by
  by_cases hexit : ∃ x t y, Takes (step cfg) k tr x (.syscall t) y ∧
      sysno (t.reg .rax) = some .exit ∧ currentPid x = p.pid
  · exact .inr (.inl hexit)
  by_cases hwait : ∃ x t y, Takes (step cfg) k tr x (.syscall t) y ∧
      sysno (t.reg .rax) = some .wait4 ∧ p.exitCode ≠ none ∧ p.parent = some (currentPid x)
  · exact .inr (.inr hwait)
  have hsound := Reachable.sound hreach
  have hentry : (view k).entry p.pid = some (entryOf p) :=
    (entry_eq_some hsound).mpr ⟨slot, p, hp, rfl, rfl⟩
  have hkept : Ready k' ∧ TableSound k' ∧ (view k').entry p.pid = some (entryOf p) := by
    refine hrun.invariant_taken
      (I := fun x => Ready x ∧ TableSound x ∧ (view x).entry p.pid = some (entryOf p))
      ⟨Reachable.ready hreach, hsound, hentry⟩ ?_
    intro x ev y htakes hx
    obtain ⟨tr₁, o, tr₂, -, -, hstep⟩ := id htakes
    refine ⟨step_ready _ _ _ _ hstep hx.1, step_sound _ _ _ _ hstep hx.2.1,
      step_entry_kept hstep hx.1 hx.2.1 (fun t hev hcall hpid => hexit ?_)
        (fun t hev hcall hdead hparent => hwait ?_) hx.2.2⟩
    · exact ⟨x, t, y, hev ▸ htakes, hcall, hpid⟩
    · exact ⟨x, t, y, hev ▸ htakes, hcall, hdead, hparent⟩
  obtain ⟨slot', p', hp', hpid, hsame⟩ := (entry_eq_some hkept.2.1).mp hkept.2.2
  simp only [entryOf, ProcessMachine.ProcessEntry.mk.injEq] at hsame
  exact .inl ⟨slot', p', hp', hpid, hsame⟩

/-- The zombie with pid 2 is gone after the wait, and only the wait can have
taken it away. -/
theorem leaves_by_exit_and_wait_child : ∃ k k' t r p, Reachable machine k ∧
    step machine (.syscall t) k = some (some r, k') ∧ k.proc 1 = some p ∧
    (∀ slot q, k'.proc slot = some q → q.pid ≠ p.pid) ∧
    p.exitCode ≠ none ∧ p.parent = some (currentPid k) := by
  have hall : ((step machine forkExitWait[0] started).bind fun x₁ =>
      (step machine forkExitWait[1] x₁.2).bind fun x₂ =>
      (step machine forkExitWait[2] x₂.2).bind fun x₃ =>
      some ((x₂.2.proc 1).map brief, x₃.2.procs.filterMap id |>.map Process.pid)) =
        some (some (2, ⟨some 1, some 7⟩), [1]) := by decide +kernel
  simp only [Option.bind_eq_some_iff, Option.some.injEq, Prod.mk.injEq] at hall
  obtain ⟨⟨_, k₁⟩, h₁, ⟨_, k₂⟩, h₂, ⟨o, k₃⟩, h₃, hzombie, hleft⟩ := hall
  obtain ⟨p, hp, hbrief⟩ := Option.map_eq_some_iff.mp hzombie
  obtain ⟨r, rfl, -⟩ := step_syscall_ok h₃
  have hreach : Reachable machine k₂ := (started_reachable.step h₁).step h₂
  have hgone : ∀ slot q, k₃.proc slot = some q → q.pid = 1 := by
    intro slot q hq
    have hmem : q.pid ∈ (k₃.procs.filterMap id).map Process.pid := by
      refine List.mem_map_of_mem ?_
      simpa using some_mem_iff.mpr ⟨slot, hq⟩
    rw [hleft] at hmem
    exact List.mem_singleton.mp hmem
  have hpid : p.pid = 2 := congrArg Prod.fst hbrief
  refine ⟨k₂, k₃, _, r, p, hreach, h₃, hp, fun slot q hq => ?_, ?_⟩
  · rw [hgone slot q hq, hpid]
    decide
  rcases leaves_by_exit_and_wait machine k₂ k₃ _ 1 p hreach (.single h₃) hp with
    ⟨slot', p', hp', hsame, -⟩ | ⟨x, t, y, htakes, hexit, -⟩ | ⟨x, t, y, htakes, -, hkilled⟩
  · rw [hgone slot' p' hp', hpid] at hsame
    cases hsame
  · obtain ⟨hev, -⟩ := takes_singleton htakes
    cases hev
    exact absurd hexit (by decide)
  · obtain ⟨-, rfl⟩ := takes_singleton htakes
    exact hkilled

end Rockos.ProcessRefinement
