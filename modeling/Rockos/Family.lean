import Rockos.Instances

/-!
# Exit status and parentage

What `wait_reap` hands out is the status of a process that exited and was not
reaped before. Whose child that process is, is another matter: an entry names
its parent by pid, it keeps the pid after the parent is gone, and the pid is
given out again. The links are right as long as no `fork` picks a pid that an
entry still names, and wrong from the first time one does.
-/
namespace Rockos.Family
open FallibleState KernelState ProcessCalls Syscall SyscallEffects RunQueue ProcessTable Turns
open Runs Instances

/-! ## Exit status -/

section
variable {cfg : Config} {k k' : Kernel} {c : Chronicle}

/-- The entry that `wait_reap` frees is not the caller's. -/
theorem reap_spec (h : Ready k) {t : Trap} {target : ℤ} {pid : ℕ} {code : Int32}
    (hreap : waitReap target (trapState t k) = .ok (some (pid, code)) k') :
    ∃ slot p, slot ≠ k.currentSlot ∧ k.proc slot = some p ∧ p.pid = pid ∧
      p.exitCode = some code ∧ p.parent = some (currentPid k) ∧ k'.proc slot = none ∧
      ∀ s, s ≠ slot → k'.proc s = k.proc s := by
  rcases waitReap_cases hreap with ⟨hnone, -⟩ | ⟨slot, p, code', hsome, hcode, hr⟩
  · cases hnone
  · simp only [Option.some.injEq, Prod.mk.injEq] at hsome
    obtain ⟨rfl, rfl⟩ := hsome
    refine ⟨slot, p, ?_, hr.zombie.1, rfl, hcode, hr.child, ?_, fun s hs => ?_⟩
    · rintro rfl
      obtain ⟨q, hq, halive⟩ := h.alive
      have hp : k.proc k.currentSlot = some p := hr.zombie.1
      rw [hq, Option.some.injEq] at hp
      exact hr.zombie.2 (hp ▸ halive)
    · rw [hr.proc, if_pos rfl]
    · rw [hr.proc, if_neg hs]
      rfl

end

/-- A status that is handed out is the argument of the one exit call of a
process that has not been reaped. Until then it stands in the table unchanged. -/
theorem exit_status_delivered (cfg : Config) (k : Kernel) (c : Chronicle) (h : Recorded cfg k c) :
    (∀ t target pid code k', waitReap target (trapState t k) = .ok (some (pid, code)) k' →
      ∃ slot i, c.holder slot = some i ∧ i.pid = pid ∧ (i.birth, code) ∈ c.exits ∧
        i.birth ∉ c.reaped ∧ slot ≠ k.currentSlot ∧ k'.proc slot = none ∧
        ∀ s, s ≠ slot → k'.proc s = k.proc s) ∧
    (∀ s p code, k.proc s = some p → p.exitCode = some code →
      ∃ i, c.holder s = some i ∧ i.pid = p.pid ∧ (i.birth, code) ∈ c.exits) ∧
    (c.exits.map Prod.fst).Nodup ∧ c.reaped.Nodup := by
  have hf := h.faithful
  have hzombie : ∀ s p code, k.proc s = some p → p.exitCode = some code →
      ∃ i, c.holder s = some i ∧ i.pid = p.pid ∧ (i.birth, code) ∈ c.exits := by
    intro s p code hp hcode
    obtain ⟨i, hi, hm⟩ := hf.holder hp
    exact ⟨i, hi, hm.pid, hf.exited s i code hi (hm.exited.trans hcode)⟩
  refine ⟨fun t target pid code k' hreap => ?_, hzombie, hf.exitedOnce, hf.reapedOnce⟩
  obtain ⟨slot, p, hne, hp, rfl, hcode, -, hgone, hkept⟩ :=
    reap_spec (Reachable.ready h.reachable) hreap
  obtain ⟨i, hi, hpid, hexit⟩ := hzombie slot p code hp hcode
  exact ⟨slot, i, hi, hpid, hexit, fun hb => (hf.reapedGone _ hb).2 slot i hi rfl,
    hne, hgone, hkept⟩

/-- The first process forks and its child exits with 7. -/
theorem exit_status_delivered_child : ∃ k c k', Recorded machine k c ∧
    waitReap 2 (trapState (callTrap 0x444444448000 0 61 2) k) = .ok (some (2, 7)) k' ∧
    ∃ slot i, c.holder slot = some i ∧ i.pid = 2 ∧ (i.birth, 7) ∈ c.exits ∧
      i.birth ∉ c.reaped ∧ slot ≠ k.currentSlot := by
  have hall : ((replay (recordedStep machine)
      [.syscall (callTrap 0x10000204000 0x44444444C000 57 0),
        .syscall (callTrap 0x44444444C000 0 60 7)] (started, .start started)).map fun x =>
      (returned (waitReap 2 (trapState (callTrap 0x444444448000 0 61 2) x.2.1))).map (·.1)) =
      some (some (some (2, 7))) := by decide +kernel
  obtain ⟨o₁, ⟨k₁, c₁⟩, h₁, hall⟩ := replay_cons hall
  obtain ⟨o₂, ⟨k, c⟩, h₂, hall⟩ := replay_cons hall
  simp only [replay, Option.map_some, Option.some.injEq] at hall
  obtain ⟨r, k', hreap, hr⟩ := ok_of_returned hall
  have hrec : Recorded machine k c := (started_recorded.step h₁).step h₂
  obtain rfl : r = some (2, 7) := hr
  have hdone := (exit_status_delivered machine k c hrec).1 _ _ 2 7 k' hreap
  obtain ⟨slot, i, hi, hpid, hexit, hnew, hne, -⟩ := hdone
  exact ⟨k, c, k', hrec, hreap, slot, i, hi, hpid, hexit, hnew, hne⟩

/-! ## Parents -/

/-- Whoever is named as the parent of an entry created it. -/
def ParentLinks (k : Kernel) (c : Chronicle) : Prop :=
  ∀ s s' p p' i i', s ≠ s' → k.proc s = some p → k.proc s' = some p' → c.holder s = some i →
    c.holder s' = some i' → p.parent = some p'.pid → i.creator = some i'.birth

/-- Whatever the running process would reap is a process it created. -/
def ReapsOwn (k : Kernel) (c : Chronicle) : Prop :=
  ∀ t target pid code k', waitReap target (trapState t k) = .ok (some (pid, code)) k' →
    ∃ slot i me, c.holder slot = some i ∧ i.pid = pid ∧ k'.proc slot = none ∧
      c.holder k.currentSlot = some me ∧ i.creator = some me.birth

/-- The pid of a process that a `fork` adds is not named as a parent. -/
def FreshPid (k : Kernel) (e : Event) (k' : Kernel) : Prop :=
  ∀ t pid, e = .syscall t → sysno (t.reg .rax) = some .fork →
    (∃ slot, k.proc slot = none ∧ k'.proc slot ≠ none) → allocPid k.procs = some pid →
    ∀ s p, k.proc s = some p → p.parent ≠ some pid

section
variable {cfg : Config} {t : Trap} {k k' : Kernel} {c c' : Chronicle}

theorem ParentLinks.reapsOwn (h : Recorded cfg k c) (hlinks : ParentLinks k c) :
    ReapsOwn k c := by
  intro t target pid code k' hreap
  have hready := Reachable.ready h.reachable
  obtain ⟨slot, p, hne, hp, rfl, -, hparent, hgone, -⟩ := reap_spec hready hreap
  obtain ⟨q, hq, -⟩ := hready.alive
  obtain ⟨i, hi, hm⟩ := h.faithful.holder hp
  obtain ⟨me, hme, -⟩ := h.faithful.holder hq
  rw [currentPid_of_caller hq] at hparent
  exact ⟨slot, i, me, hi, hm.pid, hgone, hme,
    hlinks slot k.currentSlot p q i me hne hp hq hi hme hparent⟩

end

/-- What an entry and its process never change. -/
structure Link where
  pid : ℕ
  parent : Option ℕ
  birth : ℕ
  creator : Option ℕ

def link (proc : ℕ → Option Process) (holder : ℕ → Option Instance) (s : ℕ) : Option Link :=
  (proc s).bind fun p => (holder s).map fun i => ⟨p.pid, p.parent, i.birth, i.creator⟩

section
variable {cfg : Config} {t : Trap} {k k' : Kernel} {c c' : Chronicle}

theorem link_eq_some {proc : ℕ → Option Process} {holder : ℕ → Option Instance} {s : ℕ} {l : Link} :
    link proc holder s = some l ↔ ∃ p i, proc s = some p ∧ holder s = some i ∧
      l = ⟨p.pid, p.parent, i.birth, i.creator⟩ := by
  simp only [link, Option.bind_eq_some_iff, Option.map_eq_some_iff]
  constructor
  · rintro ⟨p, hp, i, hi, rfl⟩
    exact ⟨p, i, hp, hi, rfl⟩
  · rintro ⟨p, i, hp, hi, rfl⟩
    exact ⟨p, hp, i, hi, rfl⟩

theorem parentLinks_iff : ParentLinks k c ↔ ∀ s s' l l', s ≠ s' →
    link k.proc c.holder s = some l → link k.proc c.holder s' = some l' →
    l.parent = some l'.pid → l.creator = some l'.birth := by
  simp only [link_eq_some]
  constructor
  · rintro h s s' _ _ hne ⟨p, i, hp, hi, rfl⟩ ⟨p', i', hp', hi', rfl⟩ hparent
    exact h s s' p p' i i' hne hp hp' hi hi' hparent
  · intro h s s' p p' i i' hne hp hp' hi hi' hparent
    exact h s s' _ _ hne ⟨p, i, hp, hi, rfl⟩ ⟨p', i', hp', hi', rfl⟩ hparent

/-- An edit of one's own entry leaves the link. -/
theorem link_amend {proc : ℕ → Option Process} {slot : ℕ} {p q : Process} {f : Instance → Instance}
    (hp : proc slot = some p) (hpid : q.pid = p.pid) (hparent : q.parent = p.parent)
    (hf : ∀ i, (f i).birth = i.birth ∧ (f i).creator = i.creator) (s : ℕ) :
    link (Function.update proc slot (some q)) (c.amend slot f).holder s =
      link proc c.holder s := by
  by_cases hs : s = slot
  · subst hs
    simp only [link, Chronicle.amend, Function.update_self, hp, Option.bind_some, Option.map_map]
    congr 1
    funext i
    simp [hpid, hparent, hf i]
  · simp [link, Chronicle.amend, Function.update_of_ne hs]

theorem link_answered {proc : ℕ → Option Process} {slot : ℕ} {p q : Process}
    (hp : proc slot = some p) (hid : identity q = identity p) (s : ℕ) :
    link (Function.update proc slot (some q)) (c.answered slot q.pendingRax q.save).holder s =
      link proc c.holder s := by
  simp only [identity, Identity.mk.injEq] at hid
  exact link_amend (f := fun i => { i with result := q.pendingRax, saved := q.save }) hp hid.1
    hid.2.1 (fun _ => ⟨rfl, rfl⟩) s

/-- A call keeps all links, adds one in a free slot, or takes one away. -/
inductive Relinked (t : Trap) (k k' : Kernel) (c c' : Chronicle) : Prop
  | same (links : link k'.proc c'.holder = link k.proc c.holder)
      (domain : ∀ s, k.proc s = none → k'.proc s = none)
  | added (slot pid : ℕ) (p : Process) (call : sysno (t.reg .rax) = some .fork)
      (free : k.proc slot = none) (filled : k'.proc slot ≠ none)
      (choice : allocPid k.procs = some pid) (caller : k.current = some p)
      (links : link k'.proc c'.holder = Function.update (link k.proc c.holder) slot
        (some ⟨pid, some p.pid, c.births, (c.holder k.currentSlot).map Instance.birth⟩))
  | removed (slot : ℕ) (links : link k'.proc c'.holder =
      Function.update (link k.proc c.holder) slot none)
      (domain : ∀ s, k.proc s = none → k'.proc s = none)

theorem record_relinked (he : TableEdit cfg t k k') :
    Relinked t k k' c (record cfg (.syscall t) k k' c) := by
  cases he with
  | quiet p q own proc =>
      refine .same ?_ (by rw [proc]; exact fun _ => update_filled_none own.caller q)
      rw [record_quiet own proc, proc]
      exact funext (link_answered own.caller own.same)
  | exited p call caller alive proc =>
      refine .same ?_ (by rw [proc]; exact fun _ => update_filled_none caller _)
      rw [record_exited call caller proc, proc]
      exact funext (link_amend (q := { p with exitCode := some (exitStatus t) })
        (f := fun i => { i with exited := some (exitStatus t) }) caller rfl rfl
        fun _ => ⟨rfl, rfl⟩)
  | forked p q own slot child new free proc =>
      have hne := slot_ne_of_free own.caller free
      refine .added slot child.pid p new.call free (by rw [proc]; simp [hne.symm])
        new.pid own.caller ?_
      rw [record_forked own free new.save proc, proc]
      funext s
      rw [link_answered (caller_after own.caller hne _) own.same]
      by_cases hs : s = slot
      · subst hs
        simp [link, Chronicle.born, new.parent, currentPid_of_caller own.caller]
      · simp [link, Chronicle.born, hs]
  | reaped p q own slot zombie other held dead proc =>
      have hcaller := caller_after own.caller other.symm none
      refine .removed slot ?_ fun s hs => ?_
      · rw [record_reaped own other held proc, proc]
        funext s
        rw [link_answered hcaller own.same]
        by_cases hs : s = slot
        · subst hs
          simp [link]
        · simp [link, Chronicle.freed, hs]
      · rw [proc]
        refine update_filled_none hcaller q ?_
        by_cases hs' : s = slot
        · simp [hs']
        · rw [Function.update_of_ne hs', hs]

/-- A new entry has the right link, and no entry takes it for its parent. -/
theorem ParentLinks.step (htable : TableSound k) (hlinks : ParentLinks k c)
    (hn : Relinked t k k' c c') (hfresh : FreshPid k (.syscall t) k') : ParentLinks k' c' := by
  rw [parentLinks_iff] at hlinks ⊢
  cases hn with
  | same links _ =>
      rw [links]
      exact hlinks
  | removed slot links _ =>
      rw [links]
      intro s s' l l' hne hl hl'
      have hs : s ≠ slot := by rintro rfl; simp at hl
      have hs' : s' ≠ slot := by rintro rfl; simp at hl'
      rw [Function.update_of_ne hs] at hl
      rw [Function.update_of_ne hs'] at hl'
      exact hlinks s s' l l' hne hl hl'
  | added slot pid p call free filled choice caller links =>
      rw [links]
      intro s s' l l' hne hl hl' hparent
      by_cases hs : s = slot
      · subst hs
        rw [Function.update_self, Option.some.injEq] at hl
        rw [Function.update_of_ne hne.symm] at hl'
        subst hl
        obtain ⟨p', i', hp', hi', rfl⟩ := link_eq_some.mp hl'
        -- pids are distinct, so the entry named is the caller's
        have hcur : s' = k.currentSlot :=
          htable.distinct s' k.currentSlot p' p hp' caller (Option.some.inj hparent).symm
        subst hcur
        simp [hi']
      · rw [Function.update_of_ne hs] at hl
        by_cases hs' : s' = slot
        · subst hs'
          rw [Function.update_self, Option.some.injEq] at hl'
          subst hl'
          obtain ⟨q, i, hq, -, rfl⟩ := link_eq_some.mp hl
          exact absurd hparent (hfresh t pid rfl call ⟨s', free, filled⟩ choice s q hq)
        · rw [Function.update_of_ne hs'] at hl'
          exact hlinks s s' l l' hne hl hl' hparent

/-- An entry that names the new pid was there before its supposed parent. -/
theorem ParentLinks.freshPid (hf : Faithful k.proc c) (hn : Relinked t k k' c c')
    (hlinks : ParentLinks k' c') : FreshPid k (.syscall t) k' := by
  intro t' pid ht hfork hfilled hchoice s q hq hparent
  rw [parentLinks_iff] at hlinks
  cases hn with
  | same _ domain =>
      obtain ⟨slot, hfree, hnew⟩ := hfilled
      exact hnew (domain slot hfree)
  | removed _ _ domain =>
      obtain ⟨slot, hfree, hnew⟩ := hfilled
      exact hnew (domain slot hfree)
  | added slot pid' p call free filled choice caller links =>
      obtain rfl : pid = pid' := Option.some.inj (hchoice.symm.trans choice)
      have hne : s ≠ slot := by
        rintro rfl
        rw [free] at hq
        cases hq
      obtain ⟨i, hi, -⟩ := hf.holder hq
      have hl : link k.proc c.holder s = some ⟨q.pid, q.parent, i.birth, i.creator⟩ :=
        link_eq_some.mpr ⟨q, i, hq, hi, rfl⟩
      rw [links] at hlinks
      have hcreator := hlinks s slot _ _ hne (by rw [Function.update_of_ne hne]; exact hl)
        (Function.update_self ..) hparent
      exact absurd ((hf.young s i hi).2 _ hcreator) (lt_irrefl _)

end

theorem start_links (staleTop boxedTop : UInt64) (k : Kernel) :
    ParentLinks (boot staleTop boxedTop k) (.start k) := by
  have honly : ∀ {s i}, (Chronicle.start k).holder s = some i → s = 0 := by
    intro s i hi
    by_contra hs
    simp [Chronicle.start, hs] at hi
  intro s s' p p' i i' hne _ _ hi hi'
  exact absurd ((honly hi).trans (honly hi').symm) hne

section
variable {cfg : Config} {staleTop boxedTop : UInt64} {k₀ : Kernel}
  {tr : List (Event × Option Resumed)} {x y : Kernel × Chronicle} {e : Event}

theorem taken_recorded
    (h : Takes (recordedStep cfg) (boot staleTop boxedTop k₀, .start k₀) tr x e y) :
    Recorded cfg x.1 x.2 ∧ Recorded cfg y.1 y.2 ∧ ∃ o, recordedStep cfg e x = some (o, y) := by
  obtain ⟨tr₁, o, tr₂, -, hx, hy⟩ := h
  have hrec : Recorded cfg x.1 x.2 := ⟨staleTop, boxedTop, k₀, tr₁, hx⟩
  exact ⟨hrec, hrec.step hy, o, hy⟩

theorem taken_links
    (h : Takes (recordedStep cfg) (boot staleTop boxedTop k₀, .start k₀) tr x e y)
    (hlinks : ParentLinks x.1 x.2) (hfresh : FreshPid x.1 e y.1) : ParentLinks y.1 y.2 := by
  obtain ⟨hrec, -, o, hstep⟩ := taken_recorded h
  cases e with
  | syscall t =>
      obtain ⟨hedit, hnote⟩ := recordedStep_syscall (Reachable.ready hrec.reachable) hstep
      rw [hnote]
      exact hlinks.step (Reachable.sound hrec.reachable) (record_relinked hedit) hfresh
  | irq i =>
      obtain ⟨hst, hnote⟩ := observed_eq_some.mp hstep
      intro s s' p p' j j' hne hp hp' hj hj'
      rw [step_irq_proc hst] at hp hp'
      rw [show y.2 = x.2 from hnote] at hj hj'
      exact hlinks s s' p p' j j' hne hp hp' hj hj'

end

/-- In a run all links are right, and everyone reaps its own children only, if
and only if no process that is added gets a pid which an entry still names as
its parent. -/
theorem parent_links_iff_fresh (cfg : Config) (staleTop boxedTop : UInt64) (k₀ : Kernel)
    (tr : List (Event × Option Resumed)) :
    (∀ x e y, Takes (recordedStep cfg) (boot staleTop boxedTop k₀, .start k₀) tr x e y →
      ParentLinks y.1 y.2 ∧ ReapsOwn y.1 y.2) ↔
    ∀ x e y, Takes (recordedStep cfg) (boot staleTop boxedTop k₀, .start k₀) tr x e y →
      FreshPid x.1 e y.1 := by
  constructor
  · intro h x e y htaken
    obtain ⟨hrec, -, o, hstep⟩ := taken_recorded htaken
    cases e with
    | irq i =>
        rintro t pid ht
        cases ht
    | syscall t =>
        obtain ⟨hedit, hnote⟩ := recordedStep_syscall (Reachable.ready hrec.reachable) hstep
        have hlinks := (h x _ y htaken).1
        rw [hnote] at hlinks
        exact hlinks.freshPid hrec.faithful (record_relinked hedit)
  · intro h x e y htaken
    obtain ⟨tr₁, tr₂, rfl, hrun⟩ := htaken.run_to
    have hlinks : ParentLinks y.1 y.2 :=
      hrun.invariant_taken (I := fun z => ParentLinks z.1 z.2) (start_links staleTop boxedTop k₀)
        fun x e y ht hx => taken_links ht hx (h x e y ht.extend)
    exact ⟨hlinks, hlinks.reapsOwn (taken_recorded htaken).2.1⟩

/-- The child of the first process forks, exits and is reaped; its pid then goes
to a new child of the first process, and the grandchild exits. -/
def reusedPid : List Event :=
  [.syscall (callTrap 0x10000204000 0x44444444C000 57 0),
    .syscall (callTrap 0x44444444C000 0x444444450000 57 0),
    .syscall (callTrap 0x444444448000 0 24 0), .syscall (callTrap 0x444444450000 0 24 0),
    .syscall (callTrap 0x44444444C000 0 60 7), .syscall (callTrap 0x444444448000 0 61 2),
    .syscall (callTrap 0x444444450000 0 24 0),
    .syscall (callTrap 0x444444448000 0x444444454000 57 0),
    .syscall (callTrap 0x444444450000 0 60 5)]

/-- The new child then reaps the grandchild, which another process created. -/
theorem reaps_foreign_child : ∃ tr k c k' i me,
    replay (recordedStep machine) reusedPid (started, .start started) = some (tr, k, c) ∧
    waitReap 3 (trapState (callTrap 0x444444454000 0 61 3) k) = .ok (some (3, 5)) k' ∧
    c.holder 2 = some i ∧ i.pid = 3 ∧ i.creator = some 1 ∧
    c.holder k.currentSlot = some me ∧ me.birth = 3 ∧ ¬ ReapsOwn k c := by
  have hall : ((replay (recordedStep machine) reusedPid (started, .start started)).map fun x =>
      ([(x.2.2.holder 2).bind fun i => i.creator.map fun b => (i.pid, b),
        (x.2.2.holder x.2.1.currentSlot).map fun i => (i.pid, i.birth)],
        (returned (waitReap 3 (trapState (callTrap 0x444444454000 0 61 3) x.2.1))).map (·.1))) =
      some ([some (3, 1), some (2, 3)], some (some (3, 5))) := by decide +kernel
  obtain ⟨⟨tr, k, c⟩, hreplay, hall⟩ := Option.map_eq_some_iff.mp hall
  simp only [Prod.mk.injEq, List.cons.injEq, and_true, Option.bind_eq_some_iff,
    Option.map_eq_some_iff] at hall
  obtain ⟨⟨⟨i, hi, b, hb, hpid, rfl⟩, me, hme, -, hbirth⟩, hwait⟩ := hall
  obtain ⟨r, k', hreap, hr⟩ := ok_of_returned (Option.map_eq_some_iff.mpr hwait)
  obtain rfl : r = some (3, 5) := hr
  refine ⟨tr, k, c, k', i, me, hreplay, hreap, hi, hpid, hb, hme, hbirth, fun hown => ?_⟩
  have hrec : Recorded machine k c := started_recorded.run (.of_replay hreplay)
  obtain ⟨slot, j, me', hj, hjpid, -, hme', hcreator⟩ := hown _ _ _ _ _ hreap
  -- only the grandchild has pid 3
  have hslot : slot = 2 := by
    obtain ⟨p, hp, hm⟩ := hrec.faithful.process hi
    obtain ⟨q, hq, hm'⟩ := hrec.faithful.process hj
    exact (Reachable.sound hrec.reachable).distinct slot 2 q p hq hp
      (by rw [← hm'.pid, ← hm.pid, hjpid, hpid])
  subst hslot
  rw [hi, Option.some.injEq] at hj
  rw [hme, Option.some.injEq] at hme'
  rw [← hj, hb, ← hme', hbirth] at hcreator
  simp at hcreator

end Rockos.Family
