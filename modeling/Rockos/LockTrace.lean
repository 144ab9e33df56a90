import Mathlib.Tactic

/-!
# Spin locks and interrupts on one processor

A path of kernel code is the sequence of its lock operations and changes of the
interrupt flag. An interrupt can be delivered between any two of them while the
flag is set, and its handler runs to the end before the path goes on. If the
handler takes a lock that the path holds at that moment, it spins forever.

Code is described by a program with sequence, choice and repetition. The choice
stands for every condition that is not tracked, so a program has at least the
paths of the code. The syntactic checks below are sound for all paths of a
program.
-/
namespace Rockos.LockTrace

variable {L : Type}

inductive Action (L : Type) where
  | acquire (l : L)
  | release (l : L)
  | sti
  | cli
  deriving DecidableEq, Repr

/-- Locks held by the interrupted code, and the interrupt flag. -/
structure Cpu (L : Type) where
  held : List L
  interrupts : Bool

def Action.exec [DecidableEq L] : Action L → Cpu L → Cpu L
  | .acquire l, c => { c with held := l :: c.held }
  | .release l, c => { c with held := c.held.erase l }
  | .sti, c => { c with interrupts := true }
  | .cli, c => { c with interrupts := false }

def exec [DecidableEq L] (c : Cpu L) (tr : List (Action L)) : Cpu L :=
  tr.foldl (fun c a => a.exec c) c

inductive Prog (L : Type) where
  | skip
  | act (a : Action L)
  | seq (p q : Prog L)
  | alt (p q : Prog L)
  | loop (p : Prog L)
  deriving Repr

/-- The paths from the beginning of a program to its end. -/
inductive PathOf : Prog L → List (Action L) → Prop
  | skip : PathOf .skip []
  | act (a : Action L) : PathOf (.act a) [a]
  | seq {p q : Prog L} {s t : List (Action L)} :
      PathOf p s → PathOf q t → PathOf (.seq p q) (s ++ t)
  | left {p q : Prog L} {s : List (Action L)} : PathOf p s → PathOf (.alt p q) s
  | right {p q : Prog L} {s : List (Action L)} : PathOf q s → PathOf (.alt p q) s
  | done {p : Prog L} : PathOf (.loop p) []
  | again {p : Prog L} {s t : List (Action L)} :
      PathOf p s → PathOf (.loop p) t → PathOf (.loop p) (s ++ t)

def Prog.lock (l : L) (p : Prog L) : Prog L := .seq (.act (.acquire l)) (.seq p (.act (.release l)))

/-- Code that may be skipped. -/
def Prog.opt (p : Prog L) : Prog L := .alt .skip p

def Prog.seqs : List (Prog L) → Prog L
  | [] => .skip
  | p :: ps => .seq p (Prog.seqs ps)

/-- Some path takes the lock. -/
def Prog.Acquires (p : Prog L) (l : L) : Prop := ∃ tr, PathOf p tr ∧ .acquire l ∈ tr

theorem PathOf.assoc {p q r : Prog L} {tr : List (Action L)}
    (h : PathOf (.seq p (.seq q r)) tr) : PathOf (.seq (.seq p q) r) tr := by
  cases h with
  | seq hp hqr =>
      cases hqr with
      | seq hq hr =>
          rw [← List.append_assoc]
          exact .seq (.seq hp hq) hr

/-- The path that takes the first choice everywhere and repeats nothing. -/
def Prog.first : Prog L → List (Action L)
  | .skip => []
  | .act a => [a]
  | .seq p q => p.first ++ q.first
  | .alt p _ => p.first
  | .loop _ => []

theorem path_first (p : Prog L) : PathOf p p.first := by
  induction p with
  | skip => exact .skip
  | act a => exact .act a
  | seq p q ihp ihq => exact .seq ihp ihq
  | alt p q ihp _ => exact .left ihp
  | loop p _ => exact .done

section
variable [DecidableEq L]

/-- A handler delivered now would spin. -/
def WouldSpin (handlers : List (Prog L)) (c : Cpu L) : Prop :=
  c.interrupts = true ∧ ∃ h ∈ handlers, ∃ l ∈ c.held, h.Acquires l

/-- At no point of the path, its two ends included, would a handler spin. -/
def Safe (handlers : List (Prog L)) (c : Cpu L) (tr : List (Action L)) : Prop :=
  ∀ s, s <+: tr → ¬ WouldSpin handlers (exec c s)

/-- Locks of handlers are taken with interrupts masked only. -/
def MasksLocks (handlers : List (Prog L)) (c : Cpu L) (tr : List (Action L)) : Prop :=
  ∀ s l t, tr = s ++ .acquire l :: t → (exec c s).interrupts = true →
    ∀ h ∈ handlers, ¬ h.Acquires l

/-- Interrupts are enabled only where no lock is held. -/
def OpensFree : Cpu L → List (Action L) → Prop
  | _, [] => True
  | c, a :: tr => (a = .sti → c.held = []) ∧ OpensFree (a.exec c) tr

/-! ## Paths -/

variable {c : Cpu L} {s t tr : List (Action L)} {handlers : List (Prog L)} {p q : Prog L}

theorem exec_append (c : Cpu L) (s t : List (Action L)) : exec c (s ++ t) = exec (exec c s) t :=
  List.foldl_append

theorem exec_cons (c : Cpu L) (a : Action L) (t : List (Action L)) :
    exec c (a :: t) = exec (a.exec c) t := rfl

theorem masked_exec (hc : c.interrupts = false) (htr : .sti ∉ tr) :
    (exec c tr).interrupts = false := by
  induction tr generalizing c with
  | nil => exact hc
  | cons a tr ih =>
      rw [List.mem_cons, not_or] at htr
      rw [exec_cons]
      refine ih ?_ htr.2
      cases a with
      | sti => exact absurd rfl htr.1
      | cli => rfl
      | acquire l => exact hc
      | release l => exact hc

theorem enabled_exec (hc : c.interrupts = true) (htr : .cli ∉ tr) :
    (exec c tr).interrupts = true := by
  induction tr generalizing c with
  | nil => exact hc
  | cons a tr ih =>
      rw [List.mem_cons, not_or] at htr
      rw [exec_cons]
      refine ih ?_ htr.2
      cases a with
      | sti => rfl
      | cli => exact absurd rfl htr.1
      | acquire l => exact hc
      | release l => exact hc

/-- Nothing can happen to a path that starts masked and stays so. -/
theorem safe_of_masked (hc : c.interrupts = false) (htr : .sti ∉ tr) : Safe handlers c tr := by
  intro s hs hexp
  have hmask := masked_exec hc fun hmem => htr (hs.subset hmem)
  rw [hexp.1] at hmask
  cases hmask

theorem Safe.drop (h : Safe handlers c (s ++ t)) : Safe handlers (exec c s) t := by
  intro u hu
  rw [← exec_append]
  exact h _ ((List.prefix_append_right_inj s).mpr hu)

/-- With interrupts enabled, taking a lock of a handler is already too much. -/
theorem not_safe_of_acquire {l : L} {h : Prog L} (hc : c.interrupts = true) (hcli : .cli ∉ tr)
    (hmem : .acquire l ∈ tr) (hh : h ∈ handlers) (htakes : h.Acquires l) :
    ¬ Safe handlers c tr := by
  obtain ⟨s, t, rfl⟩ := List.append_of_mem hmem
  intro hsafe
  refine hsafe (s ++ [.acquire l]) ⟨t, by simp⟩ ⟨?_, h, hh, l, ?_, htakes⟩
  · exact enabled_exec hc fun hbad => hcli (by
      rw [List.mem_append, List.mem_singleton] at hbad
      rcases hbad with hbad | hbad
      · exact List.mem_append_left _ hbad
      · cases hbad)
  · rw [exec_append]
    exact List.mem_cons_self

theorem opensFree_append (c : Cpu L) (s t : List (Action L)) :
    OpensFree c (s ++ t) ↔ OpensFree c s ∧ OpensFree (exec c s) t := by
  induction s generalizing c with
  | nil => exact Iff.of_eq (true_and _).symm
  | cons a s ih => rw [List.cons_append, OpensFree, OpensFree, ih, exec_cons, and_assoc]

/-- While interrupts are enabled, only locks are held that no handler takes. -/
theorem not_acquires_of_held (hfree : OpensFree ⟨[], false⟩ tr)
    (hmasks : MasksLocks handlers ⟨[], false⟩ tr) (hs : s <+: tr)
    (hon : (exec ⟨[], false⟩ s).interrupts = true) :
    ∀ l ∈ (exec ⟨[], false⟩ s).held, ∀ h ∈ handlers, ¬ h.Acquires l := by
  induction s using List.reverseRecOn with
  | nil => cases hon
  | append_singleton s a ih =>
      obtain ⟨t, rfl⟩ := hs
      rw [List.append_assoc, List.singleton_append] at *
      have hstep := ((opensFree_append _ s (a :: t)).mp hfree).2.1
      rw [exec_append] at hon ⊢
      cases a with
      | acquire l =>
          rintro l' hl'
          rcases List.mem_cons.mp hl' with rfl | hold
          · exact hmasks s l' t rfl hon
          · exact ih (List.prefix_append ..) hon l' hold
      | release l =>
          exact fun l' hl' => ih (List.prefix_append ..) hon l' (List.mem_of_mem_erase hl')
      | sti =>
          intro l' hl'
          have hheld : l' ∈ (exec (⟨[], false⟩ : Cpu L) s).held := hl'
          rw [hstep rfl] at hheld
          cases hheld
      | cli => cases hon

/-- A path that enables interrupts only without locks, complete or not: it is safe
exactly if it takes the locks of handlers with interrupts masked. -/
theorem safe_iff_masksLocks (hfree : OpensFree ⟨[], false⟩ tr) :
    Safe handlers ⟨[], false⟩ tr ↔ MasksLocks handlers ⟨[], false⟩ tr := by
  constructor
  · rintro hsafe s l t rfl hon h hh hacquires
    refine hsafe (s ++ [.acquire l]) ⟨t, by simp⟩ ?_
    rw [exec_append]
    exact ⟨hon, h, hh, l, List.mem_cons_self, hacquires⟩
  · rintro hmasks s hs ⟨hon, h, hh, l, hl, hacquires⟩
    exact not_acquires_of_held hfree hmasks hs hon l hl h hh hacquires

/-! ## Checks on programs -/

/-- The locks that are held at the end of every path, if no path enables interrupts
while it holds one. -/
def Prog.heldAfter : Prog L → List L → Option (List L)
  | .skip, held => some held
  | .act (.acquire l), held => some (l :: held)
  | .act (.release l), held => some (held.erase l)
  | .act .sti, held => if held = [] then some [] else none
  | .act .cli, held => some held
  | .seq p q, held => (p.heldAfter held).bind q.heldAfter
  | .alt p q, held => if p.heldAfter held = q.heldAfter held then p.heldAfter held else none
  | .loop p, held => if p.heldAfter held = some held then some held else none

theorem PathOf.heldAfter {held : List L} (h : PathOf p tr)
    (hp : p.heldAfter c.held = some held) : OpensFree c tr ∧ (exec c tr).held = held := by
  induction h generalizing c held with
  | skip => exact ⟨trivial, Option.some.inj hp⟩
  | act a =>
      cases a with
      | acquire l => exact ⟨⟨nofun, trivial⟩, Option.some.inj hp⟩
      | release l => exact ⟨⟨nofun, trivial⟩, Option.some.inj hp⟩
      | cli => exact ⟨⟨nofun, trivial⟩, Option.some.inj hp⟩
      | sti =>
          rw [Prog.heldAfter] at hp
          split_ifs at hp with hheld
          exact ⟨⟨fun _ => hheld, trivial⟩, hheld.trans (Option.some.inj hp)⟩
  | seq _ _ ihp ihq =>
      obtain ⟨middle, hfirst, hrest⟩ := Option.bind_eq_some_iff.mp hp
      obtain ⟨hfree, hmiddle⟩ := ihp hfirst
      rw [← hmiddle] at hrest
      rw [opensFree_append, exec_append]
      exact ⟨⟨hfree, (ihq hrest).1⟩, (ihq hrest).2⟩
  | left _ ih =>
      rw [Prog.heldAfter] at hp
      split_ifs at hp
      exact ih hp
  | right _ ih =>
      rw [Prog.heldAfter] at hp
      split_ifs at hp with hsame
      exact ih (hsame ▸ hp)
  | done =>
      rw [Prog.heldAfter] at hp
      split_ifs at hp
      exact ⟨trivial, Option.some.inj hp⟩
  | again _ _ ihp ihloop =>
      have hloop := hp
      rw [Prog.heldAfter] at hp
      split_ifs at hp with hbody
      obtain ⟨hfree, hmiddle⟩ := ihp hbody
      rw [← hmiddle] at hloop
      rw [opensFree_append, exec_append]
      exact ⟨⟨hfree, (ihloop hloop).1⟩, (ihloop hloop).2⟩

/-- The action occurs in the text of the program. -/
def Prog.has (a : Action L) : Prog L → Bool
  | .skip => false
  | .act b => decide (a = b)
  | .seq p q => p.has a || q.has a
  | .alt p q => p.has a || q.has a
  | .loop p => p.has a

theorem PathOf.has {a : Action L} (h : PathOf p tr) (ha : a ∈ tr) : p.has a = true := by
  induction h with
  | skip => simp at ha
  | act b => simpa [Prog.has] using ha
  | seq _ _ ihp ihq =>
      rw [Prog.has, Bool.or_eq_true]
      exact (List.mem_append.mp ha).imp ihp ihq
  | left _ ih => rw [Prog.has, ih ha, Bool.true_or]
  | right _ ih => rw [Prog.has, ih ha, Bool.or_true]
  | done => simp at ha
  | again _ _ ihp ihloop => exact (List.mem_append.mp ha).elim ihp ihloop

theorem PathOf.not_mem {a : Action L} (h : PathOf p tr) (ha : p.has a = false) : a ∉ tr := by
  intro hmem
  rw [h.has hmem] at ha
  cases ha

/-- The action occurs on every path. -/
def Prog.must (a : Action L) : Prog L → Bool
  | .skip => false
  | .act b => decide (a = b)
  | .seq p q => p.must a || q.must a
  | .alt p q => p.must a && q.must a
  | .loop _ => false

theorem PathOf.must {a : Action L} (h : PathOf p tr) (ha : p.must a = true) : a ∈ tr := by
  induction h with
  | skip => simp [Prog.must] at ha
  | act b => simpa [Prog.must] using ha
  | seq _ _ ihp ihq =>
      rw [Prog.must, Bool.or_eq_true] at ha
      exact List.mem_append.mpr (ha.imp ihp ihq)
  | left _ ih =>
      rw [Prog.must, Bool.and_eq_true] at ha
      exact ih ha.1
  | right _ ih =>
      rw [Prog.must, Bool.and_eq_true] at ha
      exact ih ha.2
  | done => simp [Prog.must] at ha
  | again _ _ _ _ => simp [Prog.must] at ha

/-- Interrupts are enabled at the end of every path; `on` says that they are
enabled at its beginning. -/
def Prog.endsOn : (on : Bool) → Prog L → Bool
  | on, .skip => on
  | _, .act .sti => true
  | _, .act .cli => false
  | on, .act _ => on
  | on, .seq p q => q.endsOn (p.endsOn on)
  | on, .alt p q => p.endsOn on && q.endsOn on
  | on, .loop p => on && p.endsOn on

theorem PathOf.endsOn {on : Bool} (h : PathOf p tr) (hc : on = true → c.interrupts = true)
    (hon : p.endsOn on = true) : (exec c tr).interrupts = true := by
  induction h generalizing on c with
  | skip => exact hc hon
  | act a =>
      cases a with
      | sti => rfl
      | cli => cases hon
      | acquire l => exact hc hon
      | release l => exact hc hon
  | @seq p q s t _ _ ihp ihq =>
      rw [exec_append]
      exact ihq (ihp hc) hon
  | left _ ih =>
      rw [Prog.endsOn, Bool.and_eq_true] at hon
      exact ih hc hon.1
  | right _ ih =>
      rw [Prog.endsOn, Bool.and_eq_true] at hon
      exact ih hc hon.2
  | done =>
      rw [Prog.endsOn, Bool.and_eq_true] at hon
      exact hc hon.1
  | again _ _ ihp ihloop =>
      have hboth := hon
      rw [Prog.endsOn, Bool.and_eq_true] at hboth
      rw [exec_append]
      exact ihloop (fun _ => ihp hc hboth.2) hon

/-- A lock of a handler is taken on every path, at a point at which interrupts
are certainly enabled. -/
theorem not_safe_of_must (on : Bool) {l : L} {h : Prog L} (htr : PathOf (.seq p q) tr)
    (hc : on = true → c.interrupts = true) (hon : p.endsOn on = true)
    (hcli : q.has .cli = false) (hmust : q.must (.acquire l) = true) (hh : h ∈ handlers)
    (htakes : h.Acquires l) : ¬ Safe handlers c tr := by
  cases htr with
  | @seq _ _ s t hp hq =>
      intro hsafe
      exact not_safe_of_acquire (hp.endsOn hc hon) (hq.not_mem hcli) (hq.must hmust) hh htakes
        hsafe.drop

/-- A program that never masks interrupts and takes a lock of a handler at its
end: a path is safe exactly if it never enables interrupts. -/
theorem safe_iff_masked {l : L} {h : Prog L} (htr : PathOf (.seq p q) tr)
    (hc : c.interrupts = false) (hp : p.has .cli = false) (hq : q.has .cli = false)
    (hsti : q.has .sti = false) (hmust : q.must (.acquire l) = true) (hh : h ∈ handlers)
    (htakes : h.Acquires l) : Safe handlers c tr ↔ .sti ∉ tr := by
  refine ⟨fun hsafe hmem => ?_, fun hmem => safe_of_masked hc hmem⟩
  cases htr with
  | @seq _ _ s t hs ht =>
      -- interrupts were enabled before the last part, and stay so up to its lock
      have hfirst := (List.mem_append.mp hmem).resolve_right (ht.not_mem hsti)
      obtain ⟨s₁, s₂, rfl⟩ := List.append_of_mem hfirst
      rw [List.append_assoc, List.cons_append] at hsafe
      refine not_safe_of_acquire (c := exec c (s₁ ++ [.sti])) ?_ ?_
        (List.mem_append_right s₂ (ht.must hmust)) hh htakes ?_
      · rw [exec_append]
        rfl
      · rw [List.mem_append, not_or]
        refine ⟨fun hbad => hs.not_mem hp ?_, ht.not_mem hq⟩
        exact List.mem_append_right _ (List.mem_cons_of_mem _ hbad)
      · exact Safe.drop (s := s₁ ++ [.sti]) (by simpa using hsafe)

end

end Rockos.LockTrace
