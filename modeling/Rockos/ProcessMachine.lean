import Mathlib.Logic.Function.Basic
import Mathlib.Tactic

/-!
# Processes that take turns

What the process calls are for, without slots, kernel stacks and saved contexts:
a process is known by its pid, it has a parent and, once it has exited, a
status. The live processes stand in the order of their turns, and the first of
them acts. It may fork, exit, reap one of its children that has exited, give up
its turn, or do something that concerns no process.
-/
namespace Rockos.ProcessMachine

structure ProcessEntry where
  parent : Option ℕ
  status : Option Int32
  deriving DecidableEq

@[ext] structure Processes where
  entry : ℕ → Option ProcessEntry
  turns : List ℕ

/-- The first process, alone. -/
def Processes.start : Processes where
  entry := Function.update (fun _ => none) 1 (some ⟨none, none⟩)
  turns := [1]

inductive ProcessAction where
  | other
  | yield
  | fork (child : ℕ)
  | reap (child : ℕ) (status : Int32)
  | exit (status : Int32)
  deriving DecidableEq

/-- The first in line keeps its turn or goes to the end. -/
def MayPass (q q' : List ℕ) : Prop := q' = q ∨ ∃ me rest, q = me :: rest ∧ q' = rest ++ [me]

/-- The pid a new process gets: the least from 2 on that is not in use. -/
structure NextPid (s : Processes) (pid : ℕ) : Prop where
  unused : s.entry pid = none
  two_le : 2 ≤ pid
  least : ∀ q, 2 ≤ q → q < pid → s.entry q ≠ none

/-- `me` acts. Whether a process that does not yield keeps its turn is left
open, since the clock decides it. -/
inductive Step (s : Processes) : ℕ → ProcessAction → Processes → Prop
  | other (me : ℕ) (rest turns : List ℕ) (hme : s.turns = me :: rest)
      (hturns : MayPass s.turns turns) : Step s me .other ⟨s.entry, turns⟩
  | yield (me : ℕ) (rest : List ℕ) (hme : s.turns = me :: rest) :
      Step s me .yield ⟨s.entry, rest ++ [me]⟩
  | fork (me : ℕ) (rest : List ℕ) (child : ℕ) (hme : s.turns = me :: rest)
      (hchild : NextPid s child) :
      Step s me (.fork child)
        ⟨Function.update s.entry child (some ⟨some me, none⟩), rest ++ [child] ++ [me]⟩
  | reap (me : ℕ) (rest turns : List ℕ) (child : ℕ) (status : Int32) (hme : s.turns = me :: rest)
      (hchild : s.entry child = some ⟨some me, some status⟩) (hturns : MayPass s.turns turns) :
      Step s me (.reap child status) ⟨Function.update s.entry child none, turns⟩
  | exit (me : ℕ) (rest : List ℕ) (parent : Option ℕ) (status : Int32)
      (hme : s.turns = me :: rest) (halive : s.entry me = some ⟨parent, none⟩) :
      Step s me (.exit status)
        ⟨Function.update s.entry me (some ⟨parent, some status⟩), rest⟩

inductive Path : Processes → List (ℕ × ProcessAction) → Processes → Prop
  | done (s : Processes) : Path s [] s
  | step {s s₁ s' : Processes} {me : ℕ} {a : ProcessAction} {as : List (ℕ × ProcessAction)} :
      Step s me a s₁ → Path s₁ as s' → Path s ((me, a) :: as) s'

section
variable {s s' : Processes} {me pid : ℕ} {a : ProcessAction}

/-- An entry changes only by its own exit and by its parent's wait. -/
theorem Step.entry_kept (h : Step s me a s') {e : ProcessEntry} (he : s.entry pid = some e) :
    s'.entry pid = some e ∨ (me = pid ∧ ∃ status, a = .exit status) ∨
      (e.parent = some me ∧ ∃ status, e.status = some status ∧ a = .reap pid status) := by
  cases h with
  | other rest turns hme hturns => exact .inl he
  | yield rest hme => exact .inl he
  | fork rest child hme hchild =>
      have hne : pid ≠ child := by
        intro heq
        rw [heq, hchild.unused] at he
        cases he
      exact .inl (by simpa [Function.update_of_ne hne] using he)
  | reap rest turns child status hme hchild hturns =>
      by_cases hpid : pid = child
      · subst hpid
        rw [hchild, Option.some.injEq] at he
        rw [← he]
        exact .inr (.inr ⟨rfl, status, rfl, rfl⟩)
      · exact .inl (by simpa [Function.update_of_ne hpid] using he)
  | exit rest parent status hme halive =>
      by_cases hpid : pid = me
      · exact .inr (.inl ⟨hpid.symm, status, rfl⟩)
      · exact .inl (by simpa [Function.update_of_ne hpid] using he)

end

end Rockos.ProcessMachine
