import Mathlib.Tactic

/-!
# Queues in which the front has the turn

The front of the queue is served. It keeps its turn, passes it on by going to
the back, or leaves; newcomers join at the back. How long an element waits is
measured by its place: it moves up by one each time the turn is passed on, and
at no other time.
-/
namespace Rockos.TurnQueue

variable {α : Type}

/-- What one step does to the queue; the flag tells whether the turn was passed on. -/
inductive Served (q : List α) : Bool → List α → Prop
  | keep (added : List α) : Served q false (q ++ added)
  | rotate (front : α) (rest added : List α) (hq : q = front :: rest) :
      Served q true (rest ++ added ++ [front])
  | leave (front : α) (q' : List α) (hq : q = front :: q') : Served q true q'

section Place
variable {b : α} {q q' : List α} {passed : Bool}

/-- Whoever does not have the turn stays in the queue. -/
theorem Served.mem (h : Served q passed q') (hb : b ∈ q) (hfront : q.head? ≠ some b) :
    b ∈ q' := by
  cases h with
  | keep added => exact List.mem_append_left added hb
  | rotate front rest added hq =>
      subst hq
      have hne : b ≠ front := fun heq => hfront (by rw [heq, List.head?_cons])
      have hrest : b ∈ rest := (List.mem_cons.mp hb).resolve_left hne
      simp [hrest]
  | leave front _ hq =>
      subst hq
      have hne : b ≠ front := fun heq => hfront (by rw [heq, List.head?_cons])
      exact (List.mem_cons.mp hb).resolve_left hne

/-- If somebody else is waiting, passing the turn on changes who has it. -/
theorem Served.head_ne (h : Served q true q') (hnodup : q.Nodup) (hb : b ∈ q)
    (hfront : q.head? ≠ some b) : q'.head? ≠ q.head? := by
  cases q with
  | nil => simp at hb
  | cons front rest =>
      have hne : b ≠ front := fun heq => hfront (by rw [heq, List.head?_cons])
      have hrest : b ∈ rest := (List.mem_cons.mp hb).resolve_left hne
      have hnot : front ∉ rest := (List.nodup_cons.mp hnodup).1
      -- the next in line is somebody of `rest`
      have hnext : rest.head? ≠ some front := fun heq => hnot (List.mem_of_head? heq)
      cases h with
      | rotate _ _ added hq =>
          cases hq
          cases rest with
          | nil => simp at hrest
          | cons c rest => exact hnext
      | leave _ _ hq =>
          cases hq
          exact hnext

variable [DecidableEq α]

/-- The place of whoever does not have the turn. -/
theorem Served.idxOf (h : Served q passed q') (hb : b ∈ q) (hfront : q.head? ≠ some b) :
    q'.idxOf b + passed.toNat = q.idxOf b := by
  cases h with
  | keep added => rw [List.idxOf_append_of_mem hb, Bool.toNat_false, Nat.add_zero]
  | rotate front rest added hq =>
      subst hq
      have hne : front ≠ b := fun heq => hfront (by rw [← heq, List.head?_cons])
      have hrest : b ∈ rest := (List.mem_cons.mp hb).resolve_left hne.symm
      rw [List.append_assoc, List.idxOf_append_of_mem hrest, List.idxOf_cons_ne rest hne,
        Bool.toNat_true]
  | leave front _ hq =>
      subst hq
      have hne : front ≠ b := fun heq => hfront (by rw [← heq, List.head?_cons])
      rw [List.idxOf_cons_ne q' hne, Bool.toNat_true]

theorem idxOf_pos (hb : b ∈ q) (hfront : q.head? ≠ some b) : 0 < q.idxOf b := by
  cases q with
  | nil => simp at hb
  | cons front rest =>
      have hne : front ≠ b := fun heq => hfront (by rw [← heq, List.head?_cons])
      rw [List.idxOf_cons_ne rest hne]
      exact Nat.succ_pos _

end Place

end Rockos.TurnQueue
