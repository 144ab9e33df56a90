import Mathlib.Order.Defs.Unbundled
import Mathlib.Data.Finset.Card
import Mathlib.Data.Set.Basic
import Mathlib.Tactic

/-!
# Edits of a partial map

Two ways in which code may change a partial map without touching what others
rely on: adding entries at free keys of a given set, and removing entries at
keys of a given set. Both compose, so a loop of single edits is one edit. Then
the entries at a finite set of keys are counted. The last section is about maps
that are kept as association lists.
-/
namespace Rockos.MapEdits

variable {κ α : Type} {S T : Set κ} {good : α → Prop} {E E' : κ → Option α} {q : κ}

/-- Existing entries stay; new ones lie in `S` and are `good`. -/
def Adds (S : Set κ) (good : α → Prop) (E E' : κ → Option α) : Prop :=
  ∀ q, E' q = E q ∨ (q ∈ S ∧ E q = none ∧ ∃ a, E' q = some a ∧ good a)

/-- Entries outside `S` stay; those in `S` may go. -/
def Removes (S : Set κ) (E E' : κ → Option α) : Prop :=
  ∀ q, E' q = E q ∨ (q ∈ S ∧ E' q = none)

theorem Adds.refl (E : κ → Option α) : Adds S good E E := fun _ => .inl rfl

theorem Removes.refl (E : κ → Option α) : Removes S E E := fun _ => .inl rfl

theorem Adds.of_some (h : Adds S good E E') {a : α} (hq : E q = some a) : E' q = some a := by
  rcases h q with heq | ⟨-, hnone, -⟩
  · rw [heq, hq]
  · rw [hq] at hnone
    cases hnone

theorem Adds.isSome (h : Adds S good E E') (hq : (E q).isSome) : (E' q).isSome := by
  obtain ⟨a, ha⟩ := Option.isSome_iff_exists.mp hq
  rw [h.of_some ha]
  rfl

theorem Adds.outside (h : Adds S good E E') (hq : q ∉ S) : E' q = E q := by
  rcases h q with heq | ⟨hmem, -⟩
  · exact heq
  · exact absurd hmem hq

theorem Removes.outside (h : Removes S E E') (hq : q ∉ S) : E' q = E q := by
  rcases h q with heq | ⟨hmem, -⟩
  · exact heq
  · exact absurd hmem hq

theorem Removes.mono {T : Set κ} (h : Removes S E E') (hST : S ⊆ T) : Removes T E E' :=
  fun q => (h q).imp_right (And.imp_left fun hq => hST hq)

theorem Removes.of_some (h : Removes S E E') {a : α} (hq : E' q = some a) : E q = some a := by
  rcases h q with heq | ⟨-, hnone⟩
  · rw [← heq, hq]
  · rw [hq] at hnone
    cases hnone

variable [DecidableEq κ]

theorem Adds.update (h : Adds S good E E') (hq : q ∈ S) (hfree : E' q = none) {a : α}
    (ha : good a) : Adds S good E (Function.update E' q (some a)) := by
  intro r
  by_cases hr : r = q
  · subst hr
    have hE : E r = none := by
      cases hE : E r with
      | none => rfl
      | some b => rw [h.of_some hE] at hfree; cases hfree
    exact .inr ⟨hq, hE, a, Function.update_self .., ha⟩
  · rw [Function.update_of_ne hr]
    exact h r

theorem Removes.update (h : Removes S E E') (hq : q ∈ S) :
    Removes S E (Function.update E' q none) := by
  intro r
  by_cases hr : r = q
  · subst hr
    exact .inr ⟨hq, Function.update_self ..⟩
  · rw [Function.update_of_ne hr]
    exact h r

/-! ## Counting entries -/

section Count
variable {K : Finset κ}

/-- The number of keys of `K` that have an entry. -/
def filled (K : Finset κ) (E : κ → Option α) : ℕ := (K.filter fun q => (E q).isSome).card

theorem filled_update_some (hq : q ∈ K) (hfree : E q = none) (a : α) :
    filled K (Function.update E q (some a)) = filled K E + 1 := by
  have hset : (K.filter fun r => (Function.update E q (some a) r).isSome) =
      insert q (K.filter fun r => (E r).isSome) := by
    ext r
    by_cases hr : r = q
    · simp [hr, hq]
    · simp [hr]
  rw [filled, hset, Finset.card_insert_of_notMem (by simp [hfree]), filled]

theorem filled_update_outside (hq : q ∉ K) (o : Option α) :
    filled K (Function.update E q o) = filled K E := by
  refine congrArg Finset.card (Finset.filter_congr fun r hr => ?_)
  have hne : r ≠ q := by
    rintro rfl
    exact hq hr
  rw [Function.update_of_ne hne]

theorem filled_update_none (hq : q ∈ K) {a : α} (hfull : E q = some a) :
    filled K (Function.update E q none) + 1 = filled K E := by
  have hback : Function.update (Function.update E q none) q (some a) = E := by
    rw [Function.update_idem, ← hfull, Function.update_eq_self]
  rw [← filled_update_some hq (Function.update_self ..) a, hback]

end Count

/-! ## Association lists -/

section Assoc
variable {β : Type} [BEq κ] [LawfulBEq κ] (l : List (κ × β)) (key q : κ)

theorem lookup_cons_eq (k : κ) (b : β) :
    ((k, b) :: l).lookup q = if q = k then some b else l.lookup q := by
  rw [List.lookup_cons]
  by_cases hq : q = k
  · simp [hq]
  · simp [hq, beq_eq_false_iff_ne.mpr hq]

theorem lookup_filter_ne : (l.filter fun x => x.1 ≠ key).lookup q =
    if q = key then none else l.lookup q := by
  induction l with
  | nil => simp
  | cons x l ih =>
      obtain ⟨k, b⟩ := x
      rw [lookup_cons_eq]
      by_cases hk : k = key
      · rw [List.filter_cons_of_neg (by simpa using hk), ih, hk]
        split_ifs <;> rfl
      · rw [List.filter_cons_of_pos (by simpa using hk), lookup_cons_eq, ih]
        by_cases hq : q = k
        · rw [if_pos hq, if_pos hq, if_neg (hq ▸ hk)]
        · rw [if_neg hq, if_neg hq]

theorem lookup_map_at (f : β → β) :
    (l.map fun x => if x.1 = key then (key, f x.2) else x).lookup q =
      if q = key then (l.lookup q).map f else l.lookup q := by
  induction l with
  | nil => simp
  | cons x l ih =>
      obtain ⟨k, b⟩ := x
      rw [List.map_cons, lookup_cons_eq]
      by_cases hk : k = key
      · rw [if_pos hk, lookup_cons_eq, ih, hk]
        split_ifs <;> rfl
      · rw [if_neg hk, lookup_cons_eq, ih]
        by_cases hq : q = k
        · rw [if_pos hq, if_pos hq, if_neg (hq ▸ hk)]
        · rw [if_neg hq, if_neg hq]

end Assoc

end Rockos.MapEdits
