import Rockos.FallibleState

/-!
# Two runs of one program

A program agrees on a relation between states if, started in related states, it
takes the same exit with the same result and ends in related states. It repeats
under the relation if a return, at least, can be had again from every related
state; for that the second state may be the better one. The rules follow the
control structures of `FallibleState`.
-/
namespace Rockos.TwoRuns
open FallibleState

variable {ε σ τ α β : Type}

inductive Paired (R : σ → σ → Prop) : EStateM.Result ε σ α → EStateM.Result ε σ α → Prop
  | ok (a : α) {s t : σ} : R s t → Paired R (.ok a s) (.ok a t)
  | error (e : ε) {s t : σ} : R s t → Paired R (.error e s) (.error e t)

def Agrees (R : σ → σ → Prop) (x : EStateM ε σ α) : Prop := ∀ s t, R s t → Paired R (x s) (x t)

section Rules
variable {R : σ → σ → Prop}

theorem Agrees.ok {x : EStateM ε σ α} (h : Agrees R x) {s t u : σ} {a : α} (hst : R s t)
    (hx : x s = .ok a u) : ∃ v, x t = .ok a v ∧ R u v := by
  have hpair := h s t hst
  rw [hx] at hpair
  generalize hr : x t = r at hpair
  cases hpair with
  | ok _ huv => exact ⟨_, rfl, huv⟩

theorem agrees_pure (a : α) : Agrees R (pure a : EStateM ε σ α) := fun _ _ h => .ok a h

theorem agrees_throw (e : ε) : Agrees R (throw e : EStateM ε σ α) := fun _ _ h => .error e h

theorem agrees_modify {f : σ → σ} (hf : ∀ s t, R s t → R (f s) (f t)) :
    Agrees R (modify f : EStateM ε σ Unit) := fun s t h => .ok () (hf s t h)

theorem agrees_bind {x : EStateM ε σ α} {f : α → EStateM ε σ β} (hx : Agrees R x)
    (hf : ∀ a, Agrees R (f a)) : Agrees R (x >>= f) := by
  intro s t hst
  have hpair := hx s t hst
  rw [bind_run, bind_run]
  generalize x s = r at hpair
  generalize x t = r' at hpair
  cases hpair with
  | ok a h => exact hf a _ _ h
  | error e h => exact .error e h

/-- What is read is the same in both runs, as far as the rest depends on it. -/
theorem agrees_get_bind {f : σ → EStateM ε σ β} (hf : ∀ s t, R s t → f t = f s)
    (h : ∀ s, Agrees R (f s)) : Agrees R (get >>= f) := by
  intro s t hst
  rw [bind_run, bind_run, get_run, get_run]
  simp only [hf s t hst]
  exact h s s t hst

theorem agrees_ite {c : Prop} [Decidable c] {x y : EStateM ε σ α} (hx : Agrees R x)
    (hy : Agrees R y) : Agrees R (if c then x else y) := by
  split_ifs
  · exact hx
  · exact hy

theorem agrees_countLoop {body : ℕ → β → EStateM ε σ β} (h : ∀ i c, Agrees R (body i c))
    (start count : ℕ) (b : β) : Agrees R (countLoop body start count b) := by
  induction count generalizing start b with
  | zero => exact agrees_pure b
  | succ n ih => exact agrees_bind (h start b) fun c => ih (start + 1) c

theorem agrees_attempt {caught : ε → Bool} {x : EStateM ε σ α} (hx : Agrees R x) :
    Agrees R (attempt caught x) := by
  intro s t hst
  have hpair := hx s t hst
  unfold attempt
  generalize x s = r at hpair
  generalize x t = r' at hpair
  cases hpair with
  | ok a h => exact .ok _ h
  | error e h =>
      cases hc : caught e with
      | true => simpa [hc] using Paired.ok none h
      | false => simpa [hc] using Paired.error e h

end Rules

theorem agrees_zoom {R : σ → σ → Prop} {S : τ → τ → Prop} {view : σ → τ} {put : τ → σ → σ}
    {x : EStateM ε τ α} (hx : Agrees S x) (hview : ∀ s t, R s t → S (view s) (view t))
    (hput : ∀ s t u v, R s t → S u v → R (put u s) (put v t)) : Agrees R (zoom view put x) := by
  intro s t hst
  have hpair := hx _ _ (hview s t hst)
  unfold zoom
  generalize x (view s) = r at hpair
  generalize x (view t) = r' at hpair
  cases hpair with
  | ok a h => exact .ok a (hput _ _ _ _ hst h)
  | error e h => exact .error e (hput _ _ _ _ hst h)

/-! ## Runs that can be repeated -/

def Repeats (R : σ → σ → Prop) (x : EStateM ε σ α) : Prop :=
  ∀ s t a u, R s t → x s = .ok a u → ∃ v, x t = .ok a v ∧ R u v

section Repeats
variable {R : σ → σ → Prop}

theorem Agrees.repeats {x : EStateM ε σ α} (h : Agrees R x) : Repeats R x :=
  fun _ _ _ _ hst hx => h.ok hst hx

theorem repeats_pure (a : α) : Repeats R (pure a : EStateM ε σ α) := (agrees_pure a).repeats

theorem repeats_throw (e : ε) : Repeats R (throw e : EStateM ε σ α) := (agrees_throw e).repeats

theorem repeats_bind {x : EStateM ε σ α} {f : α → EStateM ε σ β} (hx : Repeats R x)
    (hf : ∀ a, Repeats R (f a)) : Repeats R (x >>= f) := by
  intro s t b u hst hrun
  obtain ⟨a, s', hxs, hfs⟩ := bind_ok hrun
  obtain ⟨t', hxt, hst'⟩ := hx s t a s' hst hxs
  rw [bind_of_ok hxt]
  exact hf a s' t' b u hst' hfs

theorem repeats_ite {c : Prop} [Decidable c] {x y : EStateM ε σ α} (hx : c → Repeats R x)
    (hy : ¬c → Repeats R y) : Repeats R (if c then x else y) := by
  split_ifs with hc
  · exact hx hc
  · exact hy hc

theorem repeats_countLoop {body : ℕ → β → EStateM ε σ β} {start count : ℕ} (b : β)
    (h : ∀ i c, start ≤ i → i < start + count → Repeats R (body i c)) :
    Repeats R (countLoop body start count b) := by
  induction count generalizing start b with
  | zero => exact repeats_pure b
  | succ n ih =>
      refine repeats_bind (h start b le_rfl (by omega)) fun c => ih c ?_
      exact fun i d h₁ h₂ => h i d (by omega) (by omega)

end Repeats

end Rockos.TwoRuns
