import Mathlib.Order.Defs.Unbundled
import Mathlib.Tactic

/-!
# Finite runs of a step function with outputs

A step consumes one input and either produces an output together with the next
state, or stops. A run keeps the transcript of its inputs and outputs, so a
statement about an output can name the point of the run at which it appeared.
-/
namespace Rockos.Runs

variable {σ ι ο : Type}

inductive Run (step : ι → σ → Option (ο × σ)) : σ → List (ι × ο) → σ → Prop
  | done (s : σ) : Run step s [] s
  | step {s t u : σ} {i : ι} {o : ο} {tr : List (ι × ο)} :
      step i s = some (o, t) → Run step t tr u → Run step s ((i, o) :: tr) u

variable {step : ι → σ → Option (ο × σ)}

theorem Run.single {s t : σ} {i : ι} {o : ο} (h : step i s = some (o, t)) :
    Run step s [(i, o)] t := .step h (.done t)

theorem Run.append {s t u : σ} {tr tr' : List (ι × ο)} (h : Run step s tr t)
    (k : Run step t tr' u) : Run step s (tr ++ tr') u := by
  induction h with
  | done s => exact k
  | step hs _ ih => exact .step hs (ih k)

theorem Run.snoc {s t u : σ} {tr : List (ι × ο)} {i : ι} {o : ο} (h : Run step s tr t)
    (k : step i t = some (o, u)) : Run step s (tr ++ [(i, o)]) u :=
  h.append (.single k)

theorem Run.cons_inv {s u : σ} {i : ι} {o : ο} {tr : List (ι × ο)}
    (h : Run step s ((i, o) :: tr) u) : ∃ t, step i s = some (o, t) ∧ Run step t tr u := by
  cases h with
  | step hs hr => exact ⟨_, hs, hr⟩

/-- What one step preserves, a run preserves. -/
theorem Run.invariant {I : σ → Prop}
    (hstep : ∀ i s o t, step i s = some (o, t) → I s → I t)
    {s u : σ} {tr : List (ι × ο)} (h : Run step s tr u) (hs : I s) : I u := by
  induction h with
  | done _ => exact hs
  | step hst _ ih => exact ih (hstep _ _ _ _ hst hs)

/-- An invariant may relate the state to the transcript so far. -/
theorem Run.history {J : List (ι × ο) → σ → Prop} {s u : σ} {tr : List (ι × ο)}
    (h : Run step s tr u) (hs : J [] s)
    (hstep : ∀ tr i x o t, J tr x → step i x = some (o, t) → J (tr ++ [(i, o)]) t) : J tr u := by
  -- Induction on the rest of the run, with what went before as a parameter.
  suffices hall : ∀ before, J before s → J (before ++ tr) u from hall [] hs
  clear hs
  induction h with
  | done _ =>
      intro before hbefore
      rwa [List.append_nil]
  | @step s t _ i o tr hst _ ih =>
      intro before hbefore
      have hrest := ih (before ++ [(i, o)]) (hstep before i s o t hbefore hst)
      rwa [List.append_assoc] at hrest

/-- The run takes the input `i` in the state `x` and gets to `y`. -/
def Takes (step : ι → σ → Option (ο × σ)) (s : σ) (tr : List (ι × ο)) (x : σ) (i : ι) (y : σ) :
    Prop :=
  ∃ tr₁ o tr₂, tr = tr₁ ++ (i, o) :: tr₂ ∧ Run step s tr₁ x ∧ step i x = some (o, y)

/-- The steps that preserve the invariant may depend on the run. -/
theorem Run.invariant_taken {I : σ → Prop} {s u : σ} {tr : List (ι × ο)} (h : Run step s tr u)
    (hs : I s) (hstep : ∀ x i y, Takes step s tr x i y → I x → I y) : I u := by
  induction h with
  | done _ => exact hs
  | @step s t _ i o tr hst hrun ih =>
      refine ih (hstep s i t ⟨[], o, tr, rfl, .done s, hst⟩ hs) ?_
      rintro x j y ⟨tr₁, o', tr₂, rfl, hx, hy⟩
      exact hstep x j y ⟨(i, o) :: tr₁, o', tr₂, rfl, .step hst hx, hy⟩

theorem Takes.extend {s : σ} {tr tr' : List (ι × ο)} {x y : σ} {i : ι}
    (h : Takes step s tr x i y) : Takes step s (tr ++ tr') x i y := by
  obtain ⟨tr₁, o, tr₂, rfl, hx, hy⟩ := h
  exact ⟨tr₁, o, tr₂ ++ tr', by simp, hx, hy⟩

theorem takes_cons {s t x y : σ} {i j : ι} {o : ο} {tr : List (ι × ο)}
    (hst : step i s = some (o, t)) (h : Takes step s ((i, o) :: tr) x j y) :
    (j = i ∧ x = s) ∨ Takes step t tr x j y := by
  obtain ⟨tr₁, o', tr₂, htr, hx, hy⟩ := h
  cases hx with
  | done _ =>
      simp only [List.nil_append, List.cons.injEq, Prod.mk.injEq] at htr
      exact .inl ⟨htr.1.1.symm, rfl⟩
  | @step _ t' _ i' o'' tr₁ hst' hrest =>
      simp only [List.cons_append, List.cons.injEq, Prod.mk.injEq] at htr
      obtain ⟨⟨rfl, rfl⟩, rfl⟩ := htr
      rw [hst] at hst'
      obtain ⟨-, rfl⟩ : o = o ∧ t = t' := by simpa using hst'
      exact .inr ⟨tr₁, o', tr₂, rfl, hrest, hy⟩

theorem takes_nil {s x y : σ} {j : ι} (h : Takes step s [] x j y) : False := by
  obtain ⟨tr₁, o, tr₂, htr, -⟩ := h
  simp at htr

theorem takes_singleton {s x y : σ} {i j : ι} {o : ο} (h : Takes step s [(i, o)] x j y) :
    j = i ∧ x = s := by
  obtain ⟨tr₁, o', tr₂, htr, hx, -⟩ := h
  cases tr₁ with
  | cons a tr₁ => simp at htr
  | nil =>
      cases hx
      simp only [List.nil_append, List.cons.injEq, Prod.mk.injEq] at htr
      exact ⟨htr.1.1.symm, rfl⟩

/-- The part of the run up to and including the step. -/
theorem Takes.run_to {s : σ} {tr : List (ι × ο)} {x y : σ} {i : ι}
    (h : Takes step s tr x i y) : ∃ tr₁ tr₂, tr = tr₁ ++ tr₂ ∧ Run step s tr₁ y := by
  obtain ⟨tr₁, o, tr₂, rfl, hx, hy⟩ := h
  exact ⟨tr₁ ++ [(i, o)], tr₂, by simp, hx.snoc hy⟩

/-- Take the inputs one after the other. -/
def replay (step : ι → σ → Option (ο × σ)) : List ι → σ → Option (List (ι × ο) × σ)
  | [], s => some ([], s)
  | i :: is, s => do
      let (o, t) ← step i s
      let (tr, u) ← replay step is t
      pure ((i, o) :: tr, u)

theorem replay_step {i : ι} {is : List ι} {s t u : σ} {o : ο} {tr : List (ι × ο)}
    (hstep : step i s = some (o, t)) (hrest : replay step is t = some (tr, u)) :
    replay step (i :: is) s = some ((i, o) :: tr, u) := by
  simp only [replay, hstep, hrest, Option.bind_eq_bind, Option.bind_some, Option.pure_def]

theorem replay_append {is js : List ι} {s t u : σ} {tr tr' : List (ι × ο)}
    (h : replay step is s = some (tr, t)) (h' : replay step js t = some (tr', u)) :
    replay step (is ++ js) s = some (tr ++ tr', u) := by
  induction is generalizing s tr with
  | nil =>
      simp only [replay, Option.some.injEq, Prod.mk.injEq] at h
      rw [← h.1, h.2]
      exact h'
  | cons i is ih =>
      simp only [replay, Option.bind_eq_bind, Option.bind_eq_some_iff, Option.pure_def,
        Option.some.injEq, Prod.mk.injEq] at h
      obtain ⟨⟨o, mid⟩, hstep, ⟨tr₁, t₁⟩, hrest, rfl, rfl⟩ := h
      exact replay_step hstep (ih hrest)

/-- A replay of which only `f` is known, with its first step taken off. -/
theorem replay_cons {β : Type} {i : ι} {is : List ι} {s : σ} {f : List (ι × ο) × σ → β} {b : β}
    (h : (replay step (i :: is) s).map f = some b) : ∃ o t, step i s = some (o, t) ∧
      (replay step is t).map (fun x => f ((i, o) :: x.1, x.2)) = some b := by
  obtain ⟨⟨tr, u⟩, hreplay, hf⟩ := Option.map_eq_some_iff.mp h
  simp only [replay, Option.bind_eq_bind, Option.bind_eq_some_iff, Option.pure_def,
    Option.some.injEq, Prod.mk.injEq] at hreplay
  obtain ⟨⟨o, t⟩, hstep, ⟨tr', u'⟩, hrest, rfl, rfl⟩ := hreplay
  exact ⟨o, t, hstep, by rw [hrest]; exact congrArg some hf⟩

theorem Run.of_replay {is : List ι} {s u : σ} {tr : List (ι × ο)}
    (h : replay step is s = some (tr, u)) : Run step s tr u := by
  induction is generalizing s tr with
  | nil =>
      simp only [replay, Option.some.injEq, Prod.mk.injEq] at h
      obtain ⟨rfl, rfl⟩ := h
      exact .done s
  | cons i is ih =>
      simp only [replay, Option.bind_eq_bind, Option.bind_eq_some_iff, Option.pure_def,
        Option.some.injEq, Prod.mk.injEq] at h
      obtain ⟨⟨o, t⟩, hstep, ⟨tr', u'⟩, hrest, rfl, rfl⟩ := h
      exact .step hstep (ih hrest)

/-! ## Observed runs -/

variable {γ : Type}

/-- Carry along a value that the step does not look at. -/
def observed (step : ι → σ → Option (ο × σ)) (note : ι → σ → σ → γ → γ) (i : ι) (x : σ × γ) :
    Option (ο × σ × γ) :=
  (step i x.1).map fun y => (y.1, y.2, note i x.1 y.2 x.2)

variable {note : ι → σ → σ → γ → γ}

theorem observed_eq_some {i : ι} {x y : σ × γ} {o : ο} :
    observed step note i x = some (o, y) ↔
      step i x.1 = some (o, y.1) ∧ y.2 = note i x.1 y.1 x.2 := by
  obtain ⟨t, d⟩ := y
  simp only [observed, Option.map_eq_some_iff, Prod.mk.injEq]
  constructor
  · rintro ⟨⟨o', t'⟩, hstep, rfl, rfl, rfl⟩
    exact ⟨hstep, rfl⟩
  · rintro ⟨hstep, rfl⟩
    exact ⟨(o, t), hstep, rfl, rfl, rfl⟩

/-- Every run can be observed, whatever is noted at the start. -/
theorem Run.observe {s u : σ} {tr : List (ι × ο)} (h : Run step s tr u) (c : γ) :
    ∃ d, Run (observed step note) (s, c) tr (u, d) := by
  induction h generalizing c with
  | done s => exact ⟨c, .done _⟩
  | @step s t _ i _ _ hstep _ ih =>
      obtain ⟨d, hrun⟩ := ih (note i s t c)
      exact ⟨d, .step (observed_eq_some.mpr ⟨hstep, rfl⟩) hrun⟩

theorem Run.forget {x y : σ × γ} {tr : List (ι × ο)} (h : Run (observed step note) x tr y) :
    Run step x.1 tr y.1 := by
  induction h with
  | done x => exact .done x.1
  | step hstep _ ih => exact .step (observed_eq_some.mp hstep).1 ih

end Rockos.Runs
