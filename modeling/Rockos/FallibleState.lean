import Mathlib.Order.Defs.Unbundled
import Mathlib.Tactic

/-!
# Programs with one state and two exits

`EStateM ε σ` keeps the state on a failure as well as on a return. That is the
behaviour of code which stops half way through a destructive loop: whatever the
loop had already done stays done. The rules below speak about both exits of a
program at once, so an invariant proved with them also holds in the states that
an early exit leaves behind.

Two notions are used throughout. `Meets` is a pre- and postcondition with a
separate postcondition for the failing exit. `Within` bounds the state change
of a program by a relation, whichever exit it takes; for a preorder it composes
over every control structure, so frame conditions need no case analysis.
-/
namespace Rockos.FallibleState

variable {ε σ τ α β : Type}

/-- The state at the exit that was taken. -/
def final : EStateM.Result ε σ α → σ
  | .ok _ s => s
  | .error _ s => s

@[simp] theorem final_ok (a : α) (s : σ) :
    final (.ok a s : EStateM.Result ε σ α) = s := rfl

@[simp] theorem final_error (e : ε) (s : σ) :
    final (.error e s : EStateM.Result ε σ α) = s := rfl

/-- Result and state of a program that returned. -/
def returned : EStateM.Result ε σ α → Option (α × σ)
  | .ok a s => some (a, s)
  | .error _ _ => none

theorem ok_of_returned {r : EStateM.Result ε σ α} {f : α × σ → β} {b : β}
    (h : (returned r).map f = some b) : ∃ a s, r = .ok a s ∧ f (a, s) = b := by
  cases r with
  | error e s => simp [returned] at h
  | ok a s => exact ⟨a, s, rfl, by simpa [returned] using h⟩

/-- Failure and state of a program that did not return. -/
def failed : EStateM.Result ε σ α → Option (ε × σ)
  | .ok _ _ => none
  | .error e s => some (e, s)

theorem error_of_failed {r : EStateM.Result ε σ α} {f : ε × σ → β} {b : β}
    (h : (failed r).map f = some b) : ∃ e s, r = .error e s ∧ f (e, s) = b := by
  cases r with
  | ok a s => simp [failed] at h
  | error e s => exact ⟨e, s, rfl, by simpa [failed] using h⟩

/-- Work on one component of a larger state. -/
def zoom (view : σ → τ) (put : τ → σ → σ) (x : EStateM ε τ α) : EStateM ε σ α := fun s =>
  match x (view s) with
  | .ok a t => .ok a (put t s)
  | .error e t => .error e (put t s)

/-- Turn the failures selected by `caught` into `none`; the state is kept as the
failing program left it. -/
def attempt (caught : ε → Bool) (x : EStateM ε σ α) : EStateM ε σ (Option α) := fun s =>
  match x s with
  | .ok a t => .ok (some a) t
  | .error e t => if caught e then .ok none t else .error e t

/-- A computation that only reads the state. -/
def inspect (f : σ → Except ε α) : EStateM ε σ α := fun s =>
  match f s with
  | .ok a => .ok a s
  | .error e => .error e s

/-- A counting loop with an accumulator: the body sees `start`, `start+1`, … -/
def countLoop (body : ℕ → β → EStateM ε σ β) : (start count : ℕ) → β → EStateM ε σ β
  | _, 0, b => pure b
  | i, n + 1, b => do
      let c ← body i b
      countLoop body (i + 1) n c

section Run
variable (s : σ)

@[simp] theorem pure_run (a : α) : (pure a : EStateM ε σ α) s = .ok a s := rfl

@[simp] theorem throw_run (e : ε) : (throw e : EStateM ε σ α) s = .error e s := rfl

@[simp] theorem get_run : (get : EStateM ε σ σ) s = .ok s s := rfl

@[simp] theorem modify_run (f : σ → σ) : (modify f : EStateM ε σ Unit) s = .ok () (f s) := rfl

theorem bind_run (x : EStateM ε σ α) (f : α → EStateM ε σ β) :
    (x >>= f) s = match x s with
      | .ok a t => f a t
      | .error e t => .error e t := rfl

theorem map_run (f : α → β) (x : EStateM ε σ α) :
    (f <$> x) s = match x s with
      | .ok a t => .ok (f a) t
      | .error e t => .error e t := rfl

end Run

theorem bind_of_ok {x : EStateM ε σ α} {s t : σ} {a : α} (h : x s = .ok a t)
    (f : α → EStateM ε σ β) : (x >>= f) s = f a t := by
  rw [bind_run, h]

theorem bind_of_error {x : EStateM ε σ α} {s t : σ} {e : ε} (h : x s = .error e t)
    (f : α → EStateM ε σ β) : (x >>= f) s = .error e t := by
  rw [bind_run, h]

/-- A program that returns has run all its parts. -/
theorem bind_ok {x : EStateM ε σ α} {f : α → EStateM ε σ β} {s u : σ} {b : β}
    (h : (x >>= f) s = .ok b u) : ∃ a t, x s = .ok a t ∧ f a t = .ok b u := by
  rw [bind_run] at h
  cases hx : x s with
  | error e t => simp [hx] at h
  | ok a t => exact ⟨a, t, rfl, by simpa [hx] using h⟩

theorem inspect_ok {f : σ → Except ε α} {s t : σ} {a : α} (h : inspect f s = .ok a t) :
    f s = .ok a ∧ t = s := by
  rw [inspect] at h
  cases hf : f s with
  | error e => simp [hf] at h
  | ok b =>
      simp only [hf, EStateM.Result.ok.injEq] at h
      exact ⟨by rw [h.1], h.2.symm⟩

theorem inspect_of_toOption {f : σ → Except ε α} {s : σ} {a : α} (h : (f s).toOption = some a) :
    inspect f s = .ok a s := by
  rw [inspect]
  cases hf : f s with
  | error e => simp [hf, Except.toOption] at h
  | ok b =>
      simp only [hf, Except.toOption, Option.some.injEq] at h
      rw [h]

theorem inspect_bind_ok {f : σ → Except ε α} {g : α → EStateM ε σ β} {s t : σ} {b : β}
    (h : (inspect f >>= g) s = .ok b t) : ∃ a, f s = .ok a ∧ g a s = .ok b t := by
  obtain ⟨a, u, hf, hg⟩ := bind_ok h
  obtain ⟨ha, rfl⟩ := inspect_ok hf
  exact ⟨a, ha, hg⟩

theorem except_bind_ok {x : Except ε α} {f : α → Except ε β} {b : β} (h : x >>= f = .ok b) :
    ∃ a, x = .ok a ∧ f a = .ok b := by
  cases x with
  | error e => simp [bind, Except.bind] at h
  | ok a => exact ⟨a, rfl, h⟩

/-- `Q` holds at a return and `E` at a failure. -/
def Meets (P : σ → Prop) (x : EStateM ε σ α) (Q : α → σ → Prop) (E : ε → σ → Prop) : Prop :=
  ∀ s, P s → match x s with
    | .ok a t => Q a t
    | .error e t => E e t

section Rules
variable {P P' : σ → Prop} {Q Q' : α → σ → Prop} {E E' : ε → σ → Prop}

theorem Meets.mono {x : EStateM ε σ α} (h : Meets P x Q E) (hP : ∀ s, P' s → P s)
    (hQ : ∀ a s, Q a s → Q' a s) (hE : ∀ e s, E e s → E' e s) : Meets P' x Q' E' := by
  intro s hs
  have hx := h s (hP s hs)
  cases hr : x s with
  | ok a t =>
      rw [hr] at hx
      exact hQ a t hx
  | error e t =>
      rw [hr] at hx
      exact hE e t hx

theorem Meets.and {x : EStateM ε σ α} (h : Meets P x Q E) (h' : Meets P' x Q' E') :
    Meets (fun s => P s ∧ P' s) x (fun a s => Q a s ∧ Q' a s) (fun e s => E e s ∧ E' e s) := by
  intro s hs
  have hx := h s hs.1
  have hx' := h' s hs.2
  cases hr : x s with
  | ok a t =>
      rw [hr] at hx hx'
      exact ⟨hx, hx'⟩
  | error e t =>
      rw [hr] at hx hx'
      exact ⟨hx, hx'⟩

theorem Meets.returns {x : EStateM ε σ α} (h : Meets P x Q fun _ _ => False) {s : σ} (hs : P s) :
    ∃ a t, x s = .ok a t ∧ Q a t := by
  have hx := h s hs
  cases hr : x s with
  | ok a t => exact ⟨a, t, rfl, by rwa [hr] at hx⟩
  | error e t =>
      rw [hr] at hx
      exact hx.elim

theorem Meets.fails {x : EStateM ε σ α} (h : Meets P x (fun _ _ => False) E) {s : σ} (hs : P s) :
    ∃ e t, x s = .error e t ∧ E e t := by
  have hx := h s hs
  cases hr : x s with
  | ok a t =>
      rw [hr] at hx
      exact hx.elim
  | error e t => exact ⟨e, t, rfl, by rwa [hr] at hx⟩

theorem Meets.ok {x : EStateM ε σ α} (h : Meets P x Q E) {s t : σ} {a : α} (hs : P s)
    (hr : x s = .ok a t) : Q a t := by
  have hx := h s hs
  rwa [hr] at hx

theorem Meets.error {x : EStateM ε σ α} (h : Meets P x Q E) {s t : σ} {e : ε} (hs : P s)
    (hr : x s = .error e t) : E e t := by
  have hx := h s hs
  rwa [hr] at hx

/-- One postcondition for both exits. -/
theorem Meets.both {x : EStateM ε σ α} {T : σ → Prop} (h : Meets P x (fun _ => T) fun _ => T)
    {s : σ} (hs : P s) : T (final (x s)) := by
  have hx := h s hs
  cases hr : x s with
  | ok a t => rwa [hr] at hx
  | error e t => rwa [hr] at hx

theorem meets_pure (a : α) (h : ∀ s, P s → Q a s) :
    Meets P (pure a : EStateM ε σ α) Q E := fun s hs => h s hs

theorem meets_throw (e : ε) (h : ∀ s, P s → E e s) :
    Meets P (throw e : EStateM ε σ α) Q E := fun s hs => h s hs

theorem meets_get {R : σ → σ → Prop} (h : ∀ s, P s → R s s) :
    Meets P (get : EStateM ε σ σ) R E := fun s hs => h s hs

theorem meets_modify (f : σ → σ) {R : Unit → σ → Prop} (h : ∀ s, P s → R () (f s)) :
    Meets P (modify f : EStateM ε σ Unit) R E := fun s hs => h s hs

theorem meets_bind {x : EStateM ε σ α} {f : α → EStateM ε σ β} {R : β → σ → Prop}
    (hx : Meets P x Q E) (hf : ∀ a, Meets (Q a) (f a) R E) : Meets P (x >>= f) R E := by
  intro s hs
  have hr := hx s hs
  rw [bind_run]
  cases hxs : x s with
  | ok a t =>
      rw [hxs] at hr
      exact hf a t hr
  | error e t =>
      rw [hxs] at hr
      exact hr

theorem meets_ite {c : Prop} [Decidable c] {x y : EStateM ε σ α}
    (hx : c → Meets P x Q E) (hy : ¬c → Meets P y Q E) :
    Meets P (if c then x else y) Q E := by
  split_ifs with h
  · exact hx h
  · exact hy h

/-- The loop invariant is indexed by the number the body is about to see. -/
theorem meets_countLoop {body : ℕ → β → EStateM ε σ β} (I : ℕ → β → σ → Prop)
    (start count : ℕ) (b : β)
    (h : ∀ i c, start ≤ i → i < start + count →
      Meets (I i c) (body i c) (fun d => I (i + 1) d) E) :
    Meets (I start b) (countLoop body start count b) (fun c => I (start + count) c) E := by
  induction count generalizing start b with
  | zero => exact meets_pure b (fun s hs => hs)
  | succ n ih =>
      refine meets_bind (h start b le_rfl (by omega)) ?_
      intro c
      have hrest := ih (start + 1) c (fun i d h₁ h₂ => h i d (by omega) (by omega))
      rwa [show start + 1 + n = start + (n + 1) by omega] at hrest

end Rules

/-- The invariant of a loop that returned, from steps that returned. -/
theorem countLoop_ok {body : ℕ → β → EStateM ε σ β} (I : ℕ → β → σ → Prop) {start count : ℕ}
    {b c : β} {s t : σ} (h : countLoop body start count b s = .ok c t) (hs : I start b s)
    (hbody : ∀ i b s c t, start ≤ i → i < start + count → I i b s → body i b s = .ok c t →
      I (i + 1) c t) : I (start + count) c t := by
  induction count generalizing start b s with
  | zero =>
      obtain ⟨rfl, rfl⟩ := EStateM.Result.ok.inj h
      exact hs
  | succ n ih =>
      obtain ⟨d, u, hd, hrest⟩ := bind_ok h
      rw [show start + (n + 1) = start + 1 + n by omega]
      exact ih hrest (hbody start b s d u le_rfl (by omega) hs hd)
        fun i b s c t h₁ h₂ => hbody i b s c t (by omega) (by omega)

/-- The state change of either exit lies in `R`. -/
def Within (R : σ → σ → Prop) (x : EStateM ε σ α) : Prop := ∀ s, R s (final (x s))

theorem Within.ok {R : σ → σ → Prop} {x : EStateM ε σ α} (h : Within R x) {s t : σ} {a : α}
    (hr : x s = .ok a t) : R s t := by
  have hx := h s
  rwa [hr] at hx

theorem Within.error {R : σ → σ → Prop} {x : EStateM ε σ α} (h : Within R x) {s t : σ} {e : ε}
    (hr : x s = .error e t) : R s t := by
  have hx := h s
  rwa [hr] at hx

theorem Within.mono {R S : σ → σ → Prop} {x : EStateM ε σ α} (h : Within R x)
    (hRS : ∀ s t, R s t → S s t) : Within S x := fun s => hRS _ _ (h s)

/-- A predicate that survives. -/
def Keeps (I : σ → Prop) (s t : σ) : Prop := I s → I t

instance (I : σ → Prop) : IsPreorder σ (Keeps I) where
  refl _ h := h
  trans _ _ _ h k hs := k (h hs)

theorem within_keeps_of_meets {I : σ → Prop} {x : EStateM ε σ α}
    (h : Meets I x (fun _ => I) (fun _ => I)) : Within (Keeps I) x := fun _ hs => h.both hs

theorem Within.meets {I : σ → Prop} {x : EStateM ε σ α} (h : Within (Keeps I) x) :
    Meets I x (fun _ => I) (fun _ => I) := by
  intro s hs
  have hx := h s hs
  cases hr : x s with
  | ok a t => rwa [hr] at hx
  | error e t => rwa [hr] at hx

/-- What is read satisfies the predicate. -/
theorem within_keeps_get {I : σ → Prop} {f : σ → EStateM ε σ α}
    (h : ∀ s, I s → Within (Keeps I) (f s)) : Within (Keeps I) (get >>= f) :=
  fun s hs => h s hs s hs

theorem within_modify {R : σ → σ → Prop} (f : σ → σ) (h : ∀ s, R s (f s)) :
    Within R (modify f : EStateM ε σ Unit) := h

theorem within_ite {R : σ → σ → Prop} {c : Prop} [Decidable c] {x y : EStateM ε σ α}
    (hx : Within R x) (hy : Within R y) : Within R (if c then x else y) := by
  split_ifs
  · exact hx
  · exact hy

theorem within_attempt {R : σ → σ → Prop} {caught : ε → Bool} {x : EStateM ε σ α}
    (hx : Within R x) :
    Within R (attempt caught x) := by
  intro s
  unfold attempt
  cases hr : x s with
  | ok a t => exact hx.ok hr
  | error e t =>
      cases hc : caught e with
      | true => simpa [hc] using hx.error hr
      | false => simpa [hc] using hx.error hr

section Preorder
variable {R : σ → σ → Prop} [IsPreorder σ R]

theorem within_pure (a : α) : Within R (pure a : EStateM ε σ α) := fun s => refl s

theorem within_throw (e : ε) : Within R (throw e : EStateM ε σ α) := fun s => refl s

theorem within_get : Within R (get : EStateM ε σ σ) := fun s => refl s

theorem within_inspect (f : σ → Except ε α) : Within R (inspect f) := by
  intro s
  unfold inspect
  cases f s with
  | ok a => exact refl s
  | error e => exact refl s

theorem within_bind {x : EStateM ε σ α} {f : α → EStateM ε σ β}
    (hx : Within R x) (hf : ∀ a, Within R (f a)) : Within R (x >>= f) := by
  intro s
  rw [bind_run]
  cases hr : x s with
  | ok a t => exact IsTrans.trans _ _ _ (hx.ok hr) (hf a t)
  | error e t => exact hx.error hr

/-- What is known of the first part may be known in one state only. -/
theorem within_bind_at {x : EStateM ε σ α} {f : α → EStateM ε σ β} {s : σ}
    (hx : R s (final (x s))) (hf : ∀ a, Within R (f a)) : R s (final ((x >>= f) s)) := by
  rw [bind_run]
  cases hrun : x s with
  | error e t =>
      rw [hrun] at hx
      exact hx
  | ok a t =>
      rw [hrun] at hx
      exact IsTrans.trans _ _ _ hx (hf a t)

/-- A program that stays within the relation can be put after whatever does. -/
theorem Within.continues {x : EStateM ε σ α} (h : Within R x) (s : σ) :
    Meets (R s) x (fun _ => R s) (fun _ => R s) := by
  intro t ht
  cases hr : x t with
  | ok a u => exact IsTrans.trans _ _ _ ht (h.ok hr)
  | error e u => exact IsTrans.trans _ _ _ ht (h.error hr)

theorem within_countLoop {body : ℕ → β → EStateM ε σ β}
    (h : ∀ i c, Within R (body i c)) (start count : ℕ) (b : β) :
    Within R (countLoop body start count b) := by
  induction count generalizing start b with
  | zero => exact within_pure b
  | succ n ih => exact within_bind (h start b) fun c => ih (start + 1) c

/-- The body is only known to stay within the relation for the indices of the loop. -/
theorem within_countLoop_range {body : ℕ → β → EStateM ε σ β} (start count : ℕ) (b : β)
    (h : ∀ i c, start ≤ i → i < start + count → Within R (body i c)) :
    Within R (countLoop body start count b) := by
  induction count generalizing start b with
  | zero => exact within_pure b
  | succ count ih =>
      refine within_bind (h start b le_rfl (by omega)) fun c => ?_
      exact ih (start + 1) c fun i d hlo hhi => h i d (by omega) (by omega)

end Preorder

theorem within_zoom {R : σ → σ → Prop} {view : σ → τ} {put : τ → σ → σ} {S : τ → τ → Prop}
    {x : EStateM ε τ α} (hx : Within S x) (h : ∀ s t, S (view s) t → R s (put t s)) :
    Within R (zoom view put x) := by
  intro s
  unfold zoom
  cases hr : x (view s) with
  | ok a t => exact h s t (hx.ok hr)
  | error e t => exact h s t (hx.error hr)

/-- Every relation holds after a component was edited, if nothing but the
component matters to it. -/
theorem within_zoom_of_put {R : σ → σ → Prop} {view : σ → τ} {put : τ → σ → σ}
    (x : EStateM ε τ α) (h : ∀ s t, R s (put t s)) : Within R (zoom view put x) :=
  within_zoom (S := fun _ _ => True) (fun _ => trivial) (fun s t _ => h s t)

/-! ## Results -/

/-- Whatever the program returns satisfies `P`, from any state. -/
def Yields (P : α → Prop) (x : EStateM ε σ α) : Prop := ∀ s a t, x s = .ok a t → P a

theorem yields_pure {P : α → Prop} {a : α} (h : P a) : Yields P (pure a : EStateM ε σ α) := by
  intro s b t hrun
  cases hrun
  exact h

theorem yields_throw (P : α → Prop) (e : ε) : Yields P (throw e : EStateM ε σ α) := by
  intro s b t hrun
  cases hrun

theorem yields_bind {P : β → Prop} {Q : α → Prop} {x : EStateM ε σ α} {f : α → EStateM ε σ β}
    (hx : Yields Q x) (hf : ∀ a, Q a → Yields P (f a)) : Yields P (x >>= f) := by
  intro s b u hrun
  obtain ⟨a, t, hxs, hrest⟩ := bind_ok hrun
  exact hf a (hx s a t hxs) t b u hrest

/-- Only the last part of a sequence matters. -/
theorem yields_last {P : β → Prop} {x : EStateM ε σ α} {f : α → EStateM ε σ β}
    (hf : ∀ a, Yields P (f a)) : Yields P (x >>= f) :=
  yields_bind (Q := fun _ => True) (fun _ _ _ _ => trivial) fun a _ => hf a

theorem yields_ite {P : α → Prop} {c : Prop} [Decidable c] {x y : EStateM ε σ α}
    (hx : c → Yields P x) (hy : ¬c → Yields P y) : Yields P (if c then x else y) := by
  split_ifs with h
  · exact hx h
  · exact hy h

end Rockos.FallibleState
