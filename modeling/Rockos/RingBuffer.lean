import Mathlib.Data.Nat.ModEq
import Mathlib.Tactic

/-!
# Ring buffers that keep one slot free

A buffer of `n` slots with two wrapping indices: the oldest element sits at
`head`, the next one goes to `tail`. Equal indices mean an empty buffer, so at
most `n - 1` elements can be pending. `RingHolds` describes the slots from `head`
on by the list of the pending elements and says nothing about the others.
-/
namespace Rockos.RingBuffer

variable {α : Type} {n : ℕ}

/-- The slot `i` places after `head`. -/
def slot (n head i : ℕ) : ℕ := (head + i) % n

theorem slot_zero {head : ℕ} (h : head < n) : slot n head 0 = head := Nat.mod_eq_of_lt h

theorem slot_lt {head : ℕ} (h : head < n) (i : ℕ) : slot n head i < n :=
  Nat.mod_lt _ (Nat.zero_lt_of_lt h)

/-- Advancing the last index. -/
theorem slot_succ (head i : ℕ) : (slot n head i + 1) % n = slot n head (i + 1) := by
  rw [slot, slot, Nat.mod_add_mod, Nat.add_assoc]

/-- Advancing the head moves every place by one. -/
theorem slot_advance (head i : ℕ) : slot n ((head + 1) % n) i = slot n head (i + 1) := by
  rw [slot, slot, Nat.mod_add_mod]
  congr 1
  omega

/-- Within one turn of the buffer, places and slots correspond. -/
theorem slot_inj {head i j : ℕ} (hi : i < n) (hj : j < n) (h : slot n head i = slot n head j) :
    i = j := by
  have hmod : i ≡ j [MOD n] := Nat.ModEq.add_left_cancel' head h
  exact Nat.ModEq.eq_of_lt_of_lt hmod hi hj

structure RingHolds (buf : Vector α n) (head tail : ℕ) (pending : List α) : Prop where
  head_lt : head < n
  room : pending.length < n
  tail_eq : tail = slot n head pending.length
  cells : ∀ i b, pending[i]? = some b → buf[slot n head i]? = some b

theorem RingHolds.nil (buf : Vector α n) {head : ℕ} (h : head < n) :
    RingHolds buf head head [] where
  head_lt := h
  room := Nat.zero_lt_of_lt h
  tail_eq := (slot_zero h).symm
  cells := by
    intro i b hb
    simp at hb

section
variable {buf : Vector α n} {head tail : ℕ} {pending : List α}

theorem RingHolds.tail_lt (h : RingHolds buf head tail pending) : tail < n := by
  rw [h.tail_eq]
  exact slot_lt h.head_lt _

theorem RingHolds.empty_iff (h : RingHolds buf head tail pending) : head = tail ↔ pending = [] := by
  constructor
  · intro he
    have hslot : slot n head 0 = slot n head pending.length := by
      rw [slot_zero h.head_lt, ← h.tail_eq, he]
    have hlen : 0 = pending.length :=
      slot_inj (Nat.zero_lt_of_lt h.head_lt) h.room hslot
    exact List.length_eq_zero_iff.mp hlen.symm
  · intro he
    rw [h.tail_eq, he]
    exact (slot_zero h.head_lt).symm

/-- The tail runs into the head exactly when one slot is left. -/
theorem RingHolds.full_iff (h : RingHolds buf head tail pending) :
    (tail + 1) % n = head ↔ pending.length + 1 = n := by
  rw [h.tail_eq, slot_succ]
  constructor
  · intro hslot
    by_contra hne
    have hlt : pending.length + 1 < n := by
      have := h.room
      omega
    have hzero : pending.length + 1 = 0 :=
      slot_inj hlt (Nat.zero_lt_of_lt h.head_lt) (hslot.trans (slot_zero h.head_lt).symm)
    omega
  · intro hlen
    rw [slot, hlen, Nat.add_mod_right]
    exact Nat.mod_eq_of_lt h.head_lt

/-- The tail slot holds no pending element, so storing there appends. -/
theorem RingHolds.push (h : RingHolds buf head tail pending) (hroom : pending.length + 1 < n)
    (b : α) :
    RingHolds (buf.set tail b h.tail_lt) head ((tail + 1) % n) (pending ++ [b]) where
  head_lt := h.head_lt
  room := by simpa using hroom
  tail_eq := by rw [h.tail_eq, slot_succ, List.length_append, List.length_singleton]
  cells := by
    intro i c hc
    have hi : i < pending.length + 1 := by
      simpa using (List.getElem?_eq_some_iff.mp hc).1
    by_cases hlast : i = pending.length
    · subst hlast
      have hcb : b = c := by simpa using hc
      rw [← h.tail_eq, Vector.getElem?_set_self, hcb]
    · have hold : pending[i]? = some c := by
        rwa [List.getElem?_append_left (by omega)] at hc
      have hne : tail ≠ slot n head i := by
        intro he
        rw [h.tail_eq] at he
        exact hlast (slot_inj (by omega) h.room he.symm)
      rw [Vector.getElem?_set_ne h.tail_lt hne]
      exact h.cells i c hold

theorem RingHolds.front {b : α} (h : RingHolds buf head tail (b :: pending)) :
    buf[head]? = some b := by
  have hcell := h.cells 0 b rfl
  rwa [slot_zero h.head_lt] at hcell

theorem RingHolds.pop {b : α} (h : RingHolds buf head tail (b :: pending)) :
    RingHolds buf ((head + 1) % n) tail pending where
  head_lt := Nat.mod_lt _ (Nat.zero_lt_of_lt h.head_lt)
  room := Nat.lt_of_succ_lt h.room
  tail_eq := by rw [slot_advance, h.tail_eq, List.length_cons]
  cells := by
    intro i c hc
    rw [slot_advance]
    exact h.cells (i + 1) c (by simpa using hc)

end

end Rockos.RingBuffer
