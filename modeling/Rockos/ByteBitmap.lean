import Mathlib.Tactic

/-!
# Packed bitmaps

A bitmap of `8*n` bits is a vector of `n` bytes; bit `i` is bit `i % 8` of byte
`i / 8`. The edits are the usual shift-and-mask expressions. Everything proved
about them is stated through `testBit`, so no user of this file sees a mask.
The last part is the byte-wise first-fit search: skip the bytes that are full,
then take the trailing zeros of the complement.
-/
namespace Rockos.ByteBitmap

variable {n : ℕ}

/-- `1 << (i % 8)`. -/
def mask (i : ℕ) : UInt8 := 1 <<< UInt8.ofNat (i % 8)

def byteAt (bm : Vector UInt8 n) (k : ℕ) : UInt8 := bm[k]?.getD 0

def testBit (bm : Vector UInt8 n) (i : ℕ) : Bool := byteAt bm (i / 8) &&& mask i != 0

def setBit (bm : Vector UInt8 n) (i : ℕ) : Vector UInt8 n :=
  bm.setIfInBounds (i / 8) (byteAt bm (i / 8) ||| mask i)

def clearBit (bm : Vector UInt8 n) (i : ℕ) : Vector UInt8 n :=
  bm.setIfInBounds (i / 8) (byteAt bm (i / 8) &&& ~~~mask i)

theorem mask_bit (i k : ℕ) : (mask i).toBitVec.getLsbD k = decide (k = i % 8) := by
  have h8 : i % 8 < 8 := Nat.mod_lt _ (by decide)
  have hm : (mask i).toBitVec = 1#8 <<< (i % 8) := by
    unfold mask
    interval_cases i % 8 <;> rfl
  rw [hm]
  simp only [BitVec.getLsbD_shiftLeft, BitVec.getLsbD_one]
  grind

theorem and_mask (b : UInt8) (i : ℕ) :
    (b &&& mask i != 0) = b.toBitVec.getLsbD (i % 8) := by
  cases hb : b.toBitVec.getLsbD (i % 8) with
  | true =>
      rw [bne_iff_ne]
      intro h
      have hbit := congrArg (fun x : UInt8 => x.toBitVec.getLsbD (i % 8)) h
      simp [mask_bit, hb] at hbit
  | false =>
      rw [bne_eq_false_iff_eq]
      apply UInt8.toBitVec_inj.mp
      apply BitVec.eq_of_getLsbD_eq
      intro k hk
      by_cases h : k = i % 8 <;> simp [mask_bit, h, hb]

theorem testBit_eq (bm : Vector UInt8 n) (i : ℕ) :
    testBit bm i = (byteAt bm (i / 8)).toBitVec.getLsbD (i % 8) := and_mask _ _

theorem byteAt_set (bm : Vector UInt8 n) {k : ℕ} (hk : k < n) (b : UInt8) (l : ℕ) :
    byteAt (bm.setIfInBounds k b) l = if l = k then b else byteAt bm l := by
  unfold byteAt
  by_cases h : l = k
  · subst h
    simp [hk]
  · simp [h, Ne.symm h]

/-- Two indices agree when their bytes and their positions inside them do. -/
private theorem index_ext {i j : ℕ} (hd : j / 8 = i / 8) (hm : j % 8 = i % 8) : j = i := by omega

theorem testBit_setBit (bm : Vector UInt8 n) {i : ℕ} (hi : i < 8 * n) (j : ℕ) :
    testBit (setBit bm i) j = (testBit bm j || decide (j = i)) := by
  rw [testBit_eq, testBit_eq, setBit, byteAt_set bm (by omega)]
  by_cases hd : j / 8 = i / 8
  · have hj : (j % 8 = i % 8) ↔ j = i := ⟨index_ext hd, fun h => by rw [h]⟩
    simp [hd, mask_bit, hj]
  · have hj : j ≠ i := fun h => hd (by rw [h])
    simp [hd, hj]

theorem testBit_clearBit (bm : Vector UInt8 n) {i : ℕ} (hi : i < 8 * n) (j : ℕ) :
    testBit (clearBit bm i) j = (testBit bm j && decide (j ≠ i)) := by
  rw [testBit_eq, testBit_eq, clearBit, byteAt_set bm (by omega)]
  have h8 : j % 8 < 8 := Nat.mod_lt _ (by decide)
  by_cases hd : j / 8 = i / 8
  · have hj : (j % 8 = i % 8) ↔ j = i := ⟨index_ext hd, fun h => by rw [h]⟩
    simp only [hd, if_true, UInt8.toBitVec_and, UInt8.toBitVec_not, BitVec.getLsbD_and,
      BitVec.getLsbD_not, mask_bit, hj, h8, decide_true, Bool.true_and, decide_not]
  · have hj : j ≠ i := fun h => hd (by rw [h])
    simp [hd, hj]

theorem testBit_replicate_full {i : ℕ} (hi : i < 8 * n) :
    testBit (Vector.replicate n (0xFF : UInt8)) i = true := by
  have hb : byteAt (Vector.replicate n (0xFF : UInt8)) (i / 8) = 0xFF := by
    simp [byteAt, show i / 8 < n by omega]
  rw [testBit_eq, hb]
  have h8 : i % 8 < 8 := Nat.mod_lt _ (by decide)
  interval_cases i % 8 <;> rfl

/-- `u8::trailing_zeros`: eight for the zero byte. -/
def trailingZeros (b : UInt8) : ℕ :=
  ((List.range 8).find? (fun k => b.toBitVec.getLsbD k)).getD 8

/-- A byte other than `0xFF` has a clear bit, and the trailing zeros of its
complement locate the lowest one. -/
theorem trailingZeros_not {b : UInt8} (hb : b ≠ 0xFF) :
    trailingZeros (~~~b) < 8 ∧ b.toBitVec.getLsbD (trailingZeros (~~~b)) = false ∧
      ∀ k < trailingZeros (~~~b), b.toBitVec.getLsbD k = true := by
  cases hf : (List.range 8).find? (fun k => (~~~b).toBitVec.getLsbD k) with
  | none =>
      refine (hb ?_).elim
      apply UInt8.toBitVec_inj.mp
      apply BitVec.eq_of_getLsbD_eq
      intro k hk
      have hz := List.find?_eq_none.mp hf k (List.mem_range.mpr hk)
      have hone : ((0xFF : UInt8).toBitVec).getLsbD k = true := by
        interval_cases k <;> rfl
      rw [hone]
      simpa [hk] using hz
  | some k =>
      have hk : trailingZeros (~~~b) = k := by rw [trailingZeros, hf, Option.getD_some]
      have hlt : k < 8 := List.mem_range.mp (List.mem_of_find?_eq_some hf)
      have hbit := List.find?_some hf
      rw [hk]
      refine ⟨hlt, by simpa [hlt] using hbit, ?_⟩
      intro l hl
      have hl8 : l < 8 := hl.trans hlt
      have hmin := (List.find?_range_eq_some.mp hf).2.2 l hl
      simpa [hl8] using hmin

/-- No clear bit below `8*k`. -/
def FullBelow (bm : Vector UInt8 n) (k : ℕ) : Prop := ∀ l < k, byteAt bm l = 0xFF

theorem FullBelow.succ {bm : Vector UInt8 n} {k : ℕ} (h : FullBelow bm k)
    (hk : byteAt bm k = 0xFF) : FullBelow bm (k + 1) := by
  intro l hl
  rcases Nat.lt_succ_iff_lt_or_eq.mp hl with hl | rfl
  · exact h l hl
  · exact hk

theorem FullBelow.testBit {bm : Vector UInt8 n} {k : ℕ} (h : FullBelow bm k) {i : ℕ}
    (hi : i < 8 * k) : testBit bm i = true := by
  rw [testBit_eq, h (i / 8) (by omega)]
  have h8 : i % 8 < 8 := Nat.mod_lt _ (by decide)
  interval_cases i % 8 <;> rfl

/-- The least clear bit of the bitmap. -/
structure LeastClear (bm : Vector UInt8 n) (i : ℕ) : Prop where
  lt : i < 8 * n
  clear : testBit bm i = false
  least : ∀ j < i, testBit bm j = true

/-- First fit: after full bytes only, the lowest clear bit of the next byte is
the least clear bit of the whole bitmap. -/
theorem FullBelow.leastClear {bm : Vector UInt8 n} {k : ℕ} (h : FullBelow bm k) (hk : k < n)
    (hb : byteAt bm k ≠ 0xFF) : LeastClear bm (8 * k + trailingZeros (~~~byteAt bm k)) := by
  obtain ⟨hlt, hclear, hleast⟩ := trailingZeros_not hb
  set t := trailingZeros (~~~byteAt bm k) with ht
  have hdiv : (8 * k + t) / 8 = k := by omega
  have hmod : (8 * k + t) % 8 = t := by omega
  refine ⟨by omega, by rw [testBit_eq, hdiv, hmod]; exact hclear, ?_⟩
  intro j hj
  by_cases hjk : j < 8 * k
  · exact h.testBit hjk
  · have hjd : j / 8 = k := by omega
    rw [testBit_eq, hjd]
    exact hleast (j % 8) (by omega)

end Rockos.ByteBitmap
