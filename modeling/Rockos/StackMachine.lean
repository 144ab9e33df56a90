import Mathlib.Tactic

/-!
# Straight-line code on a downward stack

The fragment of x86-64 that entry and exit stubs are written in: register
moves, named globals, pushes, pops and adjustments of the stack pointer. Memory
is read and written in words at the addresses that occur; the stubs only use
addresses at a multiple of eight below one stack top, and `slot top i` names
the one `8*i` bytes below it. Distinct slots never alias, also when the
subtraction wraps, so a push at one slot is invisible at every other.
-/
namespace Rockos.StackMachine

inductive Reg where
  | rax | rbx | rcx | rdx | rsi | rdi | rbp | rsp
  | r8 | r9 | r10 | r11 | r12 | r13 | r14 | r15
  deriving DecidableEq, Repr

structure Machine (γ : Type) where
  reg : Reg → UInt64
  mem : UInt64 → UInt64
  glob : γ → UInt64

inductive Instr (γ : Type) where
  | mov (dst src : Reg)
  | load (dst : Reg) (g : γ)
  | store (g : γ) (src : Reg)
  | push (src : Reg)
  | pushGlob (g : γ)
  | pop (dst : Reg)
  | add (dst : Reg) (imm : UInt64)
  | sub (dst : Reg) (imm : UInt64)
  | call (ret : UInt64)

variable {γ : Type} [DecidableEq γ]

def Machine.setReg (m : Machine γ) (r : Reg) (v : UInt64) : Machine γ :=
  { m with reg := Function.update m.reg r v }

def Machine.pushWord (m : Machine γ) (v : UInt64) : Machine γ :=
  { m with
    reg := Function.update m.reg .rsp (m.reg .rsp - 8)
    mem := Function.update m.mem (m.reg .rsp - 8) v }

/-- A pop into `rsp` ends with the loaded word, not with the bumped pointer. -/
def Machine.popWord (m : Machine γ) (dst : Reg) : Machine γ :=
  (m.setReg .rsp (m.reg .rsp + 8)).setReg dst (m.mem (m.reg .rsp))

section Fields
variable (m : Machine γ) (r r' : Reg) (v : UInt64)

omit [DecidableEq γ]

@[simp] theorem setReg_reg : (m.setReg r v).reg r' = if r' = r then v else m.reg r' :=
  Function.update_apply ..

@[simp] theorem setReg_mem : (m.setReg r v).mem = m.mem := rfl

@[simp] theorem setReg_glob : (m.setReg r v).glob = m.glob := rfl

@[simp] theorem pushWord_reg :
    (m.pushWord v).reg r' = if r' = .rsp then m.reg .rsp - 8 else m.reg r' :=
  Function.update_apply ..

@[simp] theorem pushWord_mem :
    (m.pushWord v).mem = Function.update m.mem (m.reg .rsp - 8) v := rfl

@[simp] theorem pushWord_glob : (m.pushWord v).glob = m.glob := rfl

end Fields

def exec (m : Machine γ) : Instr γ → Machine γ
  | .mov dst src => m.setReg dst (m.reg src)
  | .load dst g => m.setReg dst (m.glob g)
  | .store g src => { m with glob := Function.update m.glob g (m.reg src) }
  | .push src => m.pushWord (m.reg src)
  | .pushGlob g => m.pushWord (m.glob g)
  | .pop dst => m.popWord dst
  | .add dst imm => m.setReg dst (m.reg dst + imm)
  | .sub dst imm => m.setReg dst (m.reg dst - imm)
  | .call ret => m.pushWord ret

def run (m : Machine γ) (code : List (Instr γ)) : Machine γ := code.foldl exec m

@[simp] theorem run_nil (m : Machine γ) : run m [] = m := rfl

@[simp] theorem run_cons (m : Machine γ) (i : Instr γ) (code : List (Instr γ)) :
    run m (i :: code) = run (exec m i) code := rfl

theorem run_append (m : Machine γ) (a b : List (Instr γ)) : run m (a ++ b) = run (run m a) b :=
  List.foldl_append

/-- The word `8*i` bytes below `top`. -/
def slot (top : UInt64) (i : ℕ) : UInt64 := top - UInt64.ofNat (8 * i)

@[simp] theorem slot_zero (top : UInt64) : slot top 0 = top := by simp [slot]

@[simp] theorem slot_sub (top : UInt64) (i : ℕ) : slot top i - 8 = slot top (i + 1) := by
  simp only [slot, Nat.mul_add, Nat.mul_one, UInt64.ofNat_add]
  rw [show UInt64.ofNat 8 = 8 from rfl]
  grind

@[simp] theorem slot_add (top : UInt64) (i : ℕ) : slot top (i + 1) + 8 = slot top i := by
  rw [← slot_sub, UInt64.sub_add_cancel]

/-- `p.add(k)` on a pointer to words. -/
def wordPtr (p : UInt64) (k : ℕ) : UInt64 := p + UInt64.ofNat (8 * k)

theorem wordPtr_slot (top : UInt64) {i k : ℕ} (h : k ≤ i) :
    wordPtr (slot top i) k = slot top (i - k) := by
  obtain ⟨l, rfl⟩ := Nat.exists_eq_add_of_le h
  simp only [wordPtr, slot, Nat.mul_add, UInt64.ofNat_add, Nat.add_sub_cancel_left]
  grind

theorem slot_inj (top : UInt64) {i j : ℕ} (hi : i < 2 ^ 32) (hj : j < 2 ^ 32)
    (h : slot top i = slot top j) : i = j := by
  have hn := congrArg UInt64.toNat h
  simp only [slot, UInt64.toNat_sub, UInt64.toNat_ofNat'] at hn
  omega

theorem slot_eq_iff (top : UInt64) {i j : ℕ} (hi : i < 2 ^ 32) (hj : j < 2 ^ 32) :
    slot top i = slot top j ↔ i = j := ⟨slot_inj top hi hj, fun h => by rw [h]⟩

/-- Reading one slot after a write to another. -/
theorem update_slot (mem : UInt64 → UInt64) (top v : UInt64) {i j : ℕ} (hi : i < 2 ^ 32)
    (hj : j < 2 ^ 32) : Function.update mem (slot top i) v (slot top j) =
      if j = i then v else mem (slot top j) := by
  simp only [Function.update_apply, slot_eq_iff top hj hi]

/-- The result depends on the word at `a`. -/
def Reads {β : Type} (f : (UInt64 → UInt64) → β) (a : UInt64) : Prop :=
  ∃ mem v, f (Function.update mem a v) ≠ f mem

/-- A function that collects the words at some addresses reads these and no others. -/
theorem reads_iff_mem {β : Type} {f : (UInt64 → UInt64) → β} {words : β → List UInt64}
    (hinj : Function.Injective words) {addrs : List UInt64}
    (hf : ∀ mem, words (f mem) = addrs.map mem) (a : UInt64) : Reads f a ↔ a ∈ addrs := by
  constructor
  · intro hreads
    obtain ⟨mem, v, hne⟩ := hreads
    by_contra hnot
    apply hne
    apply hinj
    rw [hf, hf]
    apply List.map_congr_left
    intro b hb
    have hba : b ≠ a := by
      intro heq
      rw [heq] at hb
      exact hnot hb
    exact Function.update_of_ne hba v mem
  · intro hmem
    -- in a memory of zeros, a one at `a` shows
    refine ⟨fun _ => 0, 1, ?_⟩
    intro heq
    have hwords := congrArg words heq
    rw [hf, hf] at hwords
    have hword := List.map_inj_left.mp hwords a hmem
    rw [Function.update_self] at hword
    exact absurd hword (by decide)

/-! ## Blocks of words -/

def pushAll (m : Machine γ) (vs : List UInt64) : Machine γ := vs.foldl Machine.pushWord m

omit [DecidableEq γ] in
theorem pushAll_rsp (m : Machine γ) (top : UInt64) (k : ℕ) (vs : List UInt64)
    (h : m.reg .rsp = slot top k) : (pushAll m vs).reg .rsp = slot top (k + vs.length) := by
  induction vs generalizing m k with
  | nil => exact h
  | cons v vs ih =>
      have hpush : (m.pushWord v).reg .rsp = slot top (k + 1) := by
        simp [Machine.pushWord, h]
      rw [List.length_cons, show k + (vs.length + 1) = k + 1 + vs.length by omega]
      exact ih (m.pushWord v) (k + 1) hpush

omit [DecidableEq γ] in
/-- The pushed words in push order, and the memory around them. -/
theorem pushAll_mem (m : Machine γ) (top : UInt64) (k : ℕ) (vs : List UInt64)
    (h : m.reg .rsp = slot top k) (hk : k + vs.length < 2 ^ 32) (j : ℕ) (hj : j < 2 ^ 32) :
    (pushAll m vs).mem (slot top j) =
      if k < j then vs.getD (j - (k + 1)) (m.mem (slot top j)) else m.mem (slot top j) := by
  induction vs generalizing m k with
  | nil => simp [pushAll]
  | cons v vs ih =>
      have hpush : (m.pushWord v).reg .rsp = slot top (k + 1) := by
        simp [Machine.pushWord, h]
      have hmem : (m.pushWord v).mem (slot top j) =
          if j = k + 1 then v else m.mem (slot top j) := by
        simp only [Machine.pushWord, h, slot_sub]
        exact update_slot m.mem top v (by simp only [List.length_cons] at hk; omega) hj
      have hrest := ih (m.pushWord v) (k + 1) hpush (by simp only [List.length_cons] at hk; omega)
      rw [show pushAll m (v :: vs) = pushAll (m.pushWord v) vs from rfl, hrest, hmem]
      rcases Nat.lt_trichotomy j (k + 1) with hlt | rfl | hgt
      · rw [if_neg (by omega), if_neg (by omega), if_neg (by omega)]
      · simp
      · rw [if_pos hgt, if_neg (Nat.ne_of_gt hgt), if_pos (Nat.lt_of_succ_lt hgt),
          show j - (k + 1) = (j - (k + 1 + 1)) + 1 by omega, List.getD_cons_succ]

omit [DecidableEq γ] in
/-- Pushes write to the slots below the pointer and nowhere else. -/
theorem pushAll_mem_other (m : Machine γ) (top a : UInt64) (k : ℕ) (vs : List UInt64)
    (h : m.reg .rsp = slot top k) (ha : ∀ j, k < j → j ≤ k + vs.length → a ≠ slot top j) :
    (pushAll m vs).mem a = m.mem a := by
  induction vs generalizing m k with
  | nil => rfl
  | cons v vs ih =>
      have hpush : (m.pushWord v).reg .rsp = slot top (k + 1) := by
        simp [Machine.pushWord, h]
      rw [List.length_cons] at ha
      have hrest : (pushAll (m.pushWord v) vs).mem a = (m.pushWord v).mem a := by
        apply ih (m.pushWord v) (k + 1) hpush
        intro j hj hle
        exact ha j (by omega) (by omega)
      rw [show pushAll m (v :: vs) = pushAll (m.pushWord v) vs from rfl, hrest, pushWord_mem, h,
        slot_sub, Function.update_of_ne (ha (k + 1) (by omega) (by omega))]

/-- Store consecutive words from `p` upwards. -/
def writeWords : (p : UInt64) → List UInt64 → (UInt64 → UInt64) → UInt64 → UInt64
  | _, [], mem => mem
  | p, v :: vs, mem => writeWords (p + 8) vs (Function.update mem p v)

/-- Words stored from slot `l` upwards leave the slots below it alone. -/
theorem writeWords_below (top : UInt64) (l : ℕ) (vs : List UInt64) (mem : UInt64 → UInt64)
    (hlen : vs.length ≤ l + 1) (j : ℕ) (hl : l < j) (hj : j < 2 ^ 32) :
    writeWords (slot top l) vs mem (slot top j) = mem (slot top j) := by
  induction vs generalizing l mem with
  | nil => rfl
  | cons v vs ih =>
      have hupd : Function.update mem (slot top l) v (slot top j) = mem (slot top j) := by
        rw [update_slot mem top v (by omega) hj, if_neg (by omega)]
      rw [List.length_cons] at hlen
      rw [writeWords]
      cases l with
      | zero =>
          have hvs : vs = [] := List.eq_nil_of_length_eq_zero (by omega)
          rw [hvs]
          exact hupd
      | succ l =>
          rw [slot_add, ih l _ (by omega) (by omega)]
          exact hupd

theorem writeWords_slot (top : UInt64) (k : ℕ) (vs : List UInt64) (mem : UInt64 → UInt64)
    (hk : k < 2 ^ 32) (hlen : vs.length ≤ k + 1) (j : ℕ) (hj : j ≤ k) :
    writeWords (slot top k) vs mem (slot top j) = vs.getD (k - j) (mem (slot top j)) := by
  induction vs generalizing k mem with
  | nil => simp [writeWords]
  | cons v vs ih =>
      rw [List.length_cons] at hlen
      cases k with
      | zero =>
          have hvs : vs = [] := List.eq_nil_of_length_eq_zero (by omega)
          have hj0 : j = 0 := by omega
          subst hvs hj0
          simp [writeWords]
      | succ k =>
          rw [writeWords, slot_add]
          rcases Nat.lt_or_ge k j with hkj | hjk
          · have hje : j = k + 1 := by omega
            subst hje
            rw [writeWords_below top k vs _ (by omega) (k + 1) hkj hk]
            simp
          · rw [ih k _ (by omega) (by omega) hjk, update_slot mem top v hk (by omega),
              if_neg (by omega), show k + 1 - j = (k - j) + 1 by omega, List.getD_cons_succ]

end Rockos.StackMachine
