import Mathlib.Tactic

/-!
# The initial process stack of the System V ABI

What a program finds at its stack pointer when it starts: the number of its
arguments, that many pointers and a zero word, the pointers to its environment
and a zero word, and the auxiliary vector, pairs of words up to the first tag
zero. `decode` reads it all from memory by these rules.

Memory is a partial function from addresses to bytes, and `word` is the byte
order of the machine. `HoldsBytes` says that a list of bytes lies at an address; what
a layout decodes to follows from the lists it is made of.
-/
namespace Rockos.InitialStack

abbrev Memory := ℕ → Option UInt8

/-! ## Reading -/

def bytesAt (mem : Memory) : (a n : ℕ) → Option (List UInt8)
  | _, 0 => some []
  | a, n + 1 => do
      let b ← mem a
      let bs ← bytesAt mem (a + 1) n
      pure (b :: bs)

/-- The bytes up to the first zero, if there is one within reach. -/
def stringAt (mem : Memory) : (reach a : ℕ) → Option (List UInt8)
  | 0, _ => none
  | n + 1, a => do
      let b ← mem a
      if b = 0 then pure [] else
        let bs ← stringAt mem n (a + 1)
        pure (b :: bs)

variable (word : List UInt8 → ℕ)

def wordAt (mem : Memory) (a : ℕ) : Option ℕ := (bytesAt mem a 8).map word

def wordsAt (mem : Memory) : (a n : ℕ) → Option (List ℕ)
  | _, 0 => some []
  | a, n + 1 => do
      let x ← wordAt word mem a
      let xs ← wordsAt mem (a + 8) n
      pure (x :: xs)

/-- The words before the first zero word. -/
def vectorAt (mem : Memory) : (reach a : ℕ) → Option (List ℕ)
  | 0, _ => none
  | n + 1, a => do
      let x ← wordAt word mem a
      if x = 0 then pure [] else
        let xs ← vectorAt mem n (a + 8)
        pure (x :: xs)

/-- The pairs up to the one with tag zero, which is part of the result. -/
def auxvAt (mem : Memory) : (reach a : ℕ) → Option (List (ℕ × ℕ))
  | 0, _ => none
  | n + 1, a => do
      let tag ← wordAt word mem a
      let val ← wordAt word mem (a + 8)
      if tag = 0 then pure [(tag, val)] else
        let rest ← auxvAt mem n (a + 16)
        pure ((tag, val) :: rest)

structure ProcessStart where
  argc : ℕ
  argv : List (List UInt8)
  envp : List (List UInt8)
  auxv : List (ℕ × ℕ)
  deriving DecidableEq, Repr

/-- `reach` bounds the length of every string and of every vector. -/
def decode (reach : ℕ) (mem : Memory) (rsp : ℕ) : Option ProcessStart := do
  let argc ← wordAt word mem rsp
  let args ← wordsAt word mem (rsp + 8) argc
  let stop ← wordAt word mem (rsp + 8 + 8 * argc)
  if stop ≠ 0 then none else
    let envs ← vectorAt word mem reach (rsp + 16 + 8 * argc)
    let auxv ← auxvAt word mem reach (rsp + 24 + 8 * argc + 8 * envs.length)
    let argv ← args.mapM (stringAt mem reach)
    let envp ← envs.mapM (stringAt mem reach)
    pure ⟨argc, argv, envp, auxv⟩

/-! ## Bytes in memory -/

def HoldsBytes (mem : Memory) (a : ℕ) (bs : List UInt8) : Prop :=
  ∀ i < bs.length, mem (a + i) = bs[i]?

variable {word} {mem : Memory} {a : ℕ}

theorem holds_append {xs ys : List UInt8} :
    HoldsBytes mem a (xs ++ ys) ↔ HoldsBytes mem a xs ∧ HoldsBytes mem (a + xs.length) ys := by
  constructor
  · intro h
    constructor
    · intro i hi
      rw [h i (by rw [List.length_append]; omega), List.getElem?_append_left hi]
    · intro i hi
      rw [Nat.add_assoc, h (xs.length + i) (by rw [List.length_append]; omega),
        List.getElem?_append_right (by omega), Nat.add_sub_cancel_left]
  · rintro ⟨hx, hy⟩ i hi
    by_cases hlt : i < xs.length
    · rw [hx i hlt, List.getElem?_append_left hlt]
    · rw [List.length_append] at hi
      have hpos := hy (i - xs.length) (by omega)
      rw [show a + xs.length + (i - xs.length) = a + i by omega] at hpos
      rw [hpos, List.getElem?_append_right (by omega)]

theorem holds_cons {b : UInt8} {bs : List UInt8} :
    HoldsBytes mem a (b :: bs) ↔ mem a = some b ∧ HoldsBytes mem (a + 1) bs := by
  have hsplit := @holds_append mem a [b] bs
  rw [List.singleton_append] at hsplit
  rw [hsplit]
  simp [HoldsBytes]

theorem HoldsBytes.bytesAt {bs : List UInt8} (h : HoldsBytes mem a bs) :
    bytesAt mem a bs.length = some bs := by
  induction bs generalizing a with
  | nil => rfl
  | cons b bs ih =>
      rw [holds_cons] at h
      simp [InitialStack.bytesAt, h.1, ih h.2]

theorem HoldsBytes.stringAt {s : List UInt8} {reach : ℕ} (h : HoldsBytes mem a (s ++ [0]))
    (hs : 0 ∉ s) (hreach : s.length < reach) : stringAt mem reach a = some s := by
  induction s generalizing a reach with
  | nil =>
      cases reach with
      | zero => simp at hreach
      | succ n =>
          rw [List.nil_append, holds_cons] at h
          simp [InitialStack.stringAt, h.1]
  | cons b s ih =>
      cases reach with
      | zero => simp at hreach
      | succ n =>
          rw [List.cons_append, holds_cons] at h
          rw [List.mem_cons, not_or] at hs
          have hrest : InitialStack.stringAt mem n (a + 1) = some s :=
            ih h.2 hs.2 (by rw [List.length_cons] at hreach; omega)
          simp [InitialStack.stringAt, h.1, Ne.symm hs.1, hrest]

/-! ## Tables of words -/

section Tables
variable {enc : ℕ → List UInt8} (hlen : ∀ x, (enc x).length = 8)
include hlen

theorem length_words (xs : List ℕ) : (xs.flatMap enc).length = 8 * xs.length := by
  induction xs with
  | nil => rfl
  | cons x xs ih =>
      rw [List.flatMap_cons, List.length_append, hlen, ih, List.length_cons]
      omega

/-- The first word of a table and the rest of it. -/
theorem holds_words {x : ℕ} {xs : List ℕ} (h : HoldsBytes mem a ((x :: xs).flatMap enc)) :
    wordAt word mem a = some (word (enc x)) ∧ HoldsBytes mem (a + 8) (xs.flatMap enc) := by
  rw [List.flatMap_cons, holds_append, hlen] at h
  have hbytes := h.1.bytesAt
  rw [hlen] at hbytes
  refine ⟨?_, h.2⟩
  rw [wordAt, hbytes]
  rfl

theorem wordsAt_of_holds {xs : List ℕ} (h : HoldsBytes mem a (xs.flatMap enc)) :
    wordsAt word mem a xs.length = some (xs.map fun x => word (enc x)) := by
  induction xs generalizing a with
  | nil => rfl
  | cons x xs ih =>
      have hx : wordAt word mem a = some (word (enc x)) ∧ _ := holds_words hlen h
      simp [wordsAt, hx.1, ih hx.2]

theorem vectorAt_of_holds {xs : List ℕ} {reach : ℕ} (h : HoldsBytes mem a ((xs ++ [0]).flatMap enc))
    (hzero : word (enc 0) = 0) (hxs : ∀ x ∈ xs, word (enc x) ≠ 0) (hreach : xs.length < reach) :
    vectorAt word mem reach a = some (xs.map fun x => word (enc x)) := by
  induction xs generalizing a reach with
  | nil =>
      cases reach with
      | zero => simp at hreach
      | succ n =>
          have hx : wordAt word mem a = some (word (enc 0)) ∧ _ := holds_words hlen h
          simp [vectorAt, hx.1, hzero]
  | cons x xs ih =>
      cases reach with
      | zero => simp at hreach
      | succ n =>
          have hx : wordAt word mem a = some (word (enc x)) ∧ _ := holds_words hlen h
          have hrest : vectorAt word mem n (a + 8) = some (xs.map fun x => word (enc x)) :=
            ih hx.2 (fun y hy => hxs y (List.mem_cons_of_mem x hy))
              (by rw [List.length_cons] at hreach; omega)
          simp [vectorAt, hx.1, hxs x List.mem_cons_self, hrest]

/-- A vector of pairs is a table with two words for each. -/
def pairWords (aux : List (ℕ × ℕ)) : List ℕ := aux.flatMap fun p => [p.1, p.2]

theorem auxvAt_of_holds {aux : List (ℕ × ℕ)} {last : ℕ × ℕ} {reach : ℕ}
    (h : HoldsBytes mem a ((pairWords (aux ++ [last])).flatMap enc))
    (hlast : word (enc last.1) = 0) (haux : ∀ p ∈ aux, word (enc p.1) ≠ 0)
    (hreach : aux.length < reach) : auxvAt word mem reach a =
      some ((aux ++ [last]).map fun p => (word (enc p.1), word (enc p.2))) := by
  induction aux generalizing a reach with
  | nil =>
      cases reach with
      | zero => simp at hreach
      | succ n =>
          have htag : wordAt word mem a = some (word (enc last.1)) ∧ _ := holds_words hlen h
          have hval : wordAt word mem (a + 8) = some (word (enc last.2)) ∧ _ :=
            holds_words hlen htag.2
          simp [auxvAt, htag.1, hval.1, hlast]
  | cons p aux ih =>
      cases reach with
      | zero => simp at hreach
      | succ n =>
          have htag : wordAt word mem a = some (word (enc p.1)) ∧ _ := holds_words hlen h
          have hval : wordAt word mem (a + 8) = some (word (enc p.2)) ∧ _ :=
            holds_words hlen htag.2
          have hrest : auxvAt word mem n (a + 16) =
              some ((aux ++ [last]).map fun p => (word (enc p.1), word (enc p.2))) :=
            ih hval.2 (fun q hq => haux q (List.mem_cons_of_mem p hq))
              (by rw [List.length_cons] at hreach; omega)
          simp [auxvAt, htag.1, hval.1, haux p List.mem_cons_self, hrest]

/-- The words of an initial stack, in order. -/
def startWords (args envs : List ℕ) (aux : List (ℕ × ℕ)) : List ℕ :=
  args.length :: (args ++ [0] ++ (envs ++ [0]) ++ pairWords aux)

/-- A stack whose words and strings are in memory decodes to what it was made of.
`word` undoes `enc` on the numbers that are read as pointers and counts. -/
theorem decode_of_holds {args envs : List ℕ} {argv envp : List (List UInt8)}
    {aux : List (ℕ × ℕ)} {last : ℕ × ℕ} {reach rsp : ℕ}
    (h : HoldsBytes mem rsp ((startWords args envs (aux ++ [last])).flatMap enc))
    (hargc : word (enc args.length) = args.length) (hzero : word (enc 0) = 0)
    (hargs : ∀ x ∈ args, word (enc x) = x) (henvs : ∀ x ∈ envs, word (enc x) = x ∧ x ≠ 0)
    (hlast : word (enc last.1) = 0) (haux : ∀ p ∈ aux, word (enc p.1) ≠ 0)
    (hargv : args.mapM (stringAt mem reach) = some argv)
    (henvp : envs.mapM (stringAt mem reach) = some envp)
    (henvReach : envs.length < reach) (hauxReach : aux.length < reach) :
    decode word reach mem rsp = some ⟨args.length, argv, envp,
      (aux ++ [last]).map fun p => (word (enc p.1), word (enc p.2))⟩ := by
  have hcount : wordAt word mem rsp = some (word (enc args.length)) ∧ _ := holds_words hlen h
  obtain ⟨hcount, htables⟩ := hcount
  rw [List.flatMap_append, holds_append, List.flatMap_append, holds_append, List.flatMap_append,
    holds_append, ← List.flatMap_append, ← List.flatMap_append] at htables
  obtain ⟨⟨⟨hargTable, hstop⟩, henvTable⟩, hauxTable⟩ := htables
  simp only [length_words hlen, List.length_append, List.length_singleton]
    at hstop henvTable hauxTable
  have hstopWord : wordAt word mem (rsp + 8 + 8 * args.length) = some (word (enc 0)) ∧ _ :=
    holds_words hlen hstop
  have hargWords : wordsAt word mem (rsp + 8) args.length = some args := by
    rw [wordsAt_of_holds hlen hargTable, List.map_congr_left hargs, List.map_id']
  have henvNonzero : ∀ x ∈ envs, word (enc x) ≠ 0 := by
    intro x hx
    rw [(henvs x hx).1]
    exact (henvs x hx).2
  have henvWords : vectorAt word mem reach (rsp + 16 + 8 * args.length) = some envs := by
    rw [show rsp + 16 + 8 * args.length = rsp + 8 + 8 * (args.length + 1) by omega,
      vectorAt_of_holds hlen henvTable hzero henvNonzero henvReach,
      List.map_congr_left fun x hx => (henvs x hx).1, List.map_id']
  have hauxPairs : auxvAt word mem reach (rsp + 24 + 8 * args.length + 8 * envs.length) =
      some ((aux ++ [last]).map fun p => (word (enc p.1), word (enc p.2))) := by
    rw [show rsp + 24 + 8 * args.length + 8 * envs.length =
      rsp + 8 + 8 * (args.length + 1 + (envs.length + 1)) by omega]
    exact auxvAt_of_holds hlen hauxTable hlast haux hauxReach
  rw [hargc] at hcount
  rw [hzero] at hstopWord
  simp [decode, hcount, hargWords, hstopWord.1, henvWords, hauxPairs, hargv, henvp]

end Tables

end Rockos.InitialStack
