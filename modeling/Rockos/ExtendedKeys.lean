import Rockos.Tty

/-!
# Extended scan codes (tty.rs)

A `0xE0` byte announces an extended key, and the byte after it should type
nothing. `feed_scancode` keeps one flag for this. Every `0xE0` toggles it, so
that a repeated prefix is forgotten every second time and the byte after an even
number of prefixes is taken for an ordinary key.
-/
namespace Rockos.ExtendedKeys
open Tty

def feedScancodes (s : TtyState) (codes : List UInt8) : TtyState :=
  codes.foldl TtyState.feedScancode s

/-- Everything but the prefix flag. -/
def visible (s : TtyState) : Bool × Bool × List UInt8 × List (List UInt8) :=
  (s.shiftLeft, s.shiftRight, s.lineEdit, s.readyLines)

/-- Drop every run of `0xE0` with the byte after it; `after` says that a run has
just been read. -/
def dropExtended : (after : Bool) → List UInt8 → List UInt8
  | _, [] => []
  | after, c :: cs =>
      if c = 0xE0 then dropExtended true cs
      else if after then dropExtended false cs
      else c :: dropExtended false cs

def withoutExtended (codes : List UInt8) : List UInt8 := dropExtended false codes

/-- The number of `0xE0` bytes at the end of a stream. -/
def pendingPrefixes (codes : List UInt8) : ℕ := (codes.reverse.takeWhile (· = 0xE0)).length

/-- The key does nothing in this state: it is no shift change, and it types
nothing, erases an empty line, extends a full one, or ends an empty line while
the queue is full. -/
def Ignores (s : TtyState) (code : UInt8) : Prop :=
  if code ≥ 0x80 then
    (code = 0xAA → s.shiftLeft = false) ∧ (code = 0xB6 → s.shiftRight = false)
  else if code = 0x2a then s.shiftLeft = true
  else if code = 0x36 then s.shiftRight = true
  else ∀ c, (if s.shift then shiftedChar code else scancodeToChar code) = some c →
    if c = '\n' ∨ c = '\r' then s.lineEdit = [] ∧ maxReadyLines ≤ s.readyLines.length
    else if c = '\x08' ∨ c = '\x7f' then s.lineEdit = []
    else lineBuf ≤ s.lineEdit.length

/-! ## One byte -/

theorem feedScancodes_append (s : TtyState) (codes : List UInt8) (c : UInt8) :
    feedScancodes s (codes ++ [c]) = (feedScancodes s codes).feedScancode c := by
  rw [feedScancodes, List.foldl_append]
  rfl

/-- A prefix byte toggles the flag and does nothing else. -/
theorem feedScancode_e0 (s : TtyState) :
    s.feedScancode 0xE0 = { s with e0Prefix := !s.e0Prefix } := by
  unfold TtyState.feedScancode
  cases s.e0Prefix <;> rfl

theorem feedScancode_after {s : TtyState} (h : s.e0Prefix = true) {c : UInt8} (hc : c ≠ 0xE0) :
    s.feedScancode c = { s with e0Prefix := false } := by
  rw [TtyState.feedScancode, if_pos h, if_neg hc]

/-- Without a pending prefix the byte is an ordinary one. -/
theorem feedScancode_ordinary {s : TtyState} (h : s.e0Prefix = false) {c : UInt8}
    (hc : c ≠ 0xE0) : s.feedScancode c =
      if c ≥ 0x80 then
        if c = 0xAA then { s with shiftLeft := false }
        else if c = 0xB6 then { s with shiftRight := false }
        else s
      else if c = 0x2a then { s with shiftLeft := true }
      else if c = 0x36 then { s with shiftRight := true }
      else (if s.shift then shiftedChar c else scancodeToChar c).elim s s.typeChar := by
  have hleft : c - 0x80 = 0x2a ↔ c = 0xAA := UInt8.sub_eq_iff_eq_add
  have hright : c - 0x80 = 0x36 ↔ c = 0xB6 := UInt8.sub_eq_iff_eq_add
  rw [TtyState.feedScancode, if_neg (by simp [h]), if_neg hc]
  simp only [hleft, hright]
  cases if s.shift then shiftedChar c else scancodeToChar c <;> rfl

theorem typeChar_e0Prefix (s : TtyState) (c : Char) : (s.typeChar c).e0Prefix = s.e0Prefix := by
  unfold TtyState.typeChar
  split_ifs <;> rfl

theorem feedScancode_e0Prefix (s : TtyState) {c : UInt8} (hc : c ≠ 0xE0) :
    (s.feedScancode c).e0Prefix = false := by
  cases h : s.e0Prefix with
  | true => rw [feedScancode_after h hc]
  | false =>
      rw [feedScancode_ordinary h hc]
      cases if s.shift then shiftedChar c else scancodeToChar c with
      | none => split_ifs <;> exact h
      | some ch =>
          have htyped := (typeChar_e0Prefix s ch).trans h
          split_ifs <;> first | exact h | exact htyped

theorem visible_injective {s t : TtyState} (hflag : s.e0Prefix = t.e0Prefix)
    (h : visible s = visible t) : s = t := by
  cases s
  cases t
  simp only [visible, Prod.mk.injEq] at h
  simp_all

/-! ## Bytes that do nothing -/

theorem pushBytes_eq_self_iff {line bytes : List UInt8} (h : bytes ≠ []) :
    pushBytes line bytes = line ↔ lineBuf ≤ line.length := by
  have hgrow : ∀ (bytes : List UInt8) (l : List UInt8), l.length ≤ (pushBytes l bytes).length := by
    intro bytes
    induction bytes with
    | nil => exact fun l => le_rfl
    | cons b bytes ih =>
        intro l
        refine le_trans ?_ (ih (if l.length < lineBuf then l ++ [b] else l))
        split_ifs
        · simp
        · exact le_rfl
  constructor
  · intro heq
    cases bytes with
    | nil => exact absurd rfl h
    | cons b bytes =>
        by_contra hlt
        have hlen := hgrow bytes (line ++ [b])
        rw [pushBytes, List.foldl_cons, if_pos (Nat.lt_of_not_le hlt)] at heq
        rw [pushBytes, heq, List.length_append, List.length_singleton] at hlen
        omega
  · intro hfull
    induction bytes with
    | nil => rfl
    | cons b bytes ih =>
        rw [pushBytes, List.foldl_cons, if_neg (Nat.not_lt.mpr hfull)]
        cases bytes with
        | nil => rfl
        | cons c bytes => exact ih (List.cons_ne_nil _ _)

theorem typeChar_eq_self_iff (s : TtyState) (c : Char) : visible (s.typeChar c) = visible s ↔
    if c = '\n' ∨ c = '\r' then s.lineEdit = [] ∧ maxReadyLines ≤ s.readyLines.length
    else if c = '\x08' ∨ c = '\x7f' then s.lineEdit = []
    else lineBuf ≤ s.lineEdit.length := by
  unfold TtyState.typeChar
  by_cases henter : c = '\n' ∨ c = '\r'
  · simp only [if_pos henter, visible, Prod.mk.injEq, true_and]
    rw [eq_comm]
    apply and_congr_right
    intro hempty
    split_ifs with hroom
    · simpa using hroom
    · simpa using hroom
  simp only [if_neg henter]
  by_cases herase : c = '\x08' ∨ c = '\x7f'
  · simp only [if_pos herase, visible, Prod.mk.injEq, true_and, and_true]
    cases s.lineEdit with
    | nil => simp
    | cons b line =>
        simp only [reduceCtorEq, iff_false]
        intro heq
        have hlen := congrArg List.length heq
        simp at hlen
  · simp only [if_neg herase, visible, Prod.mk.injEq, true_and, and_true]
    exact pushBytes_eq_self_iff (String.utf8EncodeChar_ne_nil)

/-- `Ignores` is exact for the byte after an even run of prefixes. -/
theorem feedScancode_ignores {s : TtyState} (h : s.e0Prefix = false) {c : UInt8}
    (hc : c ≠ 0xE0) : visible (s.feedScancode c) = visible s ↔ Ignores s c := by
  rw [feedScancode_ordinary h hc, Ignores]
  by_cases hbreak : c ≥ 0x80
  · simp only [if_pos hbreak]
    by_cases hleft : c = 0xAA
    · simp [hleft, visible, @eq_comm _ false]
    by_cases hright : c = 0xB6
    · simp [hright, visible, @eq_comm _ false]
    · simp [hleft, hright]
  simp only [if_neg hbreak]
  by_cases hleft : c = 0x2a
  · simp [hleft, visible, @eq_comm _ true]
  by_cases hright : c = 0x36
  · simp [hright, visible, @eq_comm _ true]
  simp only [if_neg hleft, if_neg hright]
  cases if s.shift then shiftedChar c else scancodeToChar c with
  | none => simp
  | some ch => simpa using typeChar_eq_self_iff s ch

/-! ## Whole streams -/

theorem pendingPrefixes_append (codes : List UInt8) (c : UInt8) :
    pendingPrefixes (codes ++ [c]) = if c = 0xE0 then pendingPrefixes codes + 1 else 0 := by
  rw [pendingPrefixes, List.reverse_append, List.reverse_singleton, List.singleton_append,
    List.takeWhile_cons]
  by_cases hc : c = 0xE0
  · simp [hc, pendingPrefixes]
  · simp [hc]

/-- The flag is the parity of the prefixes read last. -/
theorem feedScancodes_e0Prefix (codes : List UInt8) :
    (feedScancodes .new codes).e0Prefix = decide (pendingPrefixes codes % 2 = 1) := by
  induction codes using List.reverseRecOn with
  | nil => rfl
  | append_singleton codes c ih =>
      rw [feedScancodes_append, pendingPrefixes_append]
      by_cases hc : c = 0xE0
      · rw [if_pos hc, hc, feedScancode_e0, ih]
        rcases Nat.mod_two_eq_zero_or_one (pendingPrefixes codes) with h | h
        · simp [h, Nat.add_mod]
        · simp [h, Nat.add_mod]
      · rw [if_neg hc, feedScancode_e0Prefix _ hc]
        rfl

/-- The flag with which `dropExtended` leaves a stream. -/
def endsInRun (after : Bool) (codes : List UInt8) : Bool :=
  codes.foldl (fun _ c => decide (c = 0xE0)) after

theorem dropExtended_append (codes rest : List UInt8) (after : Bool) :
    dropExtended after (codes ++ rest) =
      dropExtended after codes ++ dropExtended (endsInRun after codes) rest := by
  induction codes generalizing after with
  | nil => rfl
  | cons c codes ih =>
      rw [endsInRun, List.foldl_cons, ← endsInRun, List.cons_append, dropExtended, dropExtended]
      split_ifs with hc hafter
      · rw [ih, decide_eq_true hc]
      · rw [ih, decide_eq_false hc]
      · rw [ih, decide_eq_false hc, List.cons_append]

theorem endsInRun_eq (codes : List UInt8) :
    endsInRun false codes = decide (0 < pendingPrefixes codes) := by
  induction codes using List.reverseRecOn with
  | nil => rfl
  | append_singleton codes c ih =>
      rw [endsInRun, List.foldl_append, List.foldl_cons, List.foldl_nil, pendingPrefixes_append]
      by_cases hc : c = 0xE0 <;> simp [hc]

/-- A byte stays in the stream when it is no prefix and follows none. -/
theorem withoutExtended_append (codes : List UInt8) (c : UInt8) :
    withoutExtended (codes ++ [c]) = withoutExtended codes ++
      if c = 0xE0 ∨ 0 < pendingPrefixes codes then [] else [c] := by
  rw [withoutExtended, dropExtended_append, endsInRun_eq, withoutExtended]
  congr 1
  by_cases hc : c = 0xE0
  · simp [dropExtended, hc]
  · by_cases hp : 0 < pendingPrefixes codes <;> simp [dropExtended, hc, hp]

theorem withoutExtended_e0Prefix (codes : List UInt8) :
    (feedScancodes .new (withoutExtended codes)).e0Prefix = false := by
  induction codes using List.reverseRecOn with
  | nil => rfl
  | append_singleton codes c ih =>
      rw [withoutExtended_append]
      split_ifs with h
      · rwa [List.append_nil]
      · rw [feedScancodes_append]
        exact feedScancode_e0Prefix _ (not_or.mp h).1

/-- The stream and its ordinary part have led to the same visible state. -/
def Agree (codes : List UInt8) : Prop :=
  visible (feedScancodes .new codes) = visible (feedScancodes .new (withoutExtended codes))

/-- From an agreement, the next byte breaks it exactly when it follows an even
run of prefixes and is not ignored. -/
theorem agree_append {codes : List UInt8} (h : Agree codes) (c : UInt8) :
    Agree (codes ++ [c]) ↔
      (c ≠ 0xE0 → 0 < pendingPrefixes codes → pendingPrefixes codes % 2 = 0 →
        Ignores (feedScancodes .new codes) c) := by
  unfold Agree at h ⊢
  have hflag := feedScancodes_e0Prefix codes
  rw [feedScancodes_append, withoutExtended_append]
  by_cases hc : c = 0xE0
  · rw [hc, feedScancode_e0, if_pos (.inl rfl), List.append_nil, ← h]
    simp [visible]
  by_cases hrun : 0 < pendingPrefixes codes
  · rw [if_pos (.inr hrun), List.append_nil, ← h]
    by_cases heven : pendingPrefixes codes % 2 = 0
    · rw [feedScancode_ignores (by rw [hflag, heven]; rfl) hc]
      exact ⟨fun hi _ _ _ => hi, fun hi => hi hc hrun heven⟩
    · have hodd : (feedScancodes .new codes).e0Prefix = true := by
        rw [hflag]
        exact decide_eq_true (by omega)
      rw [feedScancode_after hodd hc]
      exact ⟨fun _ _ _ he => absurd he heven, fun _ => rfl⟩
  · -- neither stream has a prefix pending, so the states are equal
    have hsame : feedScancodes .new codes = feedScancodes .new (withoutExtended codes) := by
      refine visible_injective ?_ h
      rw [hflag, withoutExtended_e0Prefix]
      exact decide_eq_false (by omega)
    rw [if_neg (not_or.mpr ⟨hc, hrun⟩), feedScancodes_append, hsame]
    exact ⟨fun _ _ hr => absurd hr hrun, fun _ => rfl⟩

/-- Along a stream, extended keys have typed nothing at every point exactly when
every byte after an even run of prefixes is one that the terminal ignores in the
state in which it arrives. -/
theorem extended_keys_iff (codes : List UInt8) :
    (∀ seen, seen <+: codes →
      visible (feedScancodes .new seen) =
        visible (feedScancodes .new (withoutExtended seen))) ↔
    ∀ seen c, seen ++ [c] <+: codes → c ≠ 0xE0 → 0 < pendingPrefixes seen →
      pendingPrefixes seen % 2 = 0 → Ignores (feedScancodes .new seen) c := by
  induction codes using List.reverseRecOn with
  | nil => simp [withoutExtended, dropExtended]
  | append_singleton codes b ih =>
      constructor
      · intro h seen c hseen
        have hagree : Agree seen := h seen ((List.prefix_append seen [c]).trans hseen)
        exact (agree_append hagree c).mp (h _ hseen)
      · intro h
        have hold : ∀ seen, seen <+: codes → Agree seen :=
          ih.mpr fun seen c hseen => h seen c (hseen.trans (List.prefix_append codes [b]))
        intro seen hseen
        rcases List.prefix_concat_iff.mp hseen with rfl | hseen
        · exact (agree_append (hold codes (List.prefix_refl codes)) b).mpr
            (h codes b (List.prefix_refl _))
        · exact hold seen hseen

/-- Two prefixes and the make code of `a`: the letter is typed, although the
whole stream is one extended key. -/
theorem repeated_prefix_types :
    withoutExtended [0xE0, 0xE0, 0x1E] = [] ∧
    (feedScancodes .new [0xE0, 0xE0, 0x1E]).lineEdit = [0x61] ∧
    visible (feedScancodes .new [0xE0, 0xE0, 0x1E]) ≠
      visible (feedScancodes .new (withoutExtended [0xE0, 0xE0, 0x1E])) := by decide

end Rockos.ExtendedKeys
