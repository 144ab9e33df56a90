import Rockos.Tty

/-!
# Typed lines (tty.rs)

Which lines a sequence of keys ends depends on the keys alone and not on the
queue; which of them get into the queue depends on how fast the queue is read.
-/
namespace Rockos.TypedLines
open Tty

/-- The line that a key ends, whether or not there is room for it. -/
def completed (s : TtyState) (code : UInt8) : List (List UInt8) :=
  match s.typed code with
  | some c => if c = '\n' ∨ c = '\r' then [s.lineEdit ++ [newline]] else []
  | none => []

def lines : TtyState → List UInt8 → List (List UInt8)
  | _, [] => []
  | s, code :: codes => completed s code ++ lines (s.feedScancode code) codes

/-- Terminals that differ in their queues only. -/
def SameEdit (s s' : TtyState) : Prop := { s with readyLines := [] } = { s' with readyLines := [] }

section
variable {s s' : TtyState}

theorem SameEdit.exists (h : SameEdit s s') : ∃ queue, s' = { s with readyLines := queue } := by
  cases s
  cases s'
  simp only [SameEdit, TtyState.mk.injEq] at h
  obtain ⟨rfl, rfl, rfl, rfl, -⟩ := h
  exact ⟨_, rfl⟩

theorem completed_congr (h : SameEdit s s') (code : UInt8) :
    completed s' code = completed s code := by
  obtain ⟨queue, rfl⟩ := h.exists
  rfl

theorem typeChar_congr (queue : List (List UInt8)) (c : Char) :
    SameEdit (s.typeChar c) (({ s with readyLines := queue } : TtyState).typeChar c) := by
  unfold SameEdit TtyState.typeChar
  split_ifs <;> rfl

theorem SameEdit.feedScancode (h : SameEdit s s') (code : UInt8) :
    SameEdit (s.feedScancode code) (s'.feedScancode code) := by
  obtain ⟨queue, rfl⟩ := h.exists
  have hsame : ({ s with readyLines := queue } : TtyState).typed code = s.typed code := rfl
  by_cases hkey : s.e0Prefix ∨ code ≥ 0x80 ∨ code = 0x2a ∨ code = 0x36
  · unfold SameEdit TtyState.feedScancode
    simp only
    split_ifs <;> first | rfl | exact absurd hkey (by simp_all)
  · rw [feedScancode_key hkey, feedScancode_key (s := { s with readyLines := queue }) hkey, hsame]
    cases s.typed code with
    | none => rfl
    | some c => exact typeChar_congr queue c

theorem lines_congr (h : SameEdit s s') (codes : List UInt8) : lines s' codes = lines s codes := by
  induction codes generalizing s s' with
  | nil => rfl
  | cons code codes ih => rw [lines, lines, completed_congr h, ih (h.feedScancode code)]

theorem read_sameEdit (s : TtyState) (dstLen : ℕ) (nonblock : Bool) :
    SameEdit s (s.read dstLen nonblock).2 := by
  unfold SameEdit TtyState.read
  cases s.readyLines <;> rfl

end

/-! ## Lines that found room -/

def feeds : List Event → List UInt8
  | [] => []
  | .feed code :: es => code :: feeds es
  | .read _ _ :: es => feeds es

/-- The line that a key ends, if it gets into the queue. -/
def kept (s : TtyState) (code : UInt8) : List (List UInt8) :=
  if s.readyLines.length < maxReadyLines then completed s code else []

def keptLines : TtyState → List Event → List (List UInt8)
  | _, [] => []
  | s, .feed code :: es => kept s code ++ keptLines (s.feedScancode code) es
  | s, .read dstLen nonblock :: es => keptLines (s.read dstLen nonblock).2 es

theorem feeds_append (es es' : List Event) : feeds (es ++ es') = feeds es ++ feeds es' := by
  induction es with
  | nil => rfl
  | cons e es ih => cases e <;> simp [feeds, ih]

theorem feeds_map_feed (codes : List UInt8) : feeds (codes.map .feed) = codes := by
  induction codes with
  | nil => rfl
  | cons code codes ih => simp [feeds, ih]

theorem accepted_eq (s : TtyState) (code : UInt8) : s.accepted code = (kept s code).flatten := by
  unfold TtyState.accepted kept completed
  cases s.typed code with
  | none => simp
  | some c =>
      by_cases hroom : s.readyLines.length < maxReadyLines
      · by_cases henter : c = '\n' ∨ c = '\r' <;> simp [hroom, henter]
      · simp [hroom]

theorem feedScancode_readyLines (s : TtyState) (code : UInt8) :
    (s.feedScancode code).readyLines = s.readyLines ++ kept s code := by
  unfold kept completed
  cases ht : s.typed code with
  | none => simp [(feedScancode_untyped ht).2]
  | some c =>
      rw [feedScancode_typed ht]
      unfold TtyState.typeChar
      split_ifs <;> simp_all

theorem read_length_le (s : TtyState) (dstLen : ℕ) (nonblock : Bool) :
    (s.read dstLen nonblock).2.readyLines.length ≤ s.readyLines.length := by
  unfold TtyState.read
  cases hl : s.readyLines with
  | nil => simp [hl]
  | cons line rest =>
      simp only
      split_ifs <;> simp

theorem acceptedStream_eq (s : TtyState) (es : List Event) :
    acceptedStream (run s es).1 = (keptLines s es).flatten := by
  induction es generalizing s with
  | nil => rfl
  | cons e es ih =>
      have hrun : acceptedStream (run s (e :: es)).1 =
          (step s e).1.accepted ++ acceptedStream (run (step s e).2 es).1 := by
        simp [run, acceptedStream]
      rw [hrun, ih]
      cases e with
      | feed code => simp [step, keptLines, accepted_eq]
      | read dstLen nonblock =>
          have hnone : (step s (.read dstLen nonblock)).1.accepted = [] := by
            simp only [step]
            split <;> rfl
          rw [hnone, step_read_state, keptLines, List.nil_append]

/-- Whole lines are dropped, and the order stays. -/
theorem keptLines_sublist (s : TtyState) (es : List Event) :
    (keptLines s es).Sublist (lines s (feeds es)) := by
  induction es generalizing s with
  | nil => exact .slnil
  | cons e es ih =>
      cases e with
      | feed code =>
          refine List.Sublist.append ?_ (ih _)
          unfold kept
          split_ifs
          · exact List.Sublist.refl _
          · exact List.nil_sublist _
      | read dstLen nonblock =>
          have hrest := ih (s.read dstLen nonblock).2
          rwa [lines_congr (read_sameEdit s dstLen nonblock)] at hrest

/-- A queue with room for all lines drops none. -/
theorem keptLines_eq {s : TtyState} {es : List Event}
    (hroom : s.readyLines.length + (lines s (feeds es)).length ≤ maxReadyLines) :
    keptLines s es = lines s (feeds es) := by
  induction es generalizing s with
  | nil => rfl
  | cons e es ih =>
      cases e with
      | feed code =>
          simp only [feeds, lines, List.length_append] at hroom ⊢
          have hkept : kept s code = completed s code := by
            unfold kept
            split_ifs with hfull
            · rfl
            · exact (List.length_eq_zero_iff.mp (by omega)).symm
          rw [keptLines, hkept, ih]
          rw [feedScancode_readyLines, hkept, List.length_append]
          omega
      | read dstLen nonblock =>
          have hsame := lines_congr (read_sameEdit s dstLen nonblock) (feeds es)
          have hle := read_length_le s dstLen nonblock
          rw [keptLines, ih, hsame]
          · rfl
          · rw [hsame]
            exact (Nat.add_le_add_right hle _).trans hroom

theorem run_append (s : TtyState) (es es' : List Event) : run s (es ++ es') =
    ((run s es).1 ++ (run (run s es).2 es').1, (run (run s es).2 es').2) := by
  induction es generalizing s with
  | nil => rfl
  | cons e es ih => simp [run, ih]

theorem Sound.run {s : TtyState} (h : s.Sound) (es : List Event) : (run s es).2.Sound := by
  induction es generalizing s with
  | nil => exact h
  | cons e es ih => exact ih (h.step e)

theorem returnedStream_feeds (s : TtyState) (codes : List UInt8) :
    returnedStream (run s (codes.map .feed)).1 = [] := by
  induction codes generalizing s with
  | nil => rfl
  | cons code codes ih => exact ih _

theorem lines_append (s : TtyState) (codes codes' : List UInt8) :
    lines s (codes ++ codes') = lines s codes ++ lines (run s (codes.map .feed)).2 codes' := by
  induction codes generalizing s with
  | nil => rfl
  | cons code codes ih =>
      rw [List.cons_append, lines, lines, ih, List.append_assoc]
      rfl

/-- A queue that nobody reads is empty as long as no line has been ended. -/
theorem feeds_empty_iff (s : TtyState) (codes : List UInt8) :
    (run s (codes.map .feed)).2.readyLines = [] ↔ s.readyLines = [] ∧ lines s codes = [] := by
  induction codes generalizing s with
  | nil => simp [run, lines]
  | cons code codes ih =>
      have hcons : (run s ((code :: codes).map .feed)).2 =
          (run (s.feedScancode code) (codes.map .feed)).2 := rfl
      rw [hcons, ih, feedScancode_readyLines, lines, List.append_eq_nil_iff,
        List.append_eq_nil_iff, and_assoc]
      refine and_congr_right fun hempty => and_congr_left fun _ => ?_
      have hroom : s.readyLines.length < maxReadyLines := by
        rw [hempty]
        decide
      rw [kept, if_pos hroom]

/-! ## What a terminal took in and gave out -/

/-- The terminal went on with events that fed these keys and returned these
bytes. -/
def Input (s s' : TtyState) (keys got : List UInt8) : Prop :=
  ∃ es, s' = (run s es).2 ∧ feeds es = keys ∧ returnedStream (run s es).1 = got

theorem Input.refl (s : TtyState) : Input s s [] [] := ⟨[], rfl, rfl, rfl⟩

theorem Input.trans {s s' s'' : TtyState} {keys keys' got got' : List UInt8}
    (h : Input s s' keys got) (h' : Input s' s'' keys' got') :
    Input s s'' (keys ++ keys') (got ++ got') := by
  obtain ⟨es, rfl, rfl, rfl⟩ := h
  obtain ⟨es', rfl, rfl, rfl⟩ := h'
  refine ⟨es ++ es', ?_, feeds_append es es', ?_⟩
  · rw [run_append]
  · rw [run_append, returnedStream, List.flatMap_append]
    rfl

theorem Input.feed (s : TtyState) (codes : List UInt8) :
    Input s (run s (codes.map .feed)).2 codes [] :=
  ⟨_, rfl, feeds_map_feed codes, returnedStream_feeds s codes⟩

theorem Input.sound {s s' : TtyState} {keys got : List UInt8} (h : Input s s' keys got)
    (hs : s.Sound) : s'.Sound := by
  obtain ⟨es, rfl, -, -⟩ := h
  exact Sound.run hs es

end Rockos.TypedLines
