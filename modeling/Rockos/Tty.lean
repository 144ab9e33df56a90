import Mathlib.Tactic

/-!
# The cooked terminal (tty.rs, and the key table of keyboard.rs)

Scan codes arrive one byte at a time from the keyboard interrupt and edit the
current line; Enter queues it. Readers take bytes from the front of the queue,
at most one line per call, and push back what did not fit.

The state is the one behind the `TTY` lock, so an interleaving of interrupts
and reads is a list of events. `run` executes it and keeps what every event
returned, which is what the stream laws at the end talk about.
-/
namespace Rockos.Tty

def lineBuf : ℕ := 1024

def maxReadyLines : ℕ := 128

structure TtyState where
  shiftLeft : Bool
  shiftRight : Bool
  e0Prefix : Bool
  lineEdit : List UInt8
  readyLines : List (List UInt8)
  deriving DecidableEq, Repr

def TtyState.new : TtyState := ⟨false, false, false, [], []⟩

def TtyState.shift (s : TtyState) : Bool := s.shiftLeft || s.shiftRight

/-- The arms of `scancode_to_char` that yield a character, in source order. -/
def keyTable : List (UInt8 × Char) :=
  [(0x01, '\x1b'), (0x0E, '\x08'), (0x0F, '\t'), (0x1C, '\n'), (0x39, ' '),
    (0x02, '1'), (0x03, '2'), (0x04, '3'), (0x05, '4'), (0x06, '5'), (0x07, '6'),
    (0x08, '7'), (0x09, '8'), (0x0A, '9'), (0x0B, '0'), (0x0C, '-'), (0x0D, '='),
    (0x10, 'q'), (0x11, 'w'), (0x12, 'e'), (0x13, 'r'), (0x14, 't'), (0x15, 'y'),
    (0x16, 'u'), (0x17, 'i'), (0x18, 'o'), (0x19, 'p'), (0x1A, '['), (0x1B, ']'),
    (0x1E, 'a'), (0x1F, 's'), (0x20, 'd'), (0x21, 'f'), (0x22, 'g'), (0x23, 'h'),
    (0x24, 'j'), (0x25, 'k'), (0x26, 'l'), (0x27, ';'), (0x28, Char.ofNat 0x27),
    (0x29, Char.ofNat 0x60), (0x2B, Char.ofNat 0x5C),
    (0x2C, 'z'), (0x2D, 'x'), (0x2E, 'c'), (0x2F, 'v'), (0x30, 'b'), (0x31, 'n'),
    (0x32, 'm'), (0x33, ','), (0x34, '.'), (0x35, '/'),
    (0x37, '*'), (0x4A, '-'), (0x4E, '+'), (0x47, '7'), (0x48, '8'), (0x49, '9'),
    (0x4B, '4'), (0x4C, '5'), (0x4D, '6'), (0x4F, '1'), (0x50, '2'), (0x51, '3'),
    (0x52, '0'), (0x53, '.')]

def scancodeToChar (scancode : UInt8) : Option Char :=
  if scancode ≥ 0x80 ∨ scancode = 0xE0 then none else keyTable.lookup scancode

/-- The arms of `shifted_char` before its default. -/
def shiftTable : List (UInt8 × Char) :=
  [(0x02, '!'), (0x03, '@'), (0x04, '#'), (0x05, '$'), (0x06, '%'), (0x07, '^'),
    (0x08, '&'), (0x09, '*'), (0x0A, '('), (0x0B, ')'), (0x0C, '_'), (0x0D, '+'),
    (0x29, '~'), (0x2B, '|'), (0x33, '<'), (0x34, '>'), (0x35, '?')]

def shiftedChar (code : UInt8) : Option Char :=
  match shiftTable.lookup code with
  | some c => some c
  | none => (scancodeToChar code).map Char.toUpper

/-- Append bytes while the line buffer has room. -/
def pushBytes (line : List UInt8) (bytes : List UInt8) : List UInt8 :=
  bytes.foldl (fun l b => if l.length < lineBuf then l ++ [b] else l) line

def newline : UInt8 := 0x0A

/-- The final `match c` of `feed_scancode`. -/
def TtyState.typeChar (s : TtyState) (c : Char) : TtyState :=
  if c = '\n' ∨ c = '\r' then
    let line := s.lineEdit ++ [newline]
    { s with
      lineEdit := []
      readyLines := if s.readyLines.length < maxReadyLines then s.readyLines ++ [line]
        else s.readyLines }
  else if c = '\x08' ∨ c = '\x7f' then { s with lineEdit := s.lineEdit.dropLast }
  else { s with lineEdit := pushBytes s.lineEdit (String.utf8EncodeChar c) }

def TtyState.feedScancode (s : TtyState) (code : UInt8) : TtyState :=
  if s.e0Prefix then
    if code = 0xE0 then { s with e0Prefix := code != 0xE0 } else { s with e0Prefix := false }
  else if code = 0xE0 then { s with e0Prefix := true }
  else if code ≥ 0x80 then
    let mk := code - 0x80
    if mk = 0x2a then { s with shiftLeft := false }
    else if mk = 0x36 then { s with shiftRight := false }
    else s
  else if code = 0x2a then { s with shiftLeft := true }
  else if code = 0x36 then { s with shiftRight := true }
  else
    match if s.shift then shiftedChar code else scancodeToChar code with
    | none => s
    | some c => s.typeChar c

/-- `read(dst, nonblock)`: the bytes stored into `dst`, or the error code. -/
def TtyState.read (s : TtyState) (dstLen : ℕ) (nonblock : Bool) :
    Except Int (List UInt8) × TtyState :=
  match s.readyLines with
  | [] => (if nonblock then .error (-11) else .ok [], s)
  | line :: rest =>
      let n := min line.length dstLen
      (.ok (line.take n),
        { s with readyLines := if n < line.length then line.drop n :: rest else rest })

/-! ## Interleavings of interrupts and reads -/

inductive Event where
  | feed (code : UInt8)
  | read (dstLen : ℕ) (nonblock : Bool)
  deriving DecidableEq, Repr

/-- The character a scan code types in a state, if any. -/
def TtyState.typed (s : TtyState) (code : UInt8) : Option Char :=
  if s.e0Prefix ∨ code ≥ 0x80 ∨ code = 0x2a ∨ code = 0x36 then none
  else if s.shift then shiftedChar code else scancodeToChar code

/-- The line an Enter hands over: the edited line with its newline when fewer
than `MAX_READY_LINES` lines are queued, nothing otherwise. -/
def TtyState.accepted (s : TtyState) (code : UInt8) : List UInt8 :=
  match s.typed code with
  | some c =>
      if (c = '\n' ∨ c = '\r') ∧ s.readyLines.length < maxReadyLines then s.lineEdit ++ [newline]
      else []
  | none => []

/-- What one event contributes to the history: the line it accepted and the
chunk it returned. -/
structure Output where
  accepted : List UInt8
  returned : List UInt8
  deriving DecidableEq, Repr

def step (s : TtyState) : Event → Output × TtyState
  | .feed code => (⟨s.accepted code, []⟩, s.feedScancode code)
  | .read dstLen nonblock =>
      match s.read dstLen nonblock with
      | (.ok chunk, t) => (⟨[], chunk⟩, t)
      | (.error _, t) => (⟨[], []⟩, t)

def run : TtyState → List Event → List Output × TtyState
  | s, [] => ([], s)
  | s, e :: es =>
      let r := step s e
      let q := run r.2 es
      (r.1 :: q.1, q.2)

def acceptedStream (outs : List Output) : List UInt8 := outs.flatMap Output.accepted

def returnedStream (outs : List Output) : List UInt8 := outs.flatMap Output.returned

/-! ## One scan code -/

/-- Past the prefix and shift codes, the typed character decides. -/
theorem feedScancode_key {s : TtyState} {code : UInt8}
    (h : ¬(s.e0Prefix ∨ code ≥ 0x80 ∨ code = 0x2a ∨ code = 0x36)) :
    s.feedScancode code = match s.typed code with
      | none => s
      | some c => s.typeChar c := by
  rw [TtyState.typed, if_neg h]
  simp only [not_or] at h
  obtain ⟨hpre, h80, h2a, h36⟩ := h
  have he0 : code ≠ 0xE0 := fun he => h80 (by rw [he]; decide)
  rw [TtyState.feedScancode, if_neg hpre, if_neg he0, if_neg h80, if_neg h2a, if_neg h36]

/-- A scan code that types nothing leaves the line and the queue alone. -/
theorem feedScancode_untyped {s : TtyState} {code : UInt8} (h : s.typed code = none) :
    (s.feedScancode code).lineEdit = s.lineEdit ∧
      (s.feedScancode code).readyLines = s.readyLines := by
  by_cases hkey : s.e0Prefix ∨ code ≥ 0x80 ∨ code = 0x2a ∨ code = 0x36
  · unfold TtyState.feedScancode
    simp only
    split_ifs with h₁ h₂ h₃ h₄ h₅ h₆ h₇ h₈ <;> first | exact ⟨rfl, rfl⟩ | skip
    all_goals exact absurd hkey (by simp_all)
  · rw [feedScancode_key hkey, h]
    exact ⟨rfl, rfl⟩

theorem feedScancode_typed {s : TtyState} {code : UInt8} {c : Char}
    (h : s.typed code = some c) : s.feedScancode code = s.typeChar c := by
  have hkey : ¬(s.e0Prefix ∨ code ≥ 0x80 ∨ code = 0x2a ∨ code = 0x36) := by
    intro hk
    rw [TtyState.typed, if_pos hk] at h
    cases h
  rw [feedScancode_key hkey, h]

/-- The queue grows by exactly the accepted line. -/
theorem feedScancode_ready (s : TtyState) (code : UInt8) :
    (s.feedScancode code).readyLines.flatten = s.readyLines.flatten ++ s.accepted code := by
  unfold TtyState.accepted
  cases h : s.typed code with
  | none => simp [(feedScancode_untyped h).2]
  | some c =>
      rw [feedScancode_typed h]
      unfold TtyState.typeChar
      split_ifs <;> simp_all

/-- A read returns a prefix of the queued bytes and leaves the rest. -/
theorem read_ready (s : TtyState) (dstLen : ℕ) (nonblock : Bool) :
    (step s (.read dstLen nonblock)).1.returned ++
        (step s (.read dstLen nonblock)).2.readyLines.flatten = s.readyLines.flatten := by
  unfold step TtyState.read
  cases hl : s.readyLines with
  | nil => cases nonblock <;> simp [hl]
  | cons line rest =>
      by_cases hn : min line.length dstLen < line.length
      · simp [hn, ← List.append_assoc]
      · have hle : line.length ≤ min line.length dstLen := Nat.le_of_not_lt hn
        simp [hn, List.take_of_length_le hle]

theorem step_conserves (s : TtyState) (e : Event) :
    (step s e).1.returned ++ (step s e).2.readyLines.flatten =
      s.readyLines.flatten ++ (step s e).1.accepted := by
  cases e with
  | feed code => exact feedScancode_ready s code
  | read dstLen nonblock =>
      have hnone : (step s (.read dstLen nonblock)).1.accepted = [] := by
        simp only [step]
        split <;> rfl
      rw [hnone, List.append_nil]
      exact read_ready s dstLen nonblock

theorem run_conserves (s : TtyState) (es : List Event) :
    returnedStream (run s es).1 ++ (run s es).2.readyLines.flatten =
      s.readyLines.flatten ++ acceptedStream (run s es).1 := by
  induction es generalizing s with
  | nil => simp [run, returnedStream, acceptedStream]
  | cons e es ih =>
      have hstep := step_conserves s e
      have hrest := ih (step s e).2
      simp only [run, returnedStream, acceptedStream, List.flatMap_cons] at hrest ⊢
      rw [List.append_assoc, hrest, ← List.append_assoc, hstep, List.append_assoc]

/-! ## What the keys can type -/

/-- A byte that may stand in the edited line. -/
def plain (b : UInt8) : Bool := b < 0x80 && b != 0x0A && b != 0x0D && b != 0x08

/-- Enter, an erase key, or exactly one plain byte. -/
def typable (c : Char) : Bool :=
  c == '\n' || c == '\r' || c == '\x08' || c == '\x7f' ||
    match String.utf8EncodeChar c with
    | [b] => plain b
    | _ => false

theorem keyTable_typable :
    keyTable.all (fun e => typable e.2 && typable e.2.toUpper) = true := by decide

theorem shiftTable_typable : shiftTable.all (fun e => typable e.2) = true := by decide

theorem mem_of_lookup {l : List (UInt8 × Char)} {code : UInt8} {c : Char}
    (h : l.lookup code = some c) : (code, c) ∈ l := by
  obtain ⟨l₁, l₂, rfl, -⟩ := List.lookup_eq_some_iff.mp h
  simp

theorem scancodeToChar_typable {code : UInt8} {c : Char} (h : scancodeToChar code = some c) :
    typable c = true ∧ typable c.toUpper = true := by
  unfold scancodeToChar at h
  split_ifs at h
  have hall := List.all_eq_true.mp keyTable_typable _ (mem_of_lookup h)
  simpa only [Bool.and_eq_true] using hall

theorem shiftedChar_typable {code : UInt8} {c : Char} (h : shiftedChar code = some c) :
    typable c = true := by
  unfold shiftedChar at h
  cases hs : shiftTable.lookup code with
  | some d =>
      simp only [hs, Option.some.injEq] at h
      subst h
      exact List.all_eq_true.mp shiftTable_typable _ (mem_of_lookup hs)
  | none =>
      simp only [hs, Option.map_eq_some_iff] at h
      obtain ⟨d, hd, rfl⟩ := h
      exact (scancodeToChar_typable hd).2

theorem typed_typable {s : TtyState} {code : UInt8} {c : Char} (h : s.typed code = some c) :
    typable c = true := by
  unfold TtyState.typed at h
  split_ifs at h
  · exact shiftedChar_typable h
  · exact (scancodeToChar_typable h).1

/-! ## The shape of the queued lines -/

/-- A queued line or remainder: plain bytes and one newline at the end. -/
def Line (l : List UInt8) : Prop :=
  ∃ body, l = body ++ [newline] ∧ body.length ≤ lineBuf ∧ ∀ b ∈ body, plain b = true

structure TtyState.Sound (s : TtyState) : Prop where
  edit_length : s.lineEdit.length ≤ lineBuf
  edit_plain : ∀ b ∈ s.lineEdit, plain b = true
  ready_length : s.readyLines.length ≤ maxReadyLines
  ready_lines : ∀ l ∈ s.readyLines, Line l

theorem TtyState.new_sound : TtyState.new.Sound where
  edit_length := Nat.zero_le _
  edit_plain := by simp [TtyState.new]
  ready_length := Nat.zero_le _
  ready_lines := by simp [TtyState.new]

theorem Line.drop {l : List UInt8} (h : Line l) {n : ℕ} (hn : n < l.length) :
    Line (l.drop n) := by
  obtain ⟨body, rfl, hlen, hplain⟩ := h
  have hn' : n ≤ body.length := by
    rw [List.length_append, List.length_singleton] at hn
    omega
  refine ⟨body.drop n, List.drop_append_of_le_length hn', ?_, ?_⟩
  · rw [List.length_drop]
    omega
  · intro b hb
    exact hplain b (List.mem_of_mem_drop hb)

/-- No prefix of a queued line holds a newline other than the last byte. -/
theorem Line.take_newline {l : List UInt8} (h : Line l) {n : ℕ} {pre post : List UInt8}
    (he : l.take n = pre ++ newline :: post) : post = [] := by
  obtain ⟨body, rfl, -, hplain⟩ := h
  have hsplit : pre ++ newline :: (post ++ (body ++ [newline]).drop n) = body ++ [newline] := by
    conv_rhs => rw [← List.take_append_drop n (body ++ [newline]), he]
    simp
  have hbody : newline ∉ body := fun hb => absurd (hplain newline hb) (by decide)
  rcases List.append_eq_append_iff.mp hsplit with ⟨mid, hb, hrest⟩ | ⟨mid, hp, hrest⟩
  · cases mid with
    | nil =>
        rw [List.nil_append, List.cons.injEq] at hrest
        exact (List.append_eq_nil_iff.mp hrest.2).1
    | cons b mid =>
        simp only [List.cons_append, List.cons.injEq] at hrest
        exact absurd (show newline ∈ body by rw [hb, hrest.1]; simp) hbody
  · cases mid with
    | nil =>
        rw [List.nil_append, List.cons.injEq] at hrest
        exact (List.append_eq_nil_iff.mp hrest.2.symm).1
    | cons b mid => simp at hrest

/-- Enter queues the edited line when there is room. -/
theorem TtyState.Sound.enter {s : TtyState} (h : s.Sound) :
    TtyState.Sound { s with
      lineEdit := []
      readyLines := if s.readyLines.length < maxReadyLines
        then s.readyLines ++ [s.lineEdit ++ [newline]] else s.readyLines } := by
  refine ⟨Nat.zero_le _, by simp, ?_, ?_⟩ <;> split_ifs with hroom
  · simpa using hroom
  · exact h.ready_length
  · intro l hl
    rcases List.mem_append.mp hl with hl | hl
    · exact h.ready_lines l hl
    · rw [List.mem_singleton.mp hl]
      exact ⟨_, rfl, h.edit_length, h.edit_plain⟩
  · exact h.ready_lines

theorem TtyState.Sound.setEdit {s : TtyState} (h : s.Sound) {line : List UInt8}
    (hlen : line.length ≤ lineBuf) (hplain : ∀ b ∈ line, plain b = true) :
    TtyState.Sound { s with lineEdit := line } :=
  ⟨hlen, hplain, h.ready_length, h.ready_lines⟩

theorem typable_byte {c : Char} (hc : typable c = true) (henter : ¬(c = '\n' ∨ c = '\r'))
    (herase : ¬(c = '\x08' ∨ c = '\x7f')) :
    ∃ b, String.utf8EncodeChar c = [b] ∧ plain b = true := by
  simp only [not_or] at henter herase
  unfold typable at hc
  split at hc
  · rename_i b he
    exact ⟨b, he, by simpa [henter, herase] using hc⟩
  · simp [henter, herase] at hc

theorem TtyState.Sound.typeChar {s : TtyState} (h : s.Sound) {c : Char}
    (hc : typable c = true) : (s.typeChar c).Sound := by
  unfold TtyState.typeChar
  by_cases henter : c = '\n' ∨ c = '\r'
  · rw [if_pos henter]
    exact h.enter
  rw [if_neg henter]
  by_cases herase : c = '\x08' ∨ c = '\x7f'
  · rw [if_pos herase]
    have hlen := h.edit_length
    refine h.setEdit ?_ ?_
    · rw [List.length_dropLast]
      omega
    · intro b hb
      exact h.edit_plain b (List.mem_of_mem_dropLast hb)
  · rw [if_neg herase]
    obtain ⟨b, hb, hplain⟩ := typable_byte hc henter herase
    simp only [hb, pushBytes, List.foldl_cons, List.foldl_nil]
    split_ifs with hroom
    · refine h.setEdit (by simpa using hroom) ?_
      intro x hx
      rcases List.mem_append.mp hx with hx | hx
      · exact h.edit_plain x hx
      · rw [List.mem_singleton.mp hx]
        exact hplain
    · exact h.setEdit h.edit_length h.edit_plain

theorem TtyState.Sound.feedScancode {s : TtyState} (h : s.Sound) (code : UInt8) :
    (s.feedScancode code).Sound := by
  cases ht : s.typed code with
  | none =>
      obtain ⟨hedit, hready⟩ := feedScancode_untyped ht
      constructor
      · rw [hedit]; exact h.edit_length
      · rw [hedit]; exact h.edit_plain
      · rw [hready]; exact h.ready_length
      · rw [hready]; exact h.ready_lines
  | some c =>
      rw [feedScancode_typed ht]
      exact h.typeChar (typed_typable ht)

theorem TtyState.Sound.read {s : TtyState} (h : s.Sound) (dstLen : ℕ) (nonblock : Bool) :
    (s.read dstLen nonblock).2.Sound := by
  have hlen := h.ready_length
  have hlines := h.ready_lines
  unfold TtyState.read
  cases hl : s.readyLines with
  | nil => exact h
  | cons line rest =>
      rw [hl] at hlen hlines
      refine ⟨h.edit_length, h.edit_plain, ?_, ?_⟩
      · by_cases hn : min line.length dstLen < line.length
        · simpa [hn] using hlen
        · simp only [hn, if_false]
          exact Nat.le_of_succ_le hlen
      · intro l hmem
        by_cases hn : min line.length dstLen < line.length
        · simp only [hn, if_true] at hmem
          rcases List.mem_cons.mp hmem with rfl | hmem
          · exact (hlines line List.mem_cons_self).drop hn
          · exact hlines l (List.mem_cons_of_mem _ hmem)
        · simp only [hn, if_false] at hmem
          exact hlines l (List.mem_cons_of_mem _ hmem)

theorem step_read_state (s : TtyState) (dstLen : ℕ) (nonblock : Bool) :
    (step s (.read dstLen nonblock)).2 = (s.read dstLen nonblock).2 := by
  simp only [step]
  split <;> simp_all

theorem TtyState.Sound.step {s : TtyState} (h : s.Sound) (e : Event) : (step s e).2.Sound := by
  cases e with
  | feed code => exact h.feedScancode code
  | read dstLen nonblock =>
      rw [step_read_state]
      exact h.read dstLen nonblock

/-- One read returns bytes of one line. -/
theorem step_single_line {s : TtyState} (h : s.Sound) (e : Event) {pre post : List UInt8}
    (he : (step s e).1.returned = pre ++ newline :: post) : post = [] := by
  cases e with
  | feed code => simp [Tty.step] at he
  | read dstLen nonblock =>
      have hlines := h.ready_lines
      simp only [Tty.step, TtyState.read] at he
      cases hl : s.readyLines with
      | nil => cases nonblock <;> simp [hl] at he
      | cons line rest =>
          rw [hl] at hlines
          simp only [hl] at he
          exact (hlines line List.mem_cons_self).take_newline he

theorem run_single_line {s : TtyState} (h : s.Sound) (es : List Event) :
    ∀ o ∈ (run s es).1, ∀ pre post, o.returned = pre ++ newline :: post → post = [] := by
  induction es generalizing s with
  | nil => simp [run]
  | cons e es ih =>
      intro o ho pre post he
      rcases List.mem_cons.mp ho with rfl | ho
      · exact step_single_line h e he
      · exact ih (h.step e) o ho pre post he

/-- Nothing typed is lost, repeated or reordered: what the reads returned,
followed by what is still queued, is what Enter accepted; and a newline ends
the chunk it is returned in. -/
theorem stream_conservation (es : List Event) :
    returnedStream (run TtyState.new es).1 ++ (run TtyState.new es).2.readyLines.flatten =
      acceptedStream (run TtyState.new es).1 ∧
    ∀ o ∈ (run TtyState.new es).1, ∀ pre post,
      o.returned = pre ++ newline :: post → post = [] :=
  ⟨run_conserves TtyState.new es, run_single_line TtyState.new_sound es⟩

/-- Type "a", Enter, and read the line in two pieces. -/
example : run TtyState.new [.feed 0x1E, .feed 0x1C, .read 1 false, .read 8 false] =
    ([⟨[], []⟩, ⟨[0x61, 0x0A], []⟩, ⟨[], [0x61]⟩, ⟨[], [0x0A]⟩], TtyState.new) := by decide

/-! ## The line as characters

The abstract line editor works on characters. The byte buffer holds their
encodings, one byte each, so that erasing a byte erases a character.
-/

def editLine (chars : List Char) (c : Char) : List Char :=
  if c = '\n' ∨ c = '\r' then []
  else if c = '\x08' ∨ c = '\x7f' then chars.dropLast
  else if chars.length < lineBuf then chars ++ [c]
  else chars

/-- The characters typed since the last Enter and not erased. -/
def lineAfter : TtyState → List Char → List Event → List Char
  | _, chars, [] => chars
  | s, chars, .feed code :: es =>
      lineAfter (s.feedScancode code) ((s.typed code).elim chars (editLine chars)) es
  | s, chars, .read dstLen nonblock :: es => lineAfter (s.read dstLen nonblock).2 chars es

def encode (chars : List Char) : List UInt8 := chars.flatMap String.utf8EncodeChar

@[simp] theorem encode_append (xs ys : List Char) : encode (xs ++ ys) = encode xs ++ encode ys :=
  List.flatMap_append

/-- Every character takes one byte. -/
def Single (chars : List Char) : Prop := ∀ c ∈ chars, ∃ b, String.utf8EncodeChar c = [b]

theorem Single.append {xs ys : List Char} (hx : Single xs) (hy : Single ys) :
    Single (xs ++ ys) := by
  intro c hc
  cases List.mem_append.mp hc with
  | inl h => exact hx c h
  | inr h => exact hy c h

theorem Single.dropLast {chars : List Char} (h : Single chars) : Single chars.dropLast :=
  fun c hc => h c (List.mem_of_mem_dropLast hc)

theorem Single.length_encode {chars : List Char} (h : Single chars) :
    (encode chars).length = chars.length := by
  induction chars with
  | nil => rfl
  | cons c chars ih =>
      obtain ⟨b, hb⟩ := h c List.mem_cons_self
      have hrest := ih fun d hd => h d (List.mem_cons_of_mem c hd)
      unfold encode at hrest ⊢
      rw [List.flatMap_cons, hb, List.length_append, hrest, List.length_cons, List.length_cons,
        List.length_nil]
      omega

theorem Single.encode_dropLast {chars : List Char} (h : Single chars) :
    encode chars.dropLast = (encode chars).dropLast := by
  induction chars using List.reverseRecOn with
  | nil => rfl
  | append_singleton init c _ =>
      obtain ⟨b, hb⟩ := h c (by simp)
      have hlast : encode [c] = [b] := by simp [encode, hb]
      rw [List.dropLast_concat, encode_append, hlast, List.dropLast_concat]

theorem typeChar_encode {s : TtyState} {chars : List Char} {c : Char} (hsingle : Single chars)
    (hline : s.lineEdit = encode chars) (hc : typable c = true) :
    (s.typeChar c).lineEdit = encode (editLine chars c) ∧ Single (editLine chars c) := by
  unfold TtyState.typeChar editLine
  by_cases henter : c = '\n' ∨ c = '\r'
  · rw [if_pos henter, if_pos henter]
    exact ⟨rfl, by simp [Single]⟩
  rw [if_neg henter, if_neg henter]
  by_cases herase : c = '\x08' ∨ c = '\x7f'
  · rw [if_pos herase, if_pos herase]
    refine ⟨?_, hsingle.dropLast⟩
    rw [hsingle.encode_dropLast, ← hline]
  rw [if_neg herase, if_neg herase]
  obtain ⟨b, hb, -⟩ := typable_byte hc henter herase
  have hone : encode [c] = [b] := by simp [encode, hb]
  have hlen : s.lineEdit.length = chars.length := by rw [hline, hsingle.length_encode]
  simp only [hb, pushBytes, List.foldl_cons, List.foldl_nil, hlen]
  by_cases hroom : chars.length < lineBuf
  · rw [if_pos hroom, if_pos hroom]
    refine ⟨by rw [encode_append, hone, hline], hsingle.append ?_⟩
    intro d hd
    exact ⟨b, by rw [List.mem_singleton.mp hd, hb]⟩
  · rw [if_neg hroom, if_neg hroom]
    exact ⟨hline, hsingle⟩

theorem feedScancode_encode {s : TtyState} {chars : List Char} (hsingle : Single chars)
    (hline : s.lineEdit = encode chars) (code : UInt8) :
    (s.feedScancode code).lineEdit = encode ((s.typed code).elim chars (editLine chars)) ∧
      Single ((s.typed code).elim chars (editLine chars)) := by
  cases ht : s.typed code with
  | none =>
      rw [(feedScancode_untyped ht).1]
      exact ⟨hline, hsingle⟩
  | some c =>
      rw [feedScancode_typed ht]
      exact typeChar_encode hsingle hline (typed_typable ht)

theorem read_lineEdit (s : TtyState) (dstLen : ℕ) (nonblock : Bool) :
    (s.read dstLen nonblock).2.lineEdit = s.lineEdit := by
  unfold TtyState.read
  cases s.readyLines with
  | nil => rfl
  | cons line rest => rfl

/-- What the buffers look like, and how the edited line reads as characters. -/
structure Represents (s : TtyState) (chars : List Char) : Prop where
  edit_length : s.lineEdit.length ≤ lineBuf
  edit_bytes : ∀ b ∈ s.lineEdit, b < 0x80 ∧ b ≠ 0x0A ∧ b ≠ 0x0D ∧ b ≠ 0x08
  ready_length : s.readyLines.length ≤ maxReadyLines
  ready_nonempty : ∀ l ∈ s.readyLines, l ≠ [] ∧ l.length ≤ lineBuf + 1
  ready_ascii : ∀ l ∈ s.readyLines, ∀ b ∈ l, b < 0x80
  ready_newline : ∀ l ∈ s.readyLines, l.count newline = 1 ∧ l.getLast? = some newline
  edit_chars : s.lineEdit = encode chars
  erase : ∀ code, s.typed code = some '\x08' ∨ s.typed code = some '\x7f' →
    (s.feedScancode code).lineEdit = encode chars.dropLast ∧
      (chars ≠ [] → (s.feedScancode code).lineEdit.length + 1 = s.lineEdit.length)

theorem plain_iff (b : UInt8) :
    plain b = true ↔ b < 0x80 ∧ b ≠ 0x0A ∧ b ≠ 0x0D ∧ b ≠ 0x08 := by
  simp [plain, and_assoc]

theorem Line.newline_last {l : List UInt8} (h : Line l) :
    l.count newline = 1 ∧ l.getLast? = some newline := by
  obtain ⟨body, rfl, -, hplain⟩ := h
  have hbody : newline ∉ body := fun hb => absurd (hplain newline hb) (by decide)
  constructor
  · rw [List.count_append, List.count_eq_zero.mpr hbody]
    rfl
  · exact List.getLast?_concat

theorem Line.ascii {l : List UInt8} (h : Line l) : ∀ b ∈ l, b < 0x80 := by
  obtain ⟨body, rfl, -, hplain⟩ := h
  intro b hb
  cases List.mem_append.mp hb with
  | inl hbody => exact ((plain_iff b).mp (hplain b hbody)).1
  | inr hlast =>
      rw [List.mem_singleton.mp hlast]
      decide

theorem Line.nonempty {l : List UInt8} (h : Line l) : l ≠ [] ∧ l.length ≤ lineBuf + 1 := by
  obtain ⟨body, rfl, hlen, -⟩ := h
  constructor
  · simp
  · rw [List.length_append, List.length_singleton]
    omega

theorem TtyState.Sound.represents {s : TtyState} {chars : List Char} (h : s.Sound)
    (hsingle : Single chars) (hline : s.lineEdit = encode chars) : Represents s chars where
  edit_length := h.edit_length
  edit_bytes b hb := (plain_iff b).mp (h.edit_plain b hb)
  ready_length := h.ready_length
  ready_nonempty l hl := (h.ready_lines l hl).nonempty
  ready_ascii l hl := (h.ready_lines l hl).ascii
  ready_newline l hl := (h.ready_lines l hl).newline_last
  edit_chars := hline
  erase code hcode := by
    have hedit : (s.typed code).elim chars (editLine chars) = chars.dropLast := by
      cases hcode with
      | inl hbs => rw [hbs]; rfl
      | inr hdel => rw [hdel]; rfl
    have hafter := (feedScancode_encode hsingle hline code).1
    rw [hedit] at hafter
    refine ⟨hafter, ?_⟩
    intro hne
    have hpos := List.length_pos_iff.mpr hne
    rw [hafter, hline, hsingle.dropLast.length_encode, hsingle.length_encode,
      List.length_dropLast]
    omega

theorem run_represents {s : TtyState} {chars : List Char} (h : s.Sound) (hsingle : Single chars)
    (hline : s.lineEdit = encode chars) (es : List Event) :
    Represents (run s es).2 (lineAfter s chars es) := by
  induction es generalizing s chars with
  | nil => exact h.represents hsingle hline
  | cons e es ih =>
      cases e with
      | feed code =>
          obtain ⟨hnext, hnextSingle⟩ := feedScancode_encode hsingle hline code
          exact ih (h.feedScancode code) hnextSingle hnext
      | read dstLen nonblock =>
          have hrun : (run s (.read dstLen nonblock :: es)).2 =
              (run (s.read dstLen nonblock).2 es).2 := by
            rw [← step_read_state]
            rfl
          rw [hrun, lineAfter]
          apply ih (h.read dstLen nonblock) hsingle
          rw [read_lineEdit, hline]

/-- Whatever is typed and read, the buffers keep their form, and a backspace
takes back exactly the last character of the line. -/
theorem representation_invariant (es : List Event) :
    Represents (run TtyState.new es).2 (lineAfter TtyState.new [] es) :=
  run_represents TtyState.new_sound (by simp [Single]) rfl es

/-- Type "a" and "B", erase the "B". -/
example : lineAfter TtyState.new [] [.feed 0x1E, .feed 0x2A, .feed 0x30, .feed 0xAA, .feed 0x0E] =
    ['a'] := by decide

end Rockos.Tty
