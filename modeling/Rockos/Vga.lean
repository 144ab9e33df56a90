import Mathlib.Algebra.Order.Floor.Div
import Mathlib.Tactic

/-!
# The text screen (vga.rs)

A writer keeps a cursor and a buffer of 80 by 25 cells. Wrapping is deferred:
after the last column the cursor rests at column 80, and only the next ordinary
byte moves it down. After the last row it starts again at the top.

The second half describes the screen without a cursor, from the string written
so far: the lines between the newlines determine the cursor, and the cursor
after a byte tells which cell the byte went to.
-/
namespace Rockos.Vga

/-- A character and its color attribute. -/
abbrev Cell := UInt8 × UInt8

abbrev VgaBuffer := Vector Cell (80 * 25)

structure VgaWriter where
  col : ℕ
  row : ℕ
  color : UInt8
  buffer : VgaBuffer

def VgaWriter.new (buffer : VgaBuffer) : VgaWriter := ⟨0, 0, 0x0f, buffer⟩

def newline : UInt8 := 0x0A

def VgaWriter.newLine (w : VgaWriter) : VgaWriter :=
  { w with col := 0, row := if w.row + 1 ≥ 25 then 0 else w.row + 1 }

/-- Store a byte at the cursor; an index outside the buffer panics. -/
def VgaWriter.put (w : VgaWriter) (byte : UInt8) : Option VgaWriter :=
  let i := w.row * 80 + w.col
  if h : i < 80 * 25 then
    some { w with buffer := w.buffer.set i (byte, w.color) h, col := w.col + 1 }
  else none

def VgaWriter.writeByte (w : VgaWriter) (byte : UInt8) : Option VgaWriter :=
  if byte = newline then some w.newLine
  else if w.col ≥ 80 then w.newLine.put byte
  else w.put byte

def VgaWriter.writeStr (w : VgaWriter) (s : List UInt8) : Option VgaWriter :=
  s.foldlM VgaWriter.writeByte w

/-! ## The cursor law -/

/-- The lines that a newline has ended. -/
def endedLines (s : List UInt8) : List (List UInt8) := (s.splitOn newline).dropLast

/-- What follows the last newline. -/
def lastLine (s : List UInt8) : List UInt8 := (s.splitOn newline).getLastD []

def rowsOf (line : List UInt8) : ℕ := line.length ⌈/⌉ 80

/-- An ended line takes at least one row; the last line takes a new row only for
what does not fit into the row where it starts. -/
def cursorRow (s : List UInt8) : ℕ :=
  (((endedLines s).map fun line => max 1 (rowsOf line)).sum + (rowsOf (lastLine s) - 1)) % 25

def cursorCol (s : List UInt8) : ℕ :=
  if lastLine s = [] then 0 else (lastLine s).length - 80 * (rowsOf (lastLine s) - 1)

/-- The cell of the last byte of a string that does not end in a newline. -/
def lastCell (s : List UInt8) : ℕ := cursorRow s * 80 + (cursorCol s - 1)

/-- The byte `b` at index `j` is an ordinary one and goes to the cell `i`. -/
@[mk_iff]
structure Positioned (s : List UInt8) (j : ℕ) (b : UInt8) (i : ℕ) : Prop where
  byte : s[j]? = some b
  ordinary : b ≠ newline
  cell : lastCell (s.take (j + 1)) = i

theorem splitOn_newline (s : List UInt8) :
    (s ++ [newline]).splitOn newline = s.splitOn newline ++ [[]] :=
  List.splitOn_append_cons_self s []

/-- An ordinary byte extends the last piece. -/
theorem splitOn_byte {b : UInt8} (hb : b ≠ newline) (s : List UInt8) :
    ∃ lines line, s.splitOn newline = lines ++ [line] ∧
      (s ++ [b]).splitOn newline = lines ++ [line ++ [b]] := by
  induction s with
  | nil =>
      have hne : (b == newline) = false := beq_eq_false_iff_ne.mpr hb
      exact ⟨[], [], rfl, by simp [List.splitOn_cons_eq_if_modifyHead, hne]⟩
  | cons a s ih =>
      obtain ⟨lines, line, hs, hsb⟩ := ih
      rw [List.cons_append, List.splitOn_cons_eq_if_modifyHead,
        List.splitOn_cons_eq_if_modifyHead, hs, hsb]
      split_ifs with ha
      · exact ⟨[] :: lines, line, rfl, rfl⟩
      · cases lines with
        | nil => exact ⟨[], a :: line, rfl, rfl⟩
        | cons first lines => exact ⟨(a :: first) :: lines, line, rfl, rfl⟩

section
variable (s : List UInt8)

theorem endedLines_newline : endedLines (s ++ [newline]) = endedLines s ++ [lastLine s] := by
  rw [endedLines, splitOn_newline, List.dropLast_concat, endedLines, lastLine,
    List.getLastD_eq_getLast?, List.getLast?_eq_some_getLast (List.splitOn_ne_nil _ _),
    Option.getD_some, List.dropLast_append_getLast]

theorem lastLine_newline : lastLine (s ++ [newline]) = [] := by
  simp [lastLine, splitOn_newline]

theorem endedLines_byte {b : UInt8} (hb : b ≠ newline) :
    endedLines (s ++ [b]) = endedLines s := by
  obtain ⟨lines, line, hs, hsb⟩ := splitOn_byte hb s
  rw [endedLines, endedLines, hs, hsb, List.dropLast_concat, List.dropLast_concat]

theorem lastLine_byte {b : UInt8} (hb : b ≠ newline) :
    lastLine (s ++ [b]) = lastLine s ++ [b] := by
  obtain ⟨lines, line, hs, hsb⟩ := splitOn_byte hb s
  simp [lastLine, hs, hsb]

end

theorem rowsOf_eq (line : List UInt8) : rowsOf line = (line.length + 79) / 80 :=
  Nat.ceilDiv_eq_add_pred_div line.length 80

theorem cursorCol_eq (s : List UInt8) :
    cursorCol s = (lastLine s).length - 80 * (((lastLine s).length + 79) / 80 - 1) := by
  unfold cursorCol
  rw [rowsOf_eq]
  split_ifs with h
  · simp [h]
  · rfl

theorem cursorCol_le (s : List UInt8) : cursorCol s ≤ 80 := by
  rw [cursorCol_eq]
  omega

theorem cursorRow_lt (s : List UInt8) : cursorRow s < 25 := Nat.mod_lt _ (by decide)

/-- The row below, with the wrap to the top. -/
theorem next_row (row : ℕ) :
    (row + 1) % 25 = if row % 25 + 1 ≥ 25 then 0 else row % 25 + 1 := by
  split_ifs with h <;> omega

theorem cursorRow_newline (s : List UInt8) : cursorRow (s ++ [newline]) =
    if cursorRow s + 1 ≥ 25 then 0 else cursorRow s + 1 := by
  rw [cursorRow, endedLines_newline, lastLine_newline, cursorRow, ← next_row]
  congr 1
  simp only [List.map_append, List.map_cons, List.map_nil, List.sum_append, List.sum_singleton,
    rowsOf_eq, List.length_nil]
  omega

theorem cursorCol_newline (s : List UInt8) : cursorCol (s ++ [newline]) = 0 := by
  rw [cursorCol, lastLine_newline, if_pos rfl]

section
variable (s : List UInt8) {b : UInt8} (hb : b ≠ newline)
include hb

theorem cursorRow_byte : cursorRow (s ++ [b]) =
    if cursorCol s ≥ 80 then (if cursorRow s + 1 ≥ 25 then 0 else cursorRow s + 1)
    else cursorRow s := by
  rw [cursorCol_eq, cursorRow, endedLines_byte s hb, lastLine_byte s hb]
  simp only [cursorRow, ← next_row, rowsOf_eq, List.length_append, List.length_singleton]
  -- only a full last row makes the next byte start another one
  split_ifs with hfull
  · congr 1
    omega
  · congr 1
    omega

theorem cursorCol_byte :
    cursorCol (s ++ [b]) = if cursorCol s ≥ 80 then 1 else cursorCol s + 1 := by
  rw [cursorCol_eq, cursorCol_eq, lastLine_byte s hb, List.length_append, List.length_singleton]
  split_ifs with hfull
  · omega
  · omega

end

/-! ## Writing a string -/

/-- What the writer holds after the string `s`, over the original buffer. -/
structure Written (original : VgaBuffer) (s : List UInt8) (w : VgaWriter) : Prop where
  row : w.row = cursorRow s
  col : w.col = cursorCol s
  color : w.color = 0x0f
  cells : ∀ i (h : i < 80 * 25),
    (∃ j b, Positioned s j b i ∧ (∀ j' b', Positioned s j' b' i → j' ≤ j) ∧
      w.buffer[i] = (b, 0x0f)) ∨
    ((∀ j b, ¬ Positioned s j b i) ∧ w.buffer[i] = original[i])

theorem new_written (original : VgaBuffer) : Written original [] (.new original) where
  row := (by decide : 0 = cursorRow [])
  col := (by decide : 0 = cursorCol [])
  color := rfl
  cells := by
    intro i h
    refine .inr ⟨?_, rfl⟩
    intro j b hp
    simpa using hp.byte

theorem lastCell_lt (s : List UInt8) : lastCell s < 80 * 25 := by
  have hrow := cursorRow_lt s
  have hcol := cursorCol_le s
  unfold lastCell
  omega

/-- The bytes written earlier keep their cells. -/
theorem positioned_append {s : List UInt8} {c : UInt8} {j i : ℕ} {b : UInt8} :
    Positioned (s ++ [c]) j b i ↔ Positioned s j b i ∨
      (j = s.length ∧ b = c ∧ c ≠ newline ∧ lastCell (s ++ [c]) = i) := by
  rw [positioned_iff, positioned_iff]
  rcases Nat.lt_trichotomy j s.length with hj | hj | hj
  · rw [List.getElem?_append_left hj, List.take_append_of_le_length hj]
    simp only [Nat.ne_of_lt hj, false_and, or_false]
  · subst hj
    have htake : (s ++ [c]).take (s.length + 1) = s ++ [c] := List.take_of_length_le (by simp)
    rw [List.getElem?_concat_length, List.getElem?_length, htake]
    simp only [Option.some.injEq, reduceCtorEq, false_and, true_and, false_or]
    constructor
    · intro h
      exact ⟨h.1.symm, h.1 ▸ h.2.1, h.2.2⟩
    · intro h
      exact ⟨h.1.symm, h.1 ▸ h.2.1, h.2.2⟩
  · have hend : (s ++ [c]).length ≤ j := by
      rw [List.length_append, List.length_singleton]
      exact hj
    rw [List.getElem?_eq_none hend, List.getElem?_eq_none (Nat.le_of_lt hj)]
    simp only [reduceCtorEq, false_and, Nat.ne_of_gt hj, or_false]

section
variable {original : VgaBuffer} {s : List UInt8} {w : VgaWriter}

theorem Written.newLine (h : Written original s w) :
    Written original (s ++ [newline]) w.newLine where
  row := by rw [cursorRow_newline, ← h.row]; rfl
  col := (cursorCol_newline s).symm
  color := h.color
  cells := by
    intro i hi
    have hsame : ∀ j b, Positioned (s ++ [newline]) j b i ↔ Positioned s j b i := by
      intro j b
      simp [positioned_append]
    simp only [hsame]
    exact h.cells i hi

/-- Store an ordinary byte at the cell the law gives it. -/
theorem Written.put {b : UInt8} (hb : b ≠ newline) (h : Written original s w) {v : VgaWriter}
    (hbuffer : v.buffer = w.buffer) (hcolor : v.color = w.color)
    (hrow : v.row = cursorRow (s ++ [b])) (hcol : v.col + 1 = cursorCol (s ++ [b])) :
    ∃ w', v.put b = some w' ∧ Written original (s ++ [b]) w' := by
  have hcell : v.row * 80 + v.col = lastCell (s ++ [b]) := by
    rw [lastCell, ← hrow, ← hcol, Nat.add_sub_cancel]
  have hlt : v.row * 80 + v.col < 80 * 25 := by
    rw [hcell]
    exact lastCell_lt _
  refine ⟨_, dif_pos hlt, hrow, hcol, hcolor.trans h.color, ?_⟩
  intro i hi
  by_cases hhit : lastCell (s ++ [b]) = i
  · -- the new byte is the last one at its cell
    refine .inl ⟨s.length, b, positioned_append.mpr (.inr ⟨rfl, rfl, hb, hhit⟩), ?_, ?_⟩
    · intro j c hp
      have hj := (List.getElem?_eq_some_iff.mp hp.byte).1
      rw [List.length_append, List.length_singleton] at hj
      exact Nat.le_of_lt_succ hj
    · have hi' : v.row * 80 + v.col = i := hcell.trans hhit
      subst hi'
      simp [hcolor, h.color]
  · have hsame : ∀ j c, Positioned (s ++ [b]) j c i ↔ Positioned s j c i := by
      intro j c
      simp [positioned_append, hhit]
    have hne : v.row * 80 + v.col ≠ i := fun he => hhit (hcell.symm.trans he)
    simp only [hsame, Vector.getElem_set_ne hlt hi hne, hbuffer]
    exact h.cells i hi

theorem Written.writeByte (h : Written original s w) (b : UInt8) :
    ∃ w', w.writeByte b = some w' ∧ Written original (s ++ [b]) w' := by
  unfold VgaWriter.writeByte
  by_cases hb : b = newline
  · rw [if_pos hb, hb]
    exact ⟨_, rfl, h.newLine⟩
  rw [if_neg hb]
  have hrow := cursorRow_byte s hb
  have hcol := cursorCol_byte s hb
  rw [← h.col] at hrow hcol
  by_cases hfull : w.col ≥ 80
  · rw [if_pos hfull] at hrow hcol ⊢
    rw [← h.row] at hrow
    exact h.put hb rfl rfl hrow.symm hcol.symm
  · rw [if_neg hfull] at hrow hcol ⊢
    exact h.put hb rfl rfl (h.row.trans hrow.symm) hcol.symm

theorem Written.writeStr (h : Written original s w) (t : List UInt8) :
    ∃ w', w.writeStr t = some w' ∧ Written original (s ++ t) w' := by
  induction t generalizing s w with
  | nil => exact ⟨w, rfl, by rwa [List.append_nil]⟩
  | cons b t ih =>
      obtain ⟨v, hv, hwritten⟩ := h.writeByte b
      obtain ⟨w', hw', hall⟩ := ih hwritten
      refine ⟨w', ?_, by rwa [List.append_assoc] at hall⟩
      rw [VgaWriter.writeStr, List.foldlM_cons, hv]
      exact hw'

end

/-- Whatever is written, no store leaves the buffer, the cursor is where the
lines of the text put it, and every cell shows the last byte positioned there. -/
theorem vga_cursor_law (original : VgaBuffer) (s : List UInt8) :
    ∃ w, (VgaWriter.new original).writeStr s = some w ∧
      (∀ j b i, Positioned s j b i → i < 80 * 25) ∧ w.row < 25 ∧ w.col ≤ 80 ∧
      w.row = cursorRow s ∧ w.col = cursorCol s ∧
      ∀ i (_ : i < 80 * 25),
        (∃ j b, Positioned s j b i ∧ (∀ j' b', Positioned s j' b' i → j' ≤ j) ∧
          w.buffer[i] = (b, 0x0f)) ∨
        ((∀ j b, ¬ Positioned s j b i) ∧ w.buffer[i] = original[i]) := by
  obtain ⟨w, hw, h⟩ := (new_written original).writeStr s
  rw [List.nil_append] at h
  refine ⟨w, hw, ?_, ?_, ?_, h.row, h.col, h.cells⟩
  · intro j b i hp
    rw [← hp.cell]
    exact lastCell_lt _
  · rw [h.row]
    exact cursorRow_lt s
  · rw [h.col]
    exact cursorCol_le s

/-- A full row, then a newline: the cursor moves down once. -/
example : cursorRow (List.replicate 80 0x61 ++ [newline]) = 1 ∧
    cursorCol (List.replicate 80 0x61) = 80 := by decide

end Rockos.Vga
