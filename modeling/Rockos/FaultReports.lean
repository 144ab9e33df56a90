import Mathlib.Data.Nat.Digits.Lemmas
import Rockos.Syscall

/-!
# Fault reports on the serial port (serial.rs, interrupts.rs)

The handlers of `#DF`, `#PF` and `#GP` turn interrupts off, write one line with
the fault's numbers to the serial port and halt for good, so the report is the
end of the log. The numbers are printed without the formatting machinery: a loop
fills a buffer with digits, the lowest first, and a second loop sends it backwards.

The log is the list of the bytes sent. Waiting for the line status register to
become ready is not part of it. An index outside a buffer would panic and is
`none` here.
-/
namespace Rockos.FaultReports
open Syscall

abbrev Log := List UInt8

def writeByte (b : UInt8) (log : Log) : Log := log ++ [b]

def writeBytes (bytes : List UInt8) (log : Log) : Log :=
  bytes.foldl (fun log b => writeByte b log) log

def hexTable : List UInt8 := ascii "0123456789abcdef"

/-- The first loop: digits into the buffer until the number is used up. -/
def fillDigits (v : UInt64) (i : ℕ) (buf : Vector UInt8 16) : Option (ℕ × Vector UInt8 16) :=
  if h : v ≠ 0 ∧ i < 16 then
    match hexTable[(v &&& 0xf).toNat]? with
    | some c => fillDigits (v >>> 4) (i + 1) (buf.set i c h.2)
    | none => none
  else some (i, buf)
  termination_by 16 - i

/-- The second loop: the buffer backwards onto the wire. -/
def sendDigits (buf : Vector UInt8 16) : ℕ → Log → Option Log
  | 0, log => some log
  | i + 1, log =>
      match buf[i]? with
      | some c => sendDigits buf i (writeByte c log)
      | none => none

def debugHexU64 (n : UInt64) (log : Log) : Option Log :=
  let log := writeByte 0x78 (writeByte 0x30 log)
  if n = 0 then some (writeByte 0x30 log)
  else (fillDigits n 0 (Vector.replicate 16 0)).bind fun r => sendDigits r.2 r.1 log

/-- The handlers differ in the texts before their numbers only. -/
def writeParts : List (String × UInt64) → Log → Option Log
  | [], log => some (writeBytes (ascii "\r\n") log)
  | (tag, n) :: parts, log =>
      (debugHexU64 n (writeBytes (ascii tag) log)).bind fun log => writeParts parts log

def doubleFaultHandler (errorCode rip : UInt64) : Log → Option Log :=
  writeParts [("\r\n!! double fault err=", errorCode), (" rip=", rip)]

def pageFaultHandler (cr2 error rip : UInt64) : Log → Option Log :=
  writeParts [("\r\n!! #PF cr2=", cr2), (" err=", error), (" rip=", rip)]

def gpfHandler (error rip : UInt64) : Log → Option Log :=
  writeParts [("\r\n!! #GP err=", error), (" rip=", rip)]

inductive Fault where
  | doubleFault (errorCode rip : UInt64)
  | pageFault (cr2 error rip : UInt64)
  | gpf (error rip : UInt64)
  deriving DecidableEq, Repr

def handle : Fault → Log → Option Log
  | .doubleFault errorCode rip => doubleFaultHandler errorCode rip
  | .pageFault cr2 error rip => pageFaultHandler cr2 error rip
  | .gpf error rip => gpfHandler error rip

/-! ## The text of a number -/

def hexChar (d : ℕ) : UInt8 := hexTable.getD d 0

/-- Hexadecimal digits, the highest first, without leading zeros. -/
def hexText (n : ℕ) : List UInt8 :=
  if n = 0 then [0x30] else ((Nat.digits 16 n).map hexChar).reverse

theorem writeBytes_eq (bytes : List UInt8) (log : Log) : writeBytes bytes log = log ++ bytes := by
  induction bytes generalizing log with
  | nil => simp [writeBytes]
  | cons b bytes ih =>
      have hcons : writeBytes (b :: bytes) log = writeBytes bytes (writeByte b log) := rfl
      rw [hcons, ih, writeByte, List.append_assoc]
      rfl

theorem digit_and (v : UInt64) : (v &&& 0xf).toNat = v.toNat % 16 := by
  rw [UInt64.toNat_and]
  exact Nat.and_two_pow_sub_one_eq_mod v.toNat 4

theorem digit_shift (v : UInt64) : (v >>> 4).toNat = v.toNat / 16 := by
  rw [UInt64.toNat_shiftRight]
  exact Nat.shiftRight_eq_div_pow v.toNat 4

theorem hexTable_digit {d : ℕ} (h : d < 16) : hexTable[d]? = some (hexChar d) := by
  have hlen : hexTable.length = 16 := by decide
  rw [hexChar, List.getD_eq_getElem?_getD, List.getElem?_eq_getElem (by omega), Option.getD_some]

theorem take_set_succ (buf : Vector UInt8 16) {i : ℕ} (hi : i < 16) (c : UInt8) :
    (buf.set i c hi).toList.take (i + 1) = buf.toList.take i ++ [c] := by
  rw [Vector.toList_set, List.take_succ_eq_append_getElem (by simpa using hi),
    List.getElem_set_self, List.take_set_of_le (le_refl i)]

/-- The loop appends the digits of what is left, as long as they fit. -/
theorem fillDigits_eq {ds : List ℕ} {v : UInt64} {i : ℕ} (buf : Vector UInt8 16)
    (hds : Nat.digits 16 v.toNat = ds) (hfits : i + ds.length ≤ 16) :
    ∃ buf', fillDigits v i buf = some (i + ds.length, buf') ∧
      buf'.toList.take (i + ds.length) = buf.toList.take i ++ ds.map hexChar := by
  induction ds generalizing v i buf with
  | nil =>
      have hzero : v = 0 := by
        rw [Nat.digits_eq_nil_iff_eq_zero] at hds
        exact UInt64.toNat_inj.mp hds
      rw [fillDigits, dif_neg (by simp [hzero])]
      exact ⟨buf, rfl, by simp⟩
  | cons d ds ih =>
      have hpos : 0 < v.toNat := by
        rw [Nat.pos_iff_ne_zero, ← Nat.digits_ne_nil_iff_ne_zero (b := 16), hds]
        exact List.cons_ne_nil d ds
      rw [Nat.digits_def' (by decide) hpos, List.cons.injEq] at hds
      have hne : v ≠ 0 := by
        intro hzero
        rw [hzero] at hpos
        exact absurd hpos (by decide)
      rw [List.length_cons] at hfits
      have hi : i < 16 := by omega
      have hdigit : hexTable[(v &&& 0xf).toNat]? = some (hexChar d) := by
        rw [digit_and, hds.1]
        exact hexTable_digit (hds.1 ▸ Nat.mod_lt _ (by decide))
      have hlen : i + (ds.length + 1) = i + 1 + ds.length := by omega
      obtain ⟨buf', hfill, htake⟩ := ih (buf.set i (hexChar d) hi)
        (by rw [digit_shift]; exact hds.2) (hlen ▸ hfits)
      refine ⟨buf', ?_, ?_⟩
      · rw [fillDigits, dif_pos ⟨hne, hi⟩]
        simp only [hdigit]
        rw [hfill, List.length_cons, hlen]
      · rw [List.length_cons, hlen, htake, take_set_succ, List.append_assoc]
        rfl

theorem sendDigits_eq (buf : Vector UInt8 16) {i : ℕ} (log : Log) (hi : i ≤ 16) :
    sendDigits buf i log = some (log ++ (buf.toList.take i).reverse) := by
  induction i generalizing log with
  | zero => simp [sendDigits]
  | succ i ih =>
      have hlt : i < buf.toList.length := by simpa using hi
      have hbyte : buf[i]? = some buf.toList[i] := by simp
      simp only [sendDigits, hbyte]
      rw [ih _ (by omega), writeByte, List.append_assoc, List.take_succ_eq_append_getElem hlt,
        List.reverse_append]
      rfl

theorem digits_fit (n : UInt64) : (Nat.digits 16 n.toNat).length ≤ 16 := by
  rw [Nat.digits_length_le_iff (by decide)]
  exact n.toNat_lt

theorem debugHexU64_eq (n : UInt64) (log : Log) :
    debugHexU64 n log = some (log ++ (ascii "0x" ++ hexText n.toNat)) := by
  have hhead : writeByte 0x78 (writeByte 0x30 log) = log ++ ascii "0x" := by
    simp only [writeByte, List.append_assoc]
    rfl
  rw [debugHexU64, hhead]
  split_ifs with hzero
  · have hn : n.toNat = 0 := by
      rw [hzero]
      rfl
    rw [hexText, if_pos hn, writeByte, List.append_assoc]
  · have hne : n.toNat ≠ 0 := fun h => hzero (UInt64.toNat_inj.mp h)
    obtain ⟨buf, hfill, htake⟩ := fillDigits_eq (i := 0) (Vector.replicate 16 0) rfl
      ((Nat.zero_add _).trans_le (digits_fit n))
    rw [Nat.zero_add] at hfill htake
    rw [hfill, Option.bind_some, sendDigits_eq buf _ (digits_fit n), htake, hexText, if_neg hne,
      List.append_assoc]
    rfl

/-! ## Reading a report back

The reader is an observer of the log, not a part of the kernel.
-/

def isHex (c : UInt8) : Bool := hexTable.contains c

def digitValue (c : UInt8) : ℕ := hexTable.idxOf c

def expectTag (tag text : List UInt8) : Option (List UInt8) :=
  if tag <+: text then some (text.drop tag.length) else none

def readHex (text : List UInt8) : Option (UInt64 × List UInt8) :=
  (expectTag (ascii "0x") text).map fun text =>
    (UInt64.ofNat (Nat.ofDigits 16 ((text.takeWhile isHex).reverse.map digitValue)),
      text.dropWhile isHex)

/-- The numbers of a line that consists of these tags, each with its number. -/
def readParts : List String → List UInt8 → Option (List UInt64)
  | [], text => if text = [] then some [] else none
  | tag :: tags, text => do
      let text ← expectTag (ascii tag) text
      let (n, text) ← readHex text
      let ns ← readParts tags text
      pure (n :: ns)

/-- What follows the last line break before the final one. -/
def lastReport (log : Log) : List UInt8 :=
  ((log.reverse.drop 2).takeWhile (· ≠ 0x0A)).reverse

def readFault (line : List UInt8) : Option Fault :=
  match readParts ["!! double fault err=", " rip="] line with
  | some [errorCode, rip] => some (.doubleFault errorCode rip)
  | _ =>
    match readParts ["!! #PF cr2=", " err=", " rip="] line with
    | some [cr2, error, rip] => some (.pageFault cr2 error rip)
    | _ =>
      match readParts ["!! #GP err=", " rip="] line with
      | some [error, rip] => some (.gpf error rip)
      | _ => none

theorem expect_append (tag text : List UInt8) : expectTag tag (tag ++ text) = some text := by
  rw [expectTag, if_pos (List.prefix_append tag text), List.drop_left]

theorem hexChar_digit {d : ℕ} (h : d < 16) :
    isHex (hexChar d) = true ∧ digitValue (hexChar d) = d := by
  have hall : ∀ d : Fin 16, isHex (hexChar d) = true ∧ digitValue (hexChar d) = d := by decide
  exact hall ⟨d, h⟩

theorem digits_lt {n d : ℕ} (h : d ∈ Nat.digits 16 n) : d < 16 := Nat.digits_lt_base (by decide) h

theorem hexText_isHex (n : ℕ) : ∀ c ∈ hexText n, isHex c = true := by
  intro c hc
  rw [hexText] at hc
  split_ifs at hc with hzero
  · rw [List.mem_singleton] at hc
    rw [hc]
    decide
  · rw [List.mem_reverse, List.mem_map] at hc
    obtain ⟨d, hd, rfl⟩ := hc
    exact (hexChar_digit (digits_lt hd)).1

theorem hexText_value (n : ℕ) : Nat.ofDigits 16 ((hexText n).reverse.map digitValue) = n := by
  rw [hexText]
  split_ifs with hzero
  · rw [hzero]
    decide
  · rw [List.reverse_reverse, List.map_map]
    have hsame : (Nat.digits 16 n).map (digitValue ∘ hexChar) = Nat.digits 16 n :=
      List.map_congr_left (g := id) (fun d hd => (hexChar_digit (digits_lt hd)).2) |>.trans
        (List.map_id _)
    rw [hsame, Nat.ofDigits_digits]

/-- A number is read back when no digit follows it. -/
theorem readHex_text (n : UInt64) {rest : List UInt8} (hrest : ∀ c ∈ rest.head?, isHex c = false) :
    readHex (ascii "0x" ++ hexText n.toNat ++ rest) = some (n, rest) := by
  have hstop : rest.takeWhile isHex = [] ∧ rest.dropWhile isHex = rest := by
    cases rest with
    | nil => exact ⟨rfl, rfl⟩
    | cons c rest =>
        have hc := hrest c rfl
        exact ⟨List.takeWhile_cons_of_neg (by simp [hc]), List.dropWhile_cons_of_neg (by simp [hc])⟩
  rw [readHex, List.append_assoc, expect_append, Option.map_some,
    List.takeWhile_append_of_pos (hexText_isHex _), List.dropWhile_append_of_pos (hexText_isHex _),
    hstop.1, hstop.2, List.append_nil, hexText_value, UInt64.ofNat_toNat]

/-- The text of the parts, without the line breaks. -/
def partsText : List (String × UInt64) → List UInt8
  | [] => []
  | (tag, n) :: parts => ascii tag ++ (ascii "0x" ++ hexText n.toNat) ++ partsText parts

theorem writeParts_eq (parts : List (String × UInt64)) (log : Log) :
    writeParts parts log = some (log ++ partsText parts ++ ascii "\r\n") := by
  induction parts generalizing log with
  | nil => simp [writeParts, writeBytes_eq, partsText]
  | cons part parts ih =>
      rw [writeParts, writeBytes_eq, debugHexU64_eq, Option.bind_some, ih]
      simp [partsText]

/-- A tag that cannot be taken for the rest of a number and stays on its line. -/
def Separates (tag : String) : Prop :=
  (∀ c ∈ (ascii tag).head?, isHex c = false) ∧ ascii tag ≠ [] ∧ 0x0A ∉ ascii tag

section
variable {parts : List (String × UInt64)}

theorem partsText_head (hsep : ∀ p ∈ parts, Separates p.1) :
    ∀ c ∈ (partsText parts).head?, isHex c = false := by
  intro c hc
  cases parts with
  | nil => cases hc
  | cons part parts =>
      obtain ⟨hhead, hne, -⟩ := hsep part List.mem_cons_self
      rw [partsText, List.append_assoc, List.head?_append_of_ne_nil _ hne] at hc
      exact hhead c hc

theorem readParts_text (hsep : ∀ p ∈ parts, Separates p.1) :
    readParts (parts.map Prod.fst) (partsText parts) = some (parts.map Prod.snd) := by
  induction parts with
  | nil => rfl
  | cons part parts ih =>
      have hrest : ∀ p ∈ parts, Separates p.1 := fun p hp => hsep p (List.mem_cons_of_mem _ hp)
      rw [List.map_cons, readParts, partsText, List.append_assoc, expect_append]
      simp only [Option.bind_eq_bind, Option.bind_some]
      rw [readHex_text part.2 (partsText_head hrest)]
      simp only [Option.bind_some]
      rw [ih hrest]
      rfl

theorem partsText_unbroken (hsep : ∀ p ∈ parts, Separates p.1) : 0x0A ∉ partsText parts := by
  induction parts with
  | nil => exact List.not_mem_nil
  | cons part parts ih =>
      have hnumber : (0x0A : UInt8) ∉ hexText part.2.toNat := fun hmem =>
        absurd (hexText_isHex _ _ hmem) (by decide)
      have hmark : (0x0A : UInt8) ∉ ascii "0x" := by decide
      simp only [partsText, List.mem_append, not_or]
      exact ⟨⟨(hsep part List.mem_cons_self).2.2, hmark, hnumber⟩,
        ih fun p hp => hsep p (List.mem_cons_of_mem _ hp)⟩

end

theorem lastLine_append {before line : List UInt8} (hline : 0x0A ∉ line) :
    lastReport (before ++ ascii "\r\n" ++ line ++ ascii "\r\n") = line := by
  have hall : ∀ c ∈ line.reverse, decide (c ≠ 0x0A) = true := by
    intro c hc
    rw [List.mem_reverse] at hc
    exact decide_eq_true (ne_of_mem_of_not_mem hc hline)
  have hbreak : (ascii "\r\n").reverse = [0x0A, 0x0D] := rfl
  simp only [lastReport, List.reverse_append, hbreak, List.cons_append, List.nil_append,
    List.drop_succ_cons, List.drop_zero]
  rw [List.takeWhile_append_of_pos hall, List.takeWhile_cons_of_neg (by decide), List.append_nil,
    List.reverse_reverse]

/-- The line of a report, whatever the log was before. -/
theorem writeParts_line {head tag : String} (hbreak : ascii head = ascii "\r\n" ++ ascii tag)
    {n : UInt64} {parts : List (String × UInt64)} (before : Log)
    (hsep : ∀ p ∈ (tag, n) :: parts, Separates p.1) :
    ∃ log, writeParts ((head, n) :: parts) before = some log ∧ before <+: log ∧
      lastReport log = partsText ((tag, n) :: parts) := by
  refine ⟨_, writeParts_eq _ before, ⟨_, (List.append_assoc _ _ _).symm⟩, ?_⟩
  have htext : partsText ((head, n) :: parts) =
      ascii "\r\n" ++ partsText ((tag, n) :: parts) := by
    simp only [partsText, hbreak, List.append_assoc]
  rw [htext, ← List.append_assoc before]
  exact lastLine_append (partsText_unbroken hsep)

/-- The texts and numbers of a report after its line break. -/
def Fault.parts : Fault → List (String × UInt64)
  | .doubleFault errorCode rip => [("!! double fault err=", errorCode), (" rip=", rip)]
  | .pageFault cr2 error rip => [("!! #PF cr2=", cr2), (" err=", error), (" rip=", rip)]
  | .gpf error rip => [("!! #GP err=", error), (" rip=", rip)]

theorem parts_separate (f : Fault) : ∀ p ∈ f.parts, Separates p.1 := by
  have hall : ∀ tag ∈ ["!! double fault err=", "!! #PF cr2=", "!! #GP err=", " err=", " rip="],
      Separates tag := by
    unfold Separates
    decide +kernel
  intro p hp
  apply hall
  cases f <;> simp only [Fault.parts, List.mem_cons, List.not_mem_nil, or_false] at hp <;>
    rcases hp with rfl | rfl | rfl <;> simp

theorem handle_line (f : Fault) (before : Log) : ∃ log, handle f before = some log ∧
    before <+: log ∧ lastReport log = partsText f.parts := by
  cases f with
  | doubleFault errorCode rip =>
      exact writeParts_line (by decide) before (parts_separate (.doubleFault errorCode rip))
  | pageFault cr2 error rip =>
      exact writeParts_line (by decide) before (parts_separate (.pageFault cr2 error rip))
  | gpf error rip => exact writeParts_line (by decide) before (parts_separate (.gpf error rip))

theorem readParts_other {tag : String} {tags : List String} {text : List UInt8}
    (h : ¬ ascii tag <+: text) : readParts (tag :: tags) text = none := by
  rw [readParts, expectTag, if_neg h]
  rfl

theorem readFault_parts (f : Fault) : readFault (partsText f.parts) = some f := by
  have hread := readParts_text (parts_separate f)
  cases f with
  | doubleFault errorCode rip =>
      simp only [Fault.parts, List.map_cons, List.map_nil] at hread ⊢
      rw [readFault, hread]
  | pageFault cr2 error rip =>
      simp only [Fault.parts, List.map_cons, List.map_nil] at hread ⊢
      have hother : ¬ ascii "!! double fault err=" <+:
          partsText [("!! #PF cr2=", cr2), (" err=", error), (" rip=", rip)] := by
        simp [partsText, ascii]
      rw [readFault, readParts_other hother, hread]
  | gpf error rip =>
      simp only [Fault.parts, List.map_cons, List.map_nil] at hread ⊢
      have hdouble : ¬ ascii "!! double fault err=" <+:
          partsText [("!! #GP err=", error), (" rip=", rip)] := by
        simp [partsText, ascii]
      have hpage : ¬ ascii "!! #PF cr2=" <+:
          partsText [("!! #GP err=", error), (" rip=", rip)] := by
        simp [partsText, ascii]
      rw [readFault, readParts_other hdouble, readParts_other hpage, hread]

example : handle (.gpf 0 0x400f) [] = some (ascii "\r\n!! #GP err=0x0 rip=0x400f\r\n") := by
  decide +kernel

end Rockos.FaultReports
