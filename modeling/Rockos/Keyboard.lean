import Rockos.RingBuffer
import Rockos.Runs
import Rockos.Tty

/-!
# The scan code queue (keyboard.rs)

IRQ1 stores every keyboard byte in a ring of 256 slots and hands it to the
terminal as well; the boot loop takes bytes out of the ring. The ring is related
to the list of pending bytes, and whole interleavings of pushes and pops to the
bytes that were accepted and returned.

An index outside the buffer would panic. The operations return `none` there, so
a run that exists has not panicked.
-/
namespace Rockos.Keyboard
open Runs RingBuffer Tty

def scancodeBufSize : ℕ := 256

structure ScancodeQueue where
  buf : Vector UInt8 scancodeBufSize
  head : ℕ
  tail : ℕ
  deriving DecidableEq

def ScancodeQueue.new : ScancodeQueue := ⟨Vector.replicate scancodeBufSize 0, 0, 0⟩

def ScancodeQueue.tryPush (q : ScancodeQueue) (b : UInt8) : Option (Bool × ScancodeQueue) :=
  let next := (q.tail + 1) % scancodeBufSize
  if next = q.head then some (false, q)
  else if h : q.tail < scancodeBufSize then
    some (true, { q with buf := q.buf.set q.tail b h, tail := next })
  else none

def ScancodeQueue.tryPop (q : ScancodeQueue) : Option (Option UInt8 × ScancodeQueue) :=
  if q.head = q.tail then some (none, q) else do
    let b ← q.buf[q.head]?
    pure (some b, { q with head := (q.head + 1) % scancodeBufSize })

/-! ## One operation -/

/-- The queue holds these bytes, oldest first. -/
def ScancodeQueue.Pending (q : ScancodeQueue) (bytes : List UInt8) : Prop :=
  RingHolds q.buf q.head q.tail bytes

theorem new_pending : ScancodeQueue.new.Pending [] := RingHolds.nil _ (by decide)

section
variable {q : ScancodeQueue} {bytes : List UInt8}

theorem tryPush_of_full (h : q.Pending bytes) (hfull : bytes.length + 1 = scancodeBufSize)
    (b : UInt8) : q.tryPush b = some (false, q) := by
  have hnext : (q.tail + 1) % scancodeBufSize = q.head := (RingHolds.full_iff h).mpr hfull
  simp only [ScancodeQueue.tryPush, if_pos hnext]

theorem tryPush_of_room (h : q.Pending bytes) (hroom : bytes.length + 1 ≠ scancodeBufSize)
    (b : UInt8) : ∃ q', q.tryPush b = some (true, q') ∧ q'.Pending (bytes ++ [b]) := by
  have hnext : (q.tail + 1) % scancodeBufSize ≠ q.head :=
    fun he => hroom ((RingHolds.full_iff h).mp he)
  have hlt : bytes.length + 1 < scancodeBufSize := Nat.lt_of_le_of_ne (RingHolds.room h) hroom
  simp only [ScancodeQueue.tryPush, if_neg hnext, dif_pos (RingHolds.tail_lt h)]
  exact ⟨_, rfl, RingHolds.push h hlt b⟩

theorem tryPop_of_empty (h : q.Pending []) : q.tryPop = some (none, q) := by
  have he : q.head = q.tail := (RingHolds.empty_iff h).mpr rfl
  rw [ScancodeQueue.tryPop, if_pos he]

theorem tryPop_of_pending {b : UInt8} (h : q.Pending (b :: bytes)) :
    ∃ q', q.tryPop = some (some b, q') ∧ q'.Pending bytes := by
  have hne : q.head ≠ q.tail := fun he => List.cons_ne_nil _ _ ((RingHolds.empty_iff h).mp he)
  rw [ScancodeQueue.tryPop, if_neg hne, RingHolds.front h]
  exact ⟨_, rfl, RingHolds.pop h⟩

end

/-! ## Interleavings -/

inductive QueueOp where
  | tryPush (b : UInt8)
  | tryPop
  deriving DecidableEq, Repr

inductive QueueAnswer where
  | pushed (accepted : Bool)
  | popped (b : Option UInt8)
  deriving DecidableEq, Repr

def queueStep : QueueOp → ScancodeQueue → Option (QueueAnswer × ScancodeQueue)
  | .tryPush b, q => (q.tryPush b).map fun r => (.pushed r.1, r.2)
  | .tryPop, q => q.tryPop.map fun r => (.popped r.1, r.2)

def acceptedBy : QueueOp × QueueAnswer → List UInt8
  | (.tryPush b, .pushed true) => [b]
  | _ => []

def poppedBy : QueueOp × QueueAnswer → List UInt8
  | (_, .popped (some b)) => [b]
  | _ => []

/-- The bytes whose push was accepted, in order. -/
def acceptedBytes (tr : List (QueueOp × QueueAnswer)) : List UInt8 := tr.flatMap acceptedBy

/-- The bytes that were popped, in order. -/
def poppedBytes (tr : List (QueueOp × QueueAnswer)) : List UInt8 := tr.flatMap poppedBy

theorem queueStep_pending (op : QueueOp) {q : ScancodeQueue} {bytes : List UInt8}
    (h : q.Pending bytes) : ∃ answer q' bytes', queueStep op q = some (answer, q') ∧
      q'.Pending bytes' ∧ bytes ++ acceptedBy (op, answer) = poppedBy (op, answer) ++ bytes' := by
  cases op with
  | tryPush b =>
      by_cases hfull : bytes.length + 1 = scancodeBufSize
      · have hpush := tryPush_of_full h hfull b
        exact ⟨.pushed false, q, bytes, by rw [queueStep, hpush]; rfl, h, by
          simp [acceptedBy, poppedBy]⟩
      · obtain ⟨q', hpush, hq'⟩ := tryPush_of_room h hfull b
        exact ⟨.pushed true, q', bytes ++ [b], by rw [queueStep, hpush]; rfl, hq', rfl⟩
  | tryPop =>
      cases bytes with
      | nil =>
          have hpop := tryPop_of_empty h
          exact ⟨.popped none, q, [], by rw [queueStep, hpop]; rfl, h, rfl⟩
      | cons b bytes =>
          obtain ⟨q', hpop, hq'⟩ := tryPop_of_pending h
          exact ⟨.popped (some b), q', bytes, by rw [queueStep, hpop]; rfl, hq', by
            simp [acceptedBy, poppedBy]⟩

/-- No interleaving panics, and the bytes in the queue are those accepted and
not popped yet. -/
theorem replay_pending (ops : List QueueOp) {q : ScancodeQueue} {bytes : List UInt8}
    (h : q.Pending bytes) : ∃ tr q' bytes', replay queueStep ops q = some (tr, q') ∧
      q'.Pending bytes' ∧ bytes ++ acceptedBytes tr = poppedBytes tr ++ bytes' := by
  induction ops generalizing q bytes with
  | nil => exact ⟨[], q, bytes, rfl, h, by simp [acceptedBytes, poppedBytes]⟩
  | cons op ops ih =>
      obtain ⟨answer, t, mid, hstep, ht, hmid⟩ := queueStep_pending op h
      obtain ⟨tr, q', bytes', hrest, hq', hbytes⟩ := ih ht
      refine ⟨(op, answer) :: tr, q', bytes', replay_step hstep hrest, hq', ?_⟩
      calc bytes ++ acceptedBytes ((op, answer) :: tr)
          = (bytes ++ acceptedBy (op, answer)) ++ acceptedBytes tr := by
            rw [acceptedBytes, List.flatMap_cons, List.append_assoc]
            rfl
        _ = poppedBy (op, answer) ++ (mid ++ acceptedBytes tr) := by
            rw [hmid, List.append_assoc]
        _ = poppedBytes ((op, answer) :: tr) ++ bytes' := by
            rw [hbytes, ← List.append_assoc, poppedBytes, poppedBytes, List.flatMap_cons]

/-- The ring is a queue of 255 bytes: pops return the accepted bytes in order, a
push is refused exactly when 255 accepted bytes have not been popped and then
changes nothing, a pop finds nothing exactly when nothing is pending, and no
operation leaves the buffer. -/
theorem scancode_queue_fifo (ops : List QueueOp) :
    ∃ tr q, replay queueStep ops .new = some (tr, q) ∧
      poppedBytes tr <+: acceptedBytes tr ∧
      (∀ b, ∃ ok q', q.tryPush b = some (ok, q') ∧ (ok = false → q' = q) ∧
        (ok = false ↔
          (acceptedBytes tr).length = (poppedBytes tr).length + (scancodeBufSize - 1))) ∧
      (∃ o q', q.tryPop = some (o, q') ∧
        (o = none ↔ (acceptedBytes tr).length = (poppedBytes tr).length)) ∧
      q.head < scancodeBufSize ∧ q.tail < scancodeBufSize := by
  obtain ⟨tr, q, bytes, hreplay, hq, hbytes⟩ := replay_pending ops new_pending
  rw [List.nil_append] at hbytes
  have hlen : (acceptedBytes tr).length = (poppedBytes tr).length + bytes.length := by
    rw [hbytes, List.length_append]
  have hsize : 1 ≤ scancodeBufSize := by decide
  refine ⟨tr, q, hreplay, ⟨bytes, hbytes.symm⟩, ?_, ?_, RingHolds.head_lt hq, RingHolds.tail_lt hq⟩
  · intro b
    by_cases hfull : bytes.length + 1 = scancodeBufSize
    · refine ⟨false, q, tryPush_of_full hq hfull b, fun _ => rfl, ?_⟩
      simp only [true_iff]
      omega
    · obtain ⟨q', hpush, -⟩ := tryPush_of_room hq hfull b
      refine ⟨true, q', hpush, fun h => absurd h Bool.true_eq_false.mp, ?_⟩
      simp only [Bool.true_eq_false, false_iff]
      omega
  · cases bytes with
    | nil => exact ⟨none, q, tryPop_of_empty hq, by simpa using hlen⟩
    | cons b bytes =>
        obtain ⟨q', hpop, -⟩ := tryPop_of_pending hq
        refine ⟨some b, q', hpop, ?_⟩
        simp only [reduceCtorEq, false_iff]
        simp only [List.length_cons] at hlen
        omega

/-! ## The two consumers of a keyboard byte

The interrupt handler pushes a byte and feeds the terminal whatever the push
answers. `read_scancode` pops, and polls the controller when the queue is empty.
-/

def statusOutFull : UInt8 := 1

def statusAuxData : UInt8 := 0x20

structure Consumers where
  queue : ScancodeQueue
  tty : TtyState

def handleKeyboardIrq (status data : UInt8) (s : Consumers) : Option Consumers :=
  if status &&& statusOutFull = 0 then some s
  else if status &&& statusAuxData ≠ 0 then some s
  else (s.queue.tryPush data).map fun r => ⟨r.2, s.tty.feedScancode data⟩

def popScancode (s : Consumers) : Option (Option UInt8 × Consumers) :=
  s.queue.tryPop.map fun r => (r.1, { s with queue := r.2 })

def readScancodePollPort (status data : UInt8) : Option UInt8 :=
  if status &&& statusOutFull = 0 then none
  else if status &&& statusAuxData ≠ 0 then none
  else some data

def readScancode (status data : UInt8) (s : Consumers) : Option (Option UInt8 × Consumers) :=
  (popScancode s).map fun r => (r.1 <|> readScancodePollPort status data, r.2)

/-- Each event comes with what the two controller ports read at that moment. -/
inductive KeyEvent where
  | irq (status data : UInt8)
  | read (status data : UInt8)
  deriving DecidableEq, Repr

def keyStep : KeyEvent → Consumers → Option (Option UInt8 × Consumers)
  | .irq status data, s => (handleKeyboardIrq status data s).map fun t => (none, t)
  | .read status data, s => readScancode status data s

/-- The keyboard byte an interrupt delivers. -/
def deliveredBy : KeyEvent → List UInt8
  | .irq status data => (readScancodePollPort status data).toList
  | .read _ _ => []

/-- What an event does to the queue. -/
def queueOps : KeyEvent → List QueueOp
  | .irq status data => (deliveredBy (.irq status data)).map .tryPush
  | .read _ _ => [.tryPop]

theorem keyStep_consumers (e : KeyEvent) {s : Consumers} {bytes : List UInt8}
    (h : s.queue.Pending bytes) : ∃ o t tr bytes', keyStep e s = some (o, t) ∧
      t.tty = (deliveredBy e).foldl TtyState.feedScancode s.tty ∧
      replay queueStep (queueOps e) s.queue = some (tr, t.queue) ∧ t.queue.Pending bytes' := by
  cases e with
  | irq status data =>
      simp only [keyStep, handleKeyboardIrq, queueOps, deliveredBy, readScancodePollPort]
      split_ifs with hfull haux
      · exact ⟨none, s, [], bytes, rfl, rfl, rfl, h⟩
      · exact ⟨none, s, [], bytes, rfl, rfl, rfl, h⟩
      · obtain ⟨answer, q, bytes', hstep, hq, -⟩ := queueStep_pending (.tryPush data) h
        obtain ⟨r, hpush, hr⟩ := Option.map_eq_some_iff.mp hstep
        have hreplay := replay_step hstep (show replay queueStep [] q = some ([], q) from rfl)
        rw [hpush]
        cases hr
        exact ⟨none, _, _, bytes', rfl, rfl, hreplay, hq⟩
  | read status data =>
      obtain ⟨answer, q, bytes', hstep, hq, -⟩ := queueStep_pending .tryPop h
      obtain ⟨r, hpop, hr⟩ := Option.map_eq_some_iff.mp hstep
      have hreplay := replay_step hstep (show replay queueStep [] q = some ([], q) from rfl)
      simp only [keyStep, readScancode, popScancode, hpop]
      cases hr
      exact ⟨_, _, _, bytes', rfl, rfl, hreplay, hq⟩

/-- No event panics. The terminal gets every byte the interrupts deliver, also
those a full queue refuses, and the queue takes exactly the pushes and pops of
the events. -/
theorem replay_consumers (es : List KeyEvent) {s : Consumers} {bytes : List UInt8}
    (h : s.queue.Pending bytes) : ∃ tr t qtr, replay keyStep es s = some (tr, t) ∧
      t.tty = (es.flatMap deliveredBy).foldl TtyState.feedScancode s.tty ∧
      replay queueStep (es.flatMap queueOps) s.queue = some (qtr, t.queue) := by
  induction es generalizing s bytes with
  | nil => exact ⟨[], s, [], rfl, rfl, rfl⟩
  | cons e es ih =>
      obtain ⟨o, t, tr, bytes', hstep, htty, hqueue, ht⟩ := keyStep_consumers e h
      obtain ⟨tr', u, qtr, hrest, htty', hqueue'⟩ := ih ht
      refine ⟨(e, o) :: tr', u, tr ++ qtr, replay_step hstep hrest, ?_, ?_⟩
      · rw [List.flatMap_cons, List.foldl_append, ← htty, htty']
      · rw [List.flatMap_cons]
        exact replay_append hqueue hqueue'

end Rockos.Keyboard
