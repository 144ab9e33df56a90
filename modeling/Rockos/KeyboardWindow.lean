import Rockos.Keyboard

/-!
# The keyboard window of the boot (main.rs, keyboard.rs)

For two hundred ticks the boot loop calls `read_scancode` until it returns
nothing, and halts. Interrupts are on, so IRQ1 may run between any two
instructions of the loop, in particular between the read of the controller's
status and the read of its data: the two are separate steps here. The handler
itself runs with interrupts off, and so does `pop_scancode`.

The controller's output buffer holds one byte and takes no other before that byte
is read; a read of the data port while it is empty repeats the last byte. These
two facts about the device are the only ones used.
-/
namespace Rockos.KeyboardWindow
open Runs Keyboard Tty

/-! ## The controller and the loop -/

structure OutByte where
  data : UInt8
  aux : Bool
  deriving DecidableEq, Repr

def OutByte.key (b : OutByte) : Option UInt8 := if b.aux then none else some b.data

structure Controller where
  out : Option OutByte
  last : UInt8
  deriving DecidableEq, Repr

/-- What port `0x64` reads, as far as the kernel looks at it. -/
def Controller.status (c : Controller) : UInt8 :=
  match c.out with
  | none => 0
  | some b => if b.aux then statusOutFull ||| statusAuxData else statusOutFull

/-- What port `0x60` reads. -/
def Controller.data (c : Controller) : UInt8 :=
  match c.out with
  | none => c.last
  | some b => b.data

/-- The controller after a read of port `0x60`. -/
def Controller.emptied (c : Controller) : Controller := ⟨none, c.data⟩

/-- The next thing the loop does. `data` and `drain` come after the read of the
status and before the read of the data. -/
inductive Pc where
  | check | pop | poll | data | drain | halt | done
  deriving DecidableEq, Repr

structure Window where
  ctl : Controller
  kbd : Consumers
  ticks : ℕ
  pc : Pc

inductive WindowEvent where
  | arrive (b : OutByte)
  | irq
  | timer
  | main
  deriving DecidableEq, Repr

/-- Who took which byte. An interrupt also says whether the ring had room and
whether it came between the two port reads of the loop. -/
inductive Seen where
  | nothing
  | handled (b : OutByte) (stored between : Bool)
  | popped (b : UInt8)
  | polled (b : OutByte)
  | stale (b : UInt8)
  | discarded (b : Option OutByte)
  deriving DecidableEq, Repr

/-- An interrupt ends a `hlt`. -/
def Pc.woken : Pc → Pc
  | .halt => .check
  | pc => pc

def Pc.between (pc : Pc) : Bool := pc = .data ∨ pc = .drain

/-- `read_scancode_poll_port` after its read of the status. -/
def pollBranch (status : UInt8) : Pc :=
  if status &&& statusOutFull = 0 then .halt
  else if status &&& statusAuxData ≠ 0 then .drain
  else .data

def keyboardInterrupt (w : Window) : Option (Seen × Window) :=
  (handleKeyboardIrq w.ctl.status w.ctl.data w.kbd).map fun kbd =>
    match w.ctl.out with
    | none => (.nothing, { w with kbd := kbd, pc := w.pc.woken })
    | some b => (.handled b (kbd.queue.tail ≠ w.kbd.queue.tail) w.pc.between,
        { w with ctl := w.ctl.emptied, kbd := kbd, pc := w.pc.woken })

def loopStep (keyboardUntil : ℕ) (w : Window) : Option (Seen × Window) :=
  match w.pc with
  | .check => some (.nothing, { w with pc := if w.ticks < keyboardUntil then .pop else .done })
  | .pop => (popScancode w.kbd).map fun r =>
      match r.1 with
      | some b => (.popped b, { w with kbd := r.2 })
      | none => (.nothing, { w with kbd := r.2, pc := .poll })
  | .poll => some (.nothing, { w with pc := pollBranch w.ctl.status })
  | .data => some (match w.ctl.out with | some b => .polled b | none => .stale w.ctl.data,
      { w with ctl := w.ctl.emptied, pc := .pop })
  | .drain => some (.discarded w.ctl.out, { w with ctl := w.ctl.emptied, pc := .halt })
  | .halt | .done => none

def windowStep (keyboardUntil : ℕ) : WindowEvent → Window → Option (Seen × Window)
  | .arrive b, w =>
      if w.ctl.out = none then some (.nothing, { w with ctl := { w.ctl with out := some b } })
      else none
  | .irq, w => keyboardInterrupt w
  | .timer, w => some (.nothing, { w with ticks := w.ticks + 1, pc := w.pc.woken })
  | .main, w => loopStep keyboardUntil w

/-! ## What a transcript says -/

def WindowEvent.arrived : WindowEvent → List OutByte
  | .arrive b => [b]
  | _ => []

/-- The bytes the step takes out of the controller. -/
def Seen.taken : Seen → List OutByte
  | .handled b _ _ => [b]
  | .polled b => [b]
  | .discarded b => b.toList
  | _ => []

/-- The keys the interrupt feeds to the terminal. -/
def Seen.handledKeys : Seen → List UInt8
  | .handled b _ _ => b.key.toList
  | _ => []

def Seen.storedKeys : Seen → List UInt8
  | .handled b true _ => b.key.toList
  | _ => []

/-- The keys a full ring refuses. -/
def Seen.refusedKeys : Seen → List UInt8
  | .handled b false _ => b.key.toList
  | _ => []

def Seen.poppedKeys : Seen → List UInt8
  | .popped b => [b]
  | _ => []

def Seen.polledKeys : Seen → List UInt8
  | .polled b => b.key.toList
  | _ => []

def Seen.discardedKeys : Seen → List UInt8
  | .discarded (some b) => b.key.toList
  | _ => []

/-- The buffer does not hold a byte of the device that was asked for. -/
def amiss (aux : Bool) (out : Option OutByte) : ℕ := if out.map OutByte.aux = some aux then 0 else 1

/-- The loop reads the data port and does not get what the status promised. -/
def Seen.misreads : Seen → ℕ
  | .stale _ => amiss false none
  | .polled b => amiss false (some b)
  | .discarded b => amiss true b
  | _ => 0

/-- The interrupt takes the byte the loop has already asked for. -/
def Seen.races : Seen → ℕ
  | .handled _ _ true => 1
  | _ => 0

def arrivals (tr : List (WindowEvent × Seen)) : List OutByte := tr.flatMap fun x => x.1.arrived

def collect {β : Type} (f : Seen → List β) (tr : List (WindowEvent × Seen)) : List β :=
  tr.flatMap fun x => f x.2

def total (f : Seen → ℕ) (tr : List (WindowEvent × Seen)) : ℕ := (tr.map fun x => f x.2).sum

section
variable (tr : List (WindowEvent × Seen)) (e : WindowEvent) (o : Seen)

@[simp] theorem arrivals_nil : arrivals [] = [] := rfl

@[simp] theorem collect_nil {β : Type} (f : Seen → List β) : collect f [] = [] := rfl

@[simp] theorem total_nil (f : Seen → ℕ) : total f [] = 0 := rfl

@[simp] theorem arrivals_snoc : arrivals (tr ++ [(e, o)]) = arrivals tr ++ e.arrived := by
  simp [arrivals]

@[simp] theorem collect_snoc {β : Type} (f : Seen → List β) :
    collect f (tr ++ [(e, o)]) = collect f tr ++ f o := by
  simp [collect]

@[simp] theorem total_snoc (f : Seen → ℕ) : total f (tr ++ [(e, o)]) = total f tr + f o := by
  simp [total]

end

/-! ## One step -/

/-- The loop is about to read a byte that is no longer the one it asked for. -/
def misled : Pc → Option OutByte → ℕ
  | .data, out => amiss false out
  | .drain, out => amiss true out
  | _, _ => 0

theorem amiss_le_one (aux : Bool) (out : Option OutByte) : amiss aux out ≤ 1 := by
  rw [amiss]
  split_ifs <;> omega

theorem misled_woken (pc : Pc) (out : Option OutByte) : misled pc.woken out = misled pc out := by
  cases pc <;> rfl

theorem misled_none (pc : Pc) : misled pc none = if pc.between then 1 else 0 := by
  cases pc <;> rfl

theorem misled_arrive (pc : Pc) (b : OutByte) : misled pc (some b) ≤ misled pc none := by
  cases pc with
  | data => exact amiss_le_one false (some b)
  | drain => exact amiss_le_one true (some b)
  | _ => exact le_refl 0

/-- What one step does to the controller, the terminal and the ring. -/
structure StepAccounts (w : Window) (e : WindowEvent) (o : Seen) (w' : Window)
    (pending : List UInt8) : Prop where
  order : w.ctl.out.toList ++ e.arrived = o.taken ++ w'.ctl.out.toList
  tty : w'.kbd.tty = o.handledKeys.foldl TtyState.feedScancode w.kbd.tty
  ring : ∃ pending', w'.kbd.queue.Pending pending' ∧
    pending ++ o.storedKeys = o.poppedKeys ++ pending'
  full : o.refusedKeys ≠ [] → pending.length + 1 = scancodeBufSize
  misled : o.misreads + misled w'.pc w'.ctl.out ≤ o.races + misled w.pc w.ctl.out

/-- A step that leaves the ring and the terminal alone. -/
theorem StepAccounts.of_kbd {w w' : Window} {e : WindowEvent} {o : Seen} {pending : List UInt8}
    (hq : w.kbd.queue.Pending pending) (hkbd : w'.kbd = w.kbd)
    (horder : w.ctl.out.toList ++ e.arrived = o.taken ++ w'.ctl.out.toList)
    (hkeys : o.handledKeys = [] ∧ o.storedKeys = [] ∧ o.refusedKeys = [] ∧ o.poppedKeys = [])
    (hmisled : o.misreads + KeyboardWindow.misled w'.pc w'.ctl.out ≤
      o.races + KeyboardWindow.misled w.pc w.ctl.out) : StepAccounts w e o w' pending where
  order := horder
  tty := by rw [hkeys.1, hkbd]; rfl
  ring := ⟨pending, hkbd ▸ hq, by rw [hkeys.2.1, hkeys.2.2.2, List.append_nil]; rfl⟩
  full := fun h => absurd hkeys.2.2.1 h
  misled := hmisled

theorem handle_empty {c : Controller} (h : c.out = none) (s : Consumers) :
    handleKeyboardIrq c.status c.data s = some s := by
  simp [handleKeyboardIrq, Controller.status, h]

theorem handle_aux {c : Controller} {b : OutByte} (h : c.out = some b) (haux : b.aux = true)
    (s : Consumers) : handleKeyboardIrq c.status c.data s = some s := by
  have hstatus : c.status = 0x21 := by
    simp only [Controller.status, h, haux]
    rfl
  rw [handleKeyboardIrq, hstatus, if_neg (by decide), if_pos (by decide)]

theorem handle_key {c : Controller} {b : OutByte} (h : c.out = some b) (hkey : b.aux = false)
    (s : Consumers) : handleKeyboardIrq c.status c.data s =
      (s.queue.tryPush b.data).map fun r => ⟨r.2, s.tty.feedScancode b.data⟩ := by
  have hstatus : c.status = 1 := by
    simp only [Controller.status, h, hkey]
    rfl
  have hdata : c.data = b.data := by simp only [Controller.data, h]
  rw [handleKeyboardIrq, hstatus, if_neg (by decide), if_neg (by decide), hdata]

theorem tail_of_tryPush {q q' : ScancodeQueue} {b : UInt8} {ok : Bool}
    (h : q.tryPush b = some (ok, q')) : decide (q'.tail ≠ q.tail) = ok := by
  rw [ScancodeQueue.tryPush] at h
  split_ifs at h with hfull htail
  · cases h
    simp
  · cases h
    have hmoved : (q.tail + 1) % scancodeBufSize ≠ q.tail := by
      simp only [scancodeBufSize] at htail ⊢
      omega
    simpa using hmoved

theorem races_handled (b : OutByte) (stored : Bool) (w : Window) :
    misled w.pc.woken none ≤
      (Seen.handled b stored w.pc.between).races + misled w.pc w.ctl.out := by
  rw [misled_woken, misled_none]
  cases w.pc.between <;> simp [Seen.races]

theorem keyboardInterrupt_accounted {w w' : Window} {o : Seen} {pending : List UInt8}
    (hq : w.kbd.queue.Pending pending) (h : keyboardInterrupt w = some (o, w')) :
    StepAccounts w .irq o w' pending := by
  rw [keyboardInterrupt] at h
  cases hout : w.ctl.out with
  | none =>
      rw [handle_empty hout, hout] at h
      cases h
      refine .of_kbd hq rfl (by simp [hout, WindowEvent.arrived, Seen.taken])
        ⟨rfl, rfl, rfl, rfl⟩ ?_
      simp [Seen.misreads, Seen.races, misled_woken]
  | some b =>
      have horder (stored : Bool) : w.ctl.out.toList ++ WindowEvent.irq.arrived =
          (Seen.handled b stored w.pc.between).taken ++ w.ctl.emptied.out.toList := by
        simp [hout, WindowEvent.arrived, Seen.taken, Controller.emptied]
      have hmisled (stored : Bool) := (Nat.zero_add _).trans_le (races_handled b stored w)
      cases haux : b.aux with
      | true =>
          rw [handle_aux hout haux, hout] at h
          cases h
          refine .of_kbd hq rfl (horder _) ?_ (hmisled _)
          simp [Seen.handledKeys, Seen.storedKeys, Seen.refusedKeys, Seen.poppedKeys, OutByte.key,
            haux]
      | false =>
          rw [handle_key hout haux, hout] at h
          have hkey : b.key = some b.data := by simp [OutByte.key, haux]
          by_cases hfull : pending.length + 1 = scancodeBufSize
          · have hpush := tryPush_of_full hq hfull b.data
            simp only [hpush, Option.map_some, tail_of_tryPush hpush] at h
            cases h
            exact
              { order := horder _
                tty := by simp [Seen.handledKeys, hkey]
                ring := ⟨pending, hq, by simp [Seen.storedKeys, Seen.poppedKeys]⟩
                full := fun _ => hfull
                misled := hmisled _ }
          · obtain ⟨q', hpush, hq'⟩ := tryPush_of_room hq hfull b.data
            simp only [hpush, Option.map_some, tail_of_tryPush hpush] at h
            cases h
            exact
              { order := horder _
                tty := by simp [Seen.handledKeys, hkey]
                ring := ⟨_, hq', by simp [Seen.storedKeys, Seen.poppedKeys, hkey]⟩
                full := fun hrefused => absurd rfl hrefused
                misled := hmisled _ }

theorem pollBranch_misled (c : Controller) : misled (pollBranch c.status) c.out = 0 := by
  cases hout : c.out with
  | none => simp [Controller.status, hout, pollBranch, misled]
  | some b =>
      simp only [Controller.status, hout]
      cases haux : b.aux with
      | true =>
          have hp : pollBranch (statusOutFull ||| statusAuxData) = .drain := by decide
          simp [hp, misled, amiss, haux]
      | false =>
          have hp : pollBranch statusOutFull = .data := by decide
          simp [hp, misled, amiss, haux]

theorem loopStep_accounted {n : ℕ} {w w' : Window} {o : Seen} {pending : List UInt8}
    (hq : w.kbd.queue.Pending pending) (h : loopStep n w = some (o, w')) :
    StepAccounts w .main o w' pending := by
  rw [loopStep] at h
  cases hpc : w.pc with
  | check =>
      rw [hpc] at h
      cases h
      refine .of_kbd hq rfl (by simp [WindowEvent.arrived, Seen.taken]) ⟨rfl, rfl, rfl, rfl⟩ ?_
      split_ifs <;> simp [misled, Seen.misreads]
  | pop =>
      rw [hpc, popScancode] at h
      cases pending with
      | nil =>
          rw [tryPop_of_empty hq] at h
          cases h
          refine .of_kbd hq rfl (by simp [WindowEvent.arrived, Seen.taken]) ⟨rfl, rfl, rfl, rfl⟩ ?_
          simp [misled, Seen.misreads]
      | cons b pending =>
          obtain ⟨q', hpop, hq'⟩ := tryPop_of_pending hq
          rw [hpop] at h
          cases h
          exact
            { order := by simp [WindowEvent.arrived, Seen.taken]
              tty := rfl
              ring := ⟨pending, hq', by simp [Seen.storedKeys, Seen.poppedKeys]⟩
              full := fun hrefused => absurd rfl hrefused
              misled := by simp [Seen.misreads, hpc, misled] }
  | poll =>
      rw [hpc] at h
      cases h
      refine .of_kbd hq rfl (by simp [WindowEvent.arrived, Seen.taken]) ⟨rfl, rfl, rfl, rfl⟩ ?_
      simp [pollBranch_misled, Seen.misreads]
  | data =>
      rw [hpc] at h
      cases hout : w.ctl.out with
      | none =>
          rw [hout] at h
          cases h
          refine .of_kbd hq rfl
            (by simp [hout, WindowEvent.arrived, Seen.taken, Controller.emptied])
            ⟨rfl, rfl, rfl, rfl⟩ ?_
          simp [Seen.misreads, misled, hpc, hout]
      | some b =>
          rw [hout] at h
          cases h
          refine .of_kbd hq rfl
            (by simp [hout, WindowEvent.arrived, Seen.taken, Controller.emptied])
            ⟨rfl, rfl, rfl, rfl⟩ ?_
          simp [Seen.misreads, misled, hpc, hout]
  | drain =>
      rw [hpc] at h
      cases h
      refine .of_kbd hq rfl (by simp [WindowEvent.arrived, Seen.taken, Controller.emptied])
        ⟨rfl, rfl, rfl, rfl⟩ ?_
      cases hout : w.ctl.out <;> simp [Seen.misreads, misled, hpc]
  | halt =>
      rw [hpc] at h
      cases h
  | done =>
      rw [hpc] at h
      cases h

theorem windowStep_accounted {n : ℕ} {e : WindowEvent} {w w' : Window} {o : Seen}
    {pending : List UInt8} (hq : w.kbd.queue.Pending pending)
    (h : windowStep n e w = some (o, w')) : StepAccounts w e o w' pending := by
  cases e with
  | arrive b =>
      rw [windowStep] at h
      split_ifs at h with hout
      cases h
      refine .of_kbd hq rfl (by simp [hout, WindowEvent.arrived, Seen.taken])
        ⟨rfl, rfl, rfl, rfl⟩ ?_
      simpa [Seen.misreads, Seen.races, hout] using misled_arrive w.pc b
  | irq => exact keyboardInterrupt_accounted hq h
  | timer =>
      cases h
      refine .of_kbd hq rfl (by simp [WindowEvent.arrived, Seen.taken]) ⟨rfl, rfl, rfl, rfl⟩ ?_
      simp [Seen.misreads, Seen.races, misled_woken]
  | main => exact loopStep_accounted hq h

/-! ## Every interleaving -/

/-- The transcript accounts for every byte between the two states. -/
structure Ledger (w : Window) (pending : List UInt8) (tr : List (WindowEvent × Seen))
    (w' : Window) : Prop where
  order : w.ctl.out.toList ++ arrivals tr = collect Seen.taken tr ++ w'.ctl.out.toList
  tty : w'.kbd.tty = (collect Seen.handledKeys tr).foldl TtyState.feedScancode w.kbd.tty
  ring : ∃ pending', w'.kbd.queue.Pending pending' ∧
    pending ++ collect Seen.storedKeys tr = collect Seen.poppedKeys tr ++ pending'
  full : collect Seen.refusedKeys tr ≠ [] →
    scancodeBufSize ≤ pending.length + (collect Seen.handledKeys tr).length
  misled : total Seen.misreads tr + misled w'.pc w'.ctl.out ≤
    total Seen.races tr + misled w.pc w.ctl.out

theorem Seen.handledKeys_perm (o : Seen) :
    o.handledKeys.Perm (o.storedKeys ++ o.refusedKeys) := by
  cases o with
  | handled b stored between => cases stored <;> simp [handledKeys, storedKeys, refusedKeys]
  | _ => exact .refl _

theorem collect_perm {β : Type} {f g h : Seen → List β} (hsplit : ∀ o, (f o).Perm (g o ++ h o))
    (tr : List (WindowEvent × Seen)) : (collect f tr).Perm (collect g tr ++ collect h tr) := by
  have hall : (collect f tr).Perm (collect (fun o => g o ++ h o) tr) := by
    induction tr with
    | nil => exact .refl _
    | cons x tr ih => exact (hsplit x.2).append ih
  exact hall.trans (List.flatMap_append_perm tr _ _).symm

theorem handledKeys_length (tr : List (WindowEvent × Seen)) : (collect Seen.handledKeys tr).length =
    (collect Seen.storedKeys tr).length + (collect Seen.refusedKeys tr).length := by
  rw [(collect_perm Seen.handledKeys_perm tr).length_eq, List.length_append]

theorem Ledger.step {n : ℕ} {w x x' : Window} {pending : List UInt8}
    {tr : List (WindowEvent × Seen)} {e : WindowEvent} {o : Seen} (h : Ledger w pending tr x)
    (hstep : windowStep n e x = some (o, x')) : Ledger w pending (tr ++ [(e, o)]) x' := by
  obtain ⟨mid, hmid, hbytes⟩ := h.ring
  have hone := windowStep_accounted hmid hstep
  obtain ⟨pending', hpending', hbytes'⟩ := hone.ring
  refine ⟨?_, ?_, ⟨pending', hpending', ?_⟩, ?_, ?_⟩
  · calc w.ctl.out.toList ++ arrivals (tr ++ [(e, o)])
        = collect Seen.taken tr ++ (x.ctl.out.toList ++ e.arrived) := by
          rw [arrivals_snoc, ← List.append_assoc, h.order, List.append_assoc]
      _ = collect Seen.taken (tr ++ [(e, o)]) ++ x'.ctl.out.toList := by
          rw [hone.order, collect_snoc, List.append_assoc]
  · rw [hone.tty, h.tty, collect_snoc, List.foldl_append]
  · calc pending ++ collect Seen.storedKeys (tr ++ [(e, o)])
        = collect Seen.poppedKeys tr ++ (mid ++ o.storedKeys) := by
          rw [collect_snoc, ← List.append_assoc, hbytes, List.append_assoc]
      _ = collect Seen.poppedKeys (tr ++ [(e, o)]) ++ pending' := by
          rw [hbytes', collect_snoc, List.append_assoc]
  · intro hrefused
    have hsplit := o.handledKeys_perm.length_eq
    rw [collect_snoc] at hrefused
    rw [collect_snoc, List.length_append]
    rw [List.length_append] at hsplit
    by_cases hnow : o.refusedKeys = []
    · have hbefore := h.full (by rwa [hnow, List.append_nil] at hrefused)
      omega
    · have hroom := hone.full hnow
      have hpos := List.length_pos_iff.mpr hnow
      have hlen := congrArg List.length hbytes
      have hstored := handledKeys_length tr
      rw [List.length_append, List.length_append] at hlen
      omega
  · have hbefore := h.misled
    have hnow := hone.misled
    rw [total_snoc, total_snoc]
    omega

theorem Run.ledger {n : ℕ} {w w' : Window} {pending : List UInt8} {tr : List (WindowEvent × Seen)}
    (hq : w.kbd.queue.Pending pending) (h : Run (windowStep n) w tr w') :
    Ledger w pending tr w' := by
  refine h.history (J := Ledger w pending) ?_ fun tr e x o t hx hstep => hx.step hstep
  exact ⟨by simp, rfl, ⟨pending, hq, by simp⟩, fun h => absurd rfl h, le_refl _⟩

def keys (bytes : List OutByte) : List UInt8 := bytes.filterMap OutByte.key

theorem keys_append (bytes bytes' : List OutByte) :
    keys (bytes ++ bytes') = keys bytes ++ keys bytes' := List.filterMap_append

theorem keys_single (b : OutByte) : keys [b] = b.key.toList := by
  cases hkey : b.key <;> simp [keys, hkey]

theorem keys_taken (tr : List (WindowEvent × Seen)) :
    keys (collect Seen.taken tr) = collect (fun o => keys o.taken) tr := List.filterMap_flatMap

theorem Seen.keys_taken_perm (o : Seen) : (keys o.taken).Perm
    (o.storedKeys ++ (o.polledKeys ++ (o.refusedKeys ++ o.discardedKeys))) := by
  cases o with
  | handled b stored between =>
      cases stored <;>
        simp [taken, keys_single, storedKeys, polledKeys, refusedKeys, discardedKeys]
  | polled b => simp [taken, keys_single, storedKeys, polledKeys, refusedKeys, discardedKeys]
  | discarded b =>
      cases b with
      | none => exact .refl _
      | some b => simp [taken, keys_single, storedKeys, polledKeys, refusedKeys, discardedKeys]
  | _ => exact .refl _

theorem collect_taken_perm (tr : List (WindowEvent × Seen)) : (keys (collect Seen.taken tr)).Perm
    (collect Seen.storedKeys tr ++ (collect Seen.polledKeys tr ++
      (collect Seen.refusedKeys tr ++ collect Seen.discardedKeys tr))) := by
  rw [keys_taken]
  have hpolled := collect_perm
    (fun o => .refl (o.polledKeys ++ (o.refusedKeys ++ o.discardedKeys))) tr
  have hlost := collect_perm (fun o => .refl (o.refusedKeys ++ o.discardedKeys)) tr
  exact (collect_perm Seen.keys_taken_perm tr).trans
    ((hpolled.trans (hlost.append_left _)).append_left _)

theorem handledKeys_sublist (tr : List (WindowEvent × Seen)) :
    (collect Seen.handledKeys tr).Sublist (keys (collect Seen.taken tr)) := by
  rw [keys_taken]
  induction tr with
  | nil => exact .refl _
  | cons x tr ih =>
      have hone : x.2.handledKeys.Sublist (keys x.2.taken) := by
        cases x.2 with
        | handled b stored between => rw [Seen.taken, keys_single]; exact .refl _
        | _ => exact List.nil_sublist _
      exact hone.append ih

theorem discardedKeys_misread (tr : List (WindowEvent × Seen)) :
    (collect Seen.discardedKeys tr).length ≤ total Seen.misreads tr := by
  induction tr with
  | nil => exact le_refl 0
  | cons x tr ih =>
      have hone : x.2.discardedKeys.length ≤ x.2.misreads := by
        cases x.2 with
        | discarded b =>
            cases b with
            | none => exact Nat.zero_le 1
            | some b =>
                cases haux : b.aux <;>
                  simp [Seen.discardedKeys, Seen.misreads, amiss, OutByte.key, haux]
        | _ => exact Nat.zero_le _
      simp only [collect, total, List.flatMap_cons, List.length_append, List.map_cons,
        List.sum_cons] at ih ⊢
      omega

/-- Whatever the interleaving of the loop, the interrupts and the devices, every
byte leaves the controller once and in order, and the terminal is fed a
subsequence of the keys: no key twice, none out of order, and no byte of the
mouse. -/
theorem terminal_gets_no_key_twice (n : ℕ) (w w' : Window) (pending : List UInt8)
    (tr : List (WindowEvent × Seen)) (hq : w.kbd.queue.Pending pending)
    (h : Run (windowStep n) w tr w') :
    w.ctl.out.toList ++ arrivals tr = collect Seen.taken tr ++ w'.ctl.out.toList ∧
    w'.kbd.tty = (collect Seen.handledKeys tr).foldl TtyState.feedScancode w.kbd.tty ∧
    (collect Seen.handledKeys tr).Sublist (keys (w.ctl.out.toList ++ arrivals tr)) := by
  have hledger := Run.ledger hq h
  refine ⟨hledger.order, hledger.tty, ?_⟩
  rw [hledger.order, keys_append]
  exact (handledKeys_sublist tr).trans (List.sublist_append_left _ _)

def opened : Window := ⟨⟨none, 0⟩, ⟨.new, .new⟩, 0, .check⟩

/-- The loop sees a byte, the interrupt takes it, and the loop reads the port. -/
def raceEvents : List WindowEvent :=
  [.main, .main, .arrive ⟨0x1E, false⟩, .main, .irq, .main, .main]

def raceSeen : List Seen :=
  [.nothing, .nothing, .nothing, .nothing, .handled ⟨0x1E, false⟩ true true, .stale 0x1E,
    .popped 0x1E]

theorem race_replay : ∃ tr w', replay (windowStep 200) raceEvents opened = some (tr, w') ∧
    tr = raceEvents.zip raceSeen := by
  have hall : (replay (windowStep 200) raceEvents opened).map Prod.fst =
      some (raceEvents.zip raceSeen) := by decide +kernel
  obtain ⟨x, hreplay, htr⟩ := Option.map_eq_some_iff.mp hall
  exact ⟨x.1, x.2, hreplay, htr⟩

/-- The loop gets the key twice, the terminal once. -/
theorem terminal_gets_no_key_twice_race : ∃ tr w',
    replay (windowStep 200) raceEvents opened = some (tr, w') ∧ tr = raceEvents.zip raceSeen ∧
    w'.kbd.tty.lineEdit = [0x61] := by
  obtain ⟨tr, w', hreplay, rfl⟩ := race_replay
  refine ⟨_, w', hreplay, rfl, ?_⟩
  rw [(terminal_gets_no_key_twice 200 opened w' [] _ new_pending (Run.of_replay hreplay)).2.1]
  decide

/-- Every key the devices send is read once by the loop, from the ring or from
the port, or is still in the ring or in the controller, unless a full ring
refuses it or the loop throws it away. The first takes more than 255 keys. The
second, like the loop reading an empty buffer or a byte of the mouse as a key,
takes an interrupt between the two port reads of a poll, and one for each. -/
theorem window_accounts_for_keys (n : ℕ) (w w' : Window) (pending : List UInt8)
    (tr : List (WindowEvent × Seen)) (hq : w.kbd.queue.Pending pending) (hpc : w.pc.between = false)
    (h : Run (windowStep n) w tr w') :
    (∃ pending', w'.kbd.queue.Pending pending' ∧
      (pending ++ keys (w.ctl.out.toList ++ arrivals tr)).Perm
        (collect Seen.poppedKeys tr ++ pending' ++ (collect Seen.polledKeys tr ++
          (collect Seen.refusedKeys tr ++ collect Seen.discardedKeys tr)) ++
          keys w'.ctl.out.toList)) ∧
    (pending.length + (keys (w.ctl.out.toList ++ arrivals tr)).length < scancodeBufSize →
      collect Seen.refusedKeys tr = []) ∧
    (collect Seen.discardedKeys tr).length ≤ total Seen.misreads tr ∧
    total Seen.misreads tr ≤ total Seen.races tr := by
  have hledger := Run.ledger hq h
  obtain ⟨pending', hpending', hbytes⟩ := hledger.ring
  rw [hledger.order, keys_append]
  refine ⟨⟨pending', hpending', ?_⟩, fun hfew => ?_, discardedKeys_misread tr, ?_⟩
  · rw [← hbytes, ← List.append_assoc, List.append_assoc pending (collect _ tr)]
    exact ((collect_taken_perm tr).append_left pending).append_right _
  · by_contra hrefused
    have hfull := hledger.full hrefused
    have hhandled := (handledKeys_sublist tr).length_le
    rw [List.length_append] at hfew
    omega
  · have hcalm : misled w.pc w.ctl.out = 0 := by
      cases hw : w.pc with
      | data | drain => rw [hw] at hpc; cases hpc
      | _ => rfl
    have hmisled := hledger.misled
    omega

/-- In the race the loop misreads once. -/
theorem window_accounts_for_keys_race : ∃ tr w',
    replay (windowStep 200) raceEvents opened = some (tr, w') ∧
    total Seen.misreads tr = 1 ∧ total Seen.races tr = 1 ∧ collect Seen.refusedKeys tr = [] := by
  obtain ⟨tr, w', hreplay, rfl⟩ := race_replay
  have hall := window_accounts_for_keys 200 opened w' [] _ new_pending rfl
    (Run.of_replay hreplay)
  exact ⟨_, w', hreplay, by decide, by decide, hall.2.1 (by decide)⟩

end Rockos.KeyboardWindow
