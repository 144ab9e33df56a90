import Rockos.BlockingRead
import Rockos.FairTurns
import Rockos.SystemMemory
import Rockos.TypedLines

/-!
# From the keyboard to the readers

Keys arrive while a process runs and while a call waits; reads of any process
empty the same queue of lines. Over a whole run, the bytes that the reads put
into user memory are the lines that were typed: in order, each byte once, and
without those lines that found the queue full.
-/
namespace Rockos.TerminalInput
open FallibleState Runs PhysMemory Paging UserMemory FrameSafety KernelState AddressSpace
open Tty hiding Event step run
open TypedLines
open SyscallEffects RunQueue Turns CallFootprints SystemMemory IrqWaits Syscall

/-! ## The terminal during a call -/

def codes : List Irq → List UInt8
  | [] => []
  | .timer :: irqs => codes irqs
  | .keyboard code :: irqs => code :: codes irqs

theorem takeIrqs_tty (irqs : List Irq) (k : Kernel) :
    (takeIrqs irqs k).tty = (Tty.run k.tty ((codes irqs).map .feed)).2 := by
  induction irqs generalizing k with
  | nil => rfl
  | cons i irqs ih =>
      have hcons : takeIrqs (i :: irqs) k = takeIrqs irqs (takeIrq i k) := rfl
      rw [hcons, ih]
      cases i with
      | timer =>
          have hsame : (takeIrq .timer k).tty = k.tty := by
            simp only [takeIrq, timerInterruptHandler, onTimerTick]
            split_ifs <;> rfl
          rw [hsame]
          rfl
      | keyboard code => rfl

theorem takeIrqs_input (irqs : List Irq) (k : Kernel) :
    Input k.tty (takeIrqs irqs k).tty (codes irqs) [] := by
  rw [takeIrqs_tty]
  exact Input.feed k.tty (codes irqs)

theorem takeIrqs_append (irqs irqs' : List Irq) (k : Kernel) :
    takeIrqs (irqs ++ irqs') k = takeIrqs irqs' (takeIrqs irqs k) := List.foldl_append

/-- The handlers do not look at what is still to come. -/
theorem takeIrqs_setWaits (irqs : List Irq) (waits : List (List Irq)) (k : Kernel) :
    takeIrqs irqs { k with waits := waits } = { takeIrqs irqs k with waits := waits } := by
  induction irqs generalizing k with
  | nil => rfl
  | cons i irqs ih =>
      have hone : takeIrq i { k with waits := waits } = { takeIrq i k with waits := waits } := by
        cases i with
        | timer =>
            simp only [takeIrq, timerInterruptHandler, onTimerTick]
            split_ifs <;> rfl
        | keyboard code => rfl
      have hcons : ∀ x, takeIrqs (i :: irqs) x = takeIrqs irqs (takeIrq i x) := fun _ => rfl
      rw [hcons, hcons, hone, ih]

theorem enableAndHlt_ok {k k' : Kernel} {u : Unit} (h : enableAndHlt k = .ok u k') :
    ∃ irqs rest, k.waits = irqs :: rest ∧ k' = takeIrqs irqs { k with waits := rest } := by
  simp only [enableAndHlt, bind_run, get_run] at h
  cases hw : k.waits with
  | nil => simp [hw] at h
  | cons irqs rest =>
      simp only [hw, modify_run, EStateM.Result.ok.injEq, true_and] at h
      exact ⟨irqs, rest, rfl, h.symm⟩

/-- A loop whose unsuccessful polls change nothing: it takes some batches, and
then the poll succeeds. -/
theorem waitTurns_taken {α : Type} {poll : KernelM (Option α)} {I : Kernel → Prop}
    (hidle : ∀ k k', I k → poll k = .ok none k' → k' = k)
    (hirqs : ∀ k irqs rest, I k → I (takeIrqs irqs { k with waits := rest })) {n : ℕ}
    {k k' : Kernel} {a : α} (hI : I k) (h : waitTurns poll n k = .ok a k') :
    ∃ batches rest, k.waits = batches ++ rest ∧
      I (takeIrqs batches.flatten { k with waits := rest }) ∧
      poll (takeIrqs batches.flatten { k with waits := rest }) = .ok (some a) k' := by
  induction n generalizing k with
  | zero => cases h
  | succ n ih =>
      rw [waitTurns] at h
      obtain ⟨r, k₁, hpoll, hturn⟩ := bind_ok h
      cases r with
      | some b =>
          cases hturn
          exact ⟨[], k.waits, rfl, hI, hpoll⟩
      | none =>
          obtain rfl := hidle k k₁ hI hpoll
          obtain ⟨_, k₂, hhlt, hrest⟩ := bind_ok hturn
          obtain ⟨irqs, rest, hw, rfl⟩ := enableAndHlt_ok hhlt
          obtain ⟨batches, rest', hsplit, hI', hlast⟩ := ih (hirqs k₁ irqs rest hI) hrest
          rw [takeIrqs_waits] at hsplit
          have hstate : takeIrqs (irqs :: batches).flatten { k₁ with waits := rest' } =
              takeIrqs batches.flatten
                { takeIrqs irqs { k₁ with waits := rest } with waits := rest' } := by
            rw [List.flatten_cons, takeIrqs_append, takeIrqs_setWaits irqs rest' k₁,
              takeIrqs_setWaits irqs rest k₁]
          exact ⟨irqs :: batches, rest', by rw [hw, show rest = _ from hsplit, List.cons_append],
            hstate ▸ hI', hstate ▸ hlast⟩

section
variable {k k' : Kernel} {buf len : ℕ}

/-- The bytes at an address, as many as are asked for. -/
def userBytesAt (m : Mem) (va n : ℕ) : List UInt8 := (loadBytes m va n).toOption.getD []

theorem bytesAt_stored {m m' : Mem} {va : ℕ} {bytes : List UInt8} (hsafe : FrameSafe m)
    (h : storeBytes va bytes m = .ok () m') : userBytesAt m' va bytes.length = bytes := by
  have hbyte : ∀ j < bytes.length, userByte m' (va + j) = bytes[j]? := by
    intro j hj
    rw [storeBytes_ok hsafe h, if_pos (by omega), Nat.add_sub_cancel_left]
  obtain ⟨loaded, hload⟩ := loadBytes_returns fun j hj => by
    rw [hbyte j hj, List.getElem?_eq_getElem hj, Option.isSome_some]
  have hsame : loaded = bytes := by
    obtain ⟨hlen, hall⟩ := loadBytes_ok hload
    apply List.ext_getElem?
    intro j
    by_cases hj : j < bytes.length
    · rw [← hall j hj, hbyte j hj]
    · rw [List.getElem?_eq_none (by omega), List.getElem?_eq_none (by omega)]
  rw [userBytesAt, hload, hsame]
  rfl

/-- A read of the terminal takes a chunk and stores it, or fails and changes
nothing. -/
theorem ttyRead_cases {nonblock : Bool} {x : Except ℤ ℕ}
    (h : ttyRead buf len nonblock k = .ok x k') :
    (∃ bytes m', (k.tty.read len nonblock).1 = .ok bytes ∧ storeBytes buf bytes k.mem = .ok () m' ∧
      x = .ok bytes.length ∧ k' = { k with tty := (k.tty.read len nonblock).2, mem := m' }) ∨
    (nonblock = true ∧ x = .error (-11) ∧ k' = k) := by
  rw [ttyRead] at h
  obtain ⟨_, _, hget, h⟩ := bind_ok h
  cases hget
  obtain ⟨_, _, hmod, h⟩ := bind_ok h
  cases hmod
  cases hr : (k.tty.read len nonblock).1 with
  | ok bytes =>
      simp only [hr] at h
      obtain ⟨_, k₁, hstore, h⟩ := bind_ok h
      simp only [onMem, zoom] at hstore
      cases hs : storeBytes buf bytes k.mem with
      | error e m' => simp [hs] at hstore
      | ok u m' =>
          simp only [hs, EStateM.Result.ok.injEq, true_and] at hstore
          subst hstore
          cases h
          exact .inl ⟨bytes, m', rfl, hs, rfl, rfl⟩
  | error e =>
      simp only [hr] at h
      cases h
      have hlines : nonblock = true ∧ e = -11 ∧ (k.tty.read len nonblock).2 = k.tty := by
        unfold TtyState.read at hr ⊢
        cases hl : k.tty.readyLines with
        | cons line rest => simp [hl] at hr
        | nil =>
            simp only [hl] at hr
            split_ifs at hr with hnb
            cases hr
            exact ⟨hnb, rfl, rfl⟩
      obtain ⟨hnb, rfl, hsame⟩ := hlines
      rw [hsame]
      exact .inr ⟨hnb, rfl, rfl⟩

/-- An unsuccessful turn of a blocking read changes nothing. -/
theorem pollStdin_idle (hs : k.tty.Sound) (h : pollStdin buf len k = .ok none k') : k' = k := by
  rw [pollStdin] at h
  obtain ⟨x, k₁, hread, h⟩ := bind_ok h
  rcases ttyRead_cases hread with ⟨bytes, m', hr, hstore, rfl, rfl⟩ | ⟨hnb, -⟩
  · cases bytes with
    | cons b bytes => cases h
    | nil =>
        cases h
        cases hstore
        have htty : (k.tty.read len false).2 = k.tty := by
          unfold TtyState.read at hr ⊢
          cases hl : k.tty.readyLines with
          | nil => rfl
          | cons line rest =>
              have hne := (hs.ready_lines line (by simp [hl])).nonempty.1
              simp only [hl, Except.ok.injEq, List.take_eq_nil_iff] at hr
              have hzero : min line.length len = 0 := hr.resolve_right hne
              have hpos : 0 < line.length := List.length_pos_iff.mpr hne
              simp only [hzero, hpos, if_true, List.drop_zero, ← hl]
        rw [htty]
  · cases hnb

/-- The bytes behind an answer of `read`: as many as it says, unless it is an
error. -/
def answered (v : UInt64) (m : Mem) (buf : ℕ) : List UInt8 :=
  if v.toNat ≤ 8192 then userBytesAt m buf v.toNat else []

/-- The chunk that a read of the terminal stored. -/
theorem chunk_input {bytes : List UInt8} {nonblock : Bool}
    (hr : (k.tty.read len nonblock).1 = .ok bytes) :
    Input k.tty (k.tty.read len nonblock).2 [] bytes := by
  refine ⟨[.read len nonblock], ?_, rfl, ?_⟩
  · rw [Tty.run, Tty.run, step_read_state]
  · simp only [Tty.run, returnedStream, List.flatMap_cons, List.flatMap_nil, List.append_nil]
    simp only [Tty.step]
    split <;> simp_all

theorem chunk_length {bytes : List UInt8} {nonblock : Bool} (hlen : len ≤ 8192)
    (hr : (k.tty.read len nonblock).1 = .ok bytes) :
    (UInt64.ofNat bytes.length).toNat = bytes.length ∧ bytes.length ≤ 8192 := by
  have hle : bytes.length ≤ len := by
    unfold TtyState.read at hr
    cases hl : k.tty.readyLines with
    | nil =>
        simp only [hl] at hr
        split_ifs at hr
        cases hr
        exact Nat.zero_le _
    | cons line rest =>
        simp only [hl, Except.ok.injEq] at hr
        rw [← hr, List.length_take]
        omega
  refine ⟨?_, hle.trans hlen⟩
  rw [UInt64.toNat_ofNat']
  exact Nat.mod_eq_of_lt (by omega)

/-- What `read` answers to a chunk of the terminal. -/
theorem stored_input {bytes : List UInt8} {m' : Mem} {nonblock : Bool} (hsafe : FrameSafe k.mem)
    (hlen : len ≤ 8192) (hr : (k.tty.read len nonblock).1 = .ok bytes)
    (hstore : storeBytes buf bytes k.mem = .ok () m') :
    Input k.tty (k.tty.read len nonblock).2 []
      (answered (UInt64.ofNat bytes.length) m' buf) := by
  obtain ⟨hnat, hle⟩ := chunk_length hlen hr
  rw [answered, hnat, if_pos hle, bytesAt_stored hsafe hstore]
  exact chunk_input hr

theorem pollStdin_input {v : UInt64} (hsafe : FrameSafe k.mem) (hlen : len ≤ 8192)
    (h : pollStdin buf len k = .ok (some v) k') :
    k'.waits = k.waits ∧ Input k.tty k'.tty [] (answered v k'.mem buf) := by
  rw [pollStdin] at h
  obtain ⟨x, k₁, hread, hturn⟩ := bind_ok h
  rcases ttyRead_cases hread with ⟨bytes, m', hr, hstore, rfl, rfl⟩ | ⟨hnb, -⟩
  · cases bytes with
    | nil => cases hturn
    | cons b bytes =>
        cases hturn
        exact ⟨rfl, stored_input hsafe hlen hr hstore⟩
  · cases hnb

/-- A read of the terminal: the interrupts it waited for, then one chunk. -/
theorem readStdin_input {v : UInt64} (hs : k.tty.Sound) (hsafe : FrameSafe k.mem)
    (hlen : len ≤ 8192) (h : readStdin buf len k = .ok v k') :
    ∃ batches, k.waits = batches ++ k'.waits ∧
      Input k.tty k'.tty (codes batches.flatten) (answered v k'.mem buf) := by
  rw [readStdin] at h
  obtain ⟨_, _, hget, hread⟩ := bind_ok h
  cases hget
  cases hnb : k.fs.stdinNonblock with
  | true =>
      rw [hnb, if_neg (by simp)] at hread
      obtain ⟨x, k₁, htake, hanswer⟩ := bind_ok hread
      rcases ttyRead_cases htake with ⟨bytes, m', hr, hstore, rfl, rfl⟩ | ⟨-, rfl, rfl⟩
      · cases hanswer
        exact ⟨[], rfl, stored_input hsafe hlen hr hstore⟩
      · cases hanswer
        exact ⟨[], rfl, Input.refl _⟩
  | false =>
      rw [hnb, if_pos (by simp), waitLoop] at hread
      obtain ⟨_, _, hget, hturns⟩ := bind_ok hread
      cases hget
      obtain ⟨batches, rest, hsplit, -, hlast⟩ := waitTurns_taken (I := fun x => x.tty.Sound)
        (fun x x' hx hpoll => pollStdin_idle hx hpoll)
        (fun x irqs rest hx => (takeIrqs_input irqs { x with waits := rest }).sound hx) hs hturns
      have hfed := takeIrqs_input batches.flatten { k with waits := rest }
      obtain ⟨hwaits, hchunk⟩ := pollStdin_input (by rwa [takeIrqs_mem]) hlen hlast
      rw [takeIrqs_waits] at hwaits
      exact ⟨batches, hwaits ▸ hsplit, by simpa using hfed.trans hchunk⟩

/-- Neither the terminal nor what is still to come was touched. -/
structure Aside (k k' : Kernel) : Prop where
  tty : k'.tty = k.tty
  waits : k'.waits = k.waits

instance : IsPreorder Kernel Aside where
  refl _ := ⟨rfl, rfl⟩
  trans _ _ _ h h' := ⟨h'.tty.trans h.tty, h'.waits.trans h.waits⟩

theorem Aside.input (h : Aside k k') :
    ∃ batches, k.waits = batches ++ k'.waits ∧ Input k.tty k'.tty (codes batches.flatten) [] :=
  ⟨[], h.waits.symm, h.tty ▸ Input.refl k.tty⟩

theorem aside_permits {e : Edit} (hirqs : e ≠ .irqs) (htty : e ≠ .terminal) : Permits Aside e := by
  cases e with
  | irqs => exact absurd rfl hirqs
  | terminal => exact absurd rfl htty
  | bytes => exact fun _ _ _ => ⟨rfl, rfl⟩
  | memory => exact fun _ _ => ⟨rfl, rfl⟩
  | own => exact fun _ _ _ => ⟨rfl, rfl⟩
  | heap => exact fun _ _ _ _ => ⟨rfl, rfl⟩
  | placement => exact fun _ _ _ => ⟨rfl, rfl⟩
  | files => exact fun _ _ _ => ⟨rfl, rfl⟩
  | descriptor => exact fun _ _ => ⟨rfl, rfl⟩
  | resched => exact fun _ => ⟨rfl, rfl⟩
  | table => exact fun _ _ => ⟨rfl, rfl⟩
  | queue =>
      intro k slot
      unfold enqueueNewTask
      split_ifs <;> exact ⟨rfl, rfl⟩

theorem readFile_aside (fd : UInt64) (buf len : ℕ) : Within Aside (readFile fd buf len) := by
  refine within_bind within_get fun k => ?_
  split
  · exact within_pure _
  · exact within_pure _
  · exact within_bind (onMem_permitted (aside_permits (by decide) (by decide)) _) fun _ =>
      within_pure _

theorem sysRead_input {fd v : UInt64} (hs : k.tty.Sound) (hsafe : FrameSafe k.mem)
    (h : sysRead fd buf len k = .ok v k') :
    ∃ batches, k.waits = batches ++ k'.waits ∧ Input k.tty k'.tty (codes batches.flatten)
      (if fd = 0 then answered v k'.mem buf else []) := by
  have hrefused : ∀ n ∈ [22, 14], ∃ batches, k.waits = batches ++ k.waits ∧
      Input k.tty k.tty (codes batches.flatten)
        (if fd = 0 then answered (errno n) k.mem buf else []) := by
    intro n hn
    have hnone : answered (errno n) k.mem buf = [] := by
      simp only [List.mem_cons, List.not_mem_nil, or_false] at hn
      rcases hn with rfl | rfl <;> exact if_neg (by decide)
    refine ⟨[], rfl, ?_⟩
    rw [hnone, ite_self]
    exact Input.refl _
  rw [sysRead] at h
  by_cases hlen : len > 8192
  · rw [if_pos hlen] at h
    cases h
    exact hrefused 22 (by simp)
  rw [if_neg hlen] at h
  obtain ⟨_, _, hget, hread⟩ := bind_ok h
  cases hget
  cases hwr : userRegionIsWritableRange k buf len with
  | false =>
      rw [hwr, if_pos (by simp)] at hread
      cases hread
      exact hrefused 14 (by simp)
  | true =>
      rw [hwr, if_neg (by simp)] at hread
      by_cases hfd : fd = 0
      · rw [if_pos hfd] at hread
        rw [if_pos hfd]
        exact readStdin_input hs hsafe (by omega) hread
      · rw [if_neg hfd] at hread
        rw [if_neg hfd]
        apply Aside.input
        exact (within_ite (within_pure _) (readFile_aside fd buf len)).ok hread

theorem sleepUntilTicks_input {deadline : ℕ} {u : Unit}
    (h : sleepUntilTicks deadline k = .ok u k') :
    ∃ batches, k.waits = batches ++ k'.waits ∧
      Input k.tty k'.tty (codes batches.flatten) [] := by
  rw [sleepUntilTicks, waitLoop] at h
  obtain ⟨_, _, hget, hturns⟩ := bind_ok h
  cases hget
  have hpoll : ∀ {x x' : Kernel} {r : Option Unit}, (do
      if (← get).ticks < deadline then pure none else pure (some ()) : KernelM (Option Unit)) x =
        .ok r x' → x' = x := by
    intro x x' r hx
    simp only [bind_run, get_run] at hx
    split_ifs at hx <;> cases hx <;> rfl
  obtain ⟨batches, rest, hsplit, -, hlast⟩ := waitTurns_taken (I := fun _ => True)
    (fun x x' _ hx => hpoll hx) (fun _ _ _ _ => trivial) trivial hturns
  rw [hpoll hlast, takeIrqs_waits]
  exact ⟨batches, hsplit, takeIrqs_input _ _⟩

theorem sysNanosleep_input {req : ℕ} {v : UInt64} (h : sysNanosleep req k = .ok v k') :
    ∃ batches, k.waits = batches ++ k'.waits ∧
      Input k.tty k'.tty (codes batches.flatten) [] := by
  rw [sysNanosleep] at h
  by_cases hreq : req = 0
  · rw [if_pos hreq] at h
    cases h
    exact Aside.input (refl k)
  rw [if_neg hreq] at h
  obtain ⟨_, _, hget, hcheck⟩ := bind_ok h
  cases hget
  cases hrd : userRegionIsReadableRange k req 16 with
  | false =>
      rw [hrd, if_pos (by simp)] at hcheck
      cases hcheck
      exact Aside.input (refl k)
  | true =>
      rw [hrd, if_neg (by simp)] at hcheck
      obtain ⟨bytes, k₁, hload, h₁⟩ := bind_ok hcheck
      obtain ⟨-, rfl⟩ := inspect_ok hload
      obtain ⟨ticks, k₂, hticks, h₂⟩ := bind_ok h₁
      obtain ⟨-, rfl⟩ := inspect_ok hticks
      obtain ⟨_, _, hget, h₃⟩ := bind_ok h₂
      cases hget
      obtain ⟨_, k₃, hsleep, h₄⟩ := bind_ok h₃
      cases h₄
      exact sleepUntilTicks_input hsleep

end

/-! ## Whole calls -/

/-- The bytes that a call delivered from the terminal, judged by its result. -/
def received (t : Trap) (v : UInt64) (m : Mem) : List UInt8 :=
  if sysno (t.reg .rax) = some .read then
    if t.reg .rdi = 0 then answered v m (t.reg .rsi).toNat else []
  else []

section
variable {cfg : Config} {t : Trap} {k k₁ k' : Kernel} {v : UInt64}

theorem dispatch_input (hs : k.tty.Sound) (hsafe : FrameSafe k.mem)
    (h : dispatch cfg t k = .ok (.returned v) k₁) :
    ∃ batches, t.waits = batches ++ k₁.waits ∧
      Input k.tty k₁.tty (codes batches.flatten) (received t v k₁.mem) := by
  by_cases hread : sysno (t.reg .rax) = some .read
  · rw [dispatch_eq, syscallDispatch, hread] at h
    obtain ⟨v', hv, hcall⟩ := returning_ok h
    cases hv
    rw [received, if_pos hread]
    exact sysRead_input (k := trapState t k) hs (userStores_safe t.stores hsafe) hcall
  · rw [received, if_neg hread]
    by_cases hsleep : sysno (t.reg .rax) = some .nanosleep
    · rw [dispatch_eq, syscallDispatch, hsleep] at h
      obtain ⟨v', hv, hcall⟩ := returning_ok h
      exact sysNanosleep_input (k := trapState t k) hcall
    · have haside : Aside (trapState t k) k₁ := by
        refine dispatch_footprint h fun c hc e he => aside_permits ?_ ?_
        · rintro rfl
          cases c <;> simp_all [footprint]
        · rintro rfl
          cases c <;> simp_all [footprint]
      exact haside.input

/-- The keys that a step took in: those of the interrupts it consists of. -/
def pressed : Event → Kernel → List UInt8
  | .irq i, _ => codes [i]
  | .syscall t, k' => codes (t.waits.take (t.waits.length - k'.waits.length)).flatten

/-- The bytes that a step delivered, read back from the memory it left. -/
def fetched : Event → Kernel → Kernel → List UInt8
  | .irq _, _, _ => []
  | .syscall t, k, k' => received t (pendingRaxForSlot k' k.currentSlot) k'.mem

theorem pressed_of_split {batches : List (List Irq)} (h : t.waits = batches ++ k'.waits) :
    pressed (.syscall t) k' = codes batches.flatten := by
  have hcount : t.waits.length - k'.waits.length = batches.length := by
    rw [h, List.length_append, Nat.add_sub_cancel]
  rw [pressed, hcount, h, List.take_left]

theorem step_input {e : Event} {o : Option Resumed} (h : Ready k) (hs : k.tty.Sound)
    (hsafe : FrameSafe k.mem) (hstep : step cfg e k = some (o, k')) :
    Input k.tty k'.tty (pressed e k') (fetched e k k') := by
  cases e with
  | irq i =>
      obtain ⟨-, rfl⟩ := step_irq_ok hstep
      exact takeIrqs_input [i] k
  | syscall t =>
      obtain ⟨r, -, hrun⟩ := step_syscall_ok hstep
      cases syscall_after h hrun with
      | returned v k₁ hcall hfinal =>
          obtain ⟨batches, hsplit, hin⟩ := dispatch_input hs hsafe hcall
          obtain ⟨top, sched, due, htail⟩ := tailState_eq r.slot t k v k₁
          have hrax : pendingRaxForSlot k' k.currentSlot = v := by
            rw [hfinal]
            exact pendingRax_tailState h hcall
          obtain ⟨htty, hwaits, hmem⟩ :
              k'.tty = k₁.tty ∧ k'.waits = k₁.waits ∧ k'.mem = k₁.mem := by
            rw [hfinal, htail]
            exact ⟨rfl, rfl, rfl⟩
          rw [fetched, hrax, hmem, htty, pressed_of_split (hwaits ▸ hsplit)]
          exact hin
      | exited hexit hfinal =>
          have hnone : fetched (.syscall t) k k' = [] := by
            rw [fetched, received, if_neg (by rw [hexit]; decide)]
          have hpressed : pressed (.syscall t) k' = codes [].flatten :=
            pressed_of_split (by rw [hfinal]; rfl)
          rw [hnone, hpressed, hfinal]
          exact Input.refl _

/-! ## Whole runs -/

/-- The keys taken in and the bytes delivered so far, in order. -/
structure Record where
  keys : List UInt8
  delivered : List UInt8
  deriving DecidableEq, Repr

def note (e : Event) (k k' : Kernel) (d : Record) : Record :=
  ⟨d.keys ++ pressed e k', d.delivered ++ fetched e k k'⟩

theorem run_input {tr : List (Event × Option Resumed)} {d : Record} (h : Ready k)
    (hs : k.tty.Sound) (hsafe : FrameSafe k.mem)
    (hrun : Run (observed (step cfg) note) (k, ⟨[], []⟩) tr (k', d)) :
    Input k.tty k'.tty d.keys d.delivered := by
  have hall := hrun.invariant (I := fun x : Kernel × Record => Ready x.1 ∧ FrameSafe x.1.mem ∧
    Input k.tty x.1.tty x.2.keys x.2.delivered) ?_ ⟨h, hsafe, Input.refl _⟩
  · exact hall.2.2
  · intro e x o y hstep hx
    obtain ⟨hready, hsafe, hin⟩ := hx
    obtain ⟨hstep, hnote⟩ := observed_eq_some.mp hstep
    refine ⟨step_ready e x.1 o y.1 hstep hready, step_safe e x.1 o y.1 hstep hsafe, ?_⟩
    rw [hnote]
    exact hin.trans (step_input hready (hin.sound hs) hsafe hstep)

end

/-- `read(0, 0x401F00, 8)`, in which these interrupts arrive. -/
def readTrap (waits : List (List Irq)) : Trap :=
  { trapWith (fun | .rax => 0 | .rsi => 0x401F00 | .rdx => 8 | .rsp => 0x401FF8
                  | .rcx => 0x400078 | .r11 => 0x202 | _ => 0) [] with
    waits := waits }

theorem codes_append (irqs irqs' : List Irq) :
    codes (irqs ++ irqs') = codes irqs ++ codes irqs' := by
  induction irqs with
  | nil => rfl
  | cons i irqs ih => cases i <;> simp [codes, ih]

section
variable {k k' : Kernel} {buf len : ℕ}

theorem pollStdin_of_empty (hempty : k.tty.readyLines = []) :
    pollStdin buf len k = .ok none k := by
  simp only [pollStdin, ttyRead, bind_run, get_run, modify_run, TtyState.read, hempty]
  rfl

/-- A blocking read that has returned found a line that was ended. -/
theorem lines_of_returned {n : ℕ} {v : UInt64} (hs : k.tty.Sound)
    (hempty : k.tty.readyLines = []) (h : waitTurns (pollStdin buf len) n k = .ok v k') :
    lines k.tty (codes k.waits.flatten) ≠ [] := by
  obtain ⟨batches, rest, hsplit, -, hlast⟩ := waitTurns_taken (I := fun x => x.tty.Sound)
    (fun x x' hx hpoll => pollStdin_idle hx hpoll)
    (fun x irqs rest hx => (takeIrqs_input irqs { x with waits := rest }).sound hx) hs h
  intro hnone
  rw [hsplit, List.flatten_append, codes_append, lines_append, List.append_eq_nil_iff] at hnone
  have hstill := (feeds_empty_iff k.tty (codes batches.flatten)).mpr ⟨hempty, hnone.1⟩
  rw [pollStdin_of_empty (by rw [takeIrqs_tty]; exact hstill)] at hlast
  cases hlast

theorem waitTurns_of_line (n : ℕ) (hs : k.tty.Sound)
    (hstore : BlockingRead.Storable k.mem buf len) (hlen : len ≠ 0)
    (hline : k.tty.readyLines ≠ []) :
    ∃ v k', waitTurns (pollStdin buf len) (n + 1) k = .ok v k' := by
  obtain ⟨line, rest, hready⟩ := List.exists_cons_of_ne_nil hline
  have hpos : 0 < line.length :=
    List.length_pos_iff.mpr (hs.ready_lines line (by simp [hready])).nonempty.1
  have hfits : BlockingRead.Storable k.mem buf (min len line.length) :=
    fun j hj => hstore j (by omega)
  obtain ⟨k', -, hpoll⟩ := BlockingRead.pollStdin_of_ready hready hfits (by omega)
  exact ⟨_, k', BlockingRead.waitTurns_of_first n hpoll⟩

/-- Once a line is ended, a blocking read returns. -/
theorem waitTurns_returns {waits : List (List Irq)} (hwaits : k.waits = waits)
    (hs : k.tty.Sound) (hstore : BlockingRead.Storable k.mem buf len) (hlen : len ≠ 0)
    (h : ¬ (k.tty.readyLines = [] ∧ lines k.tty (codes waits.flatten) = [])) :
    ∃ v k', waitTurns (pollStdin buf len) (waits.length + 1) k = .ok v k' := by
  by_cases hempty : k.tty.readyLines = []
  swap
  · exact waitTurns_of_line _ hs hstore hlen hempty
  induction waits generalizing k with
  | nil => exact absurd ⟨hempty, rfl⟩ h
  | cons irqs rest ih =>
      have hhlt : enableAndHlt k = .ok () (takeIrqs irqs { k with waits := rest }) := by
        simp [enableAndHlt, bind_run, hwaits]
      rw [List.length_cons, waitTurns, bind_of_ok (pollStdin_of_empty hempty)]
      simp only [bind_of_ok hhlt]
      generalize hx : takeIrqs irqs { k with waits := rest } = x
      have htty : x.tty = (Tty.run k.tty ((codes irqs).map .feed)).2 := by
        rw [← hx, takeIrqs_tty]
      have hsx : x.tty.Sound := by
        rw [htty]
        exact Sound.run hs _
      have hstorex : BlockingRead.Storable x.mem buf len := by
        rw [← hx, takeIrqs_mem]
        exact hstore
      have hrest : ¬ (x.tty.readyLines = [] ∧ lines x.tty (codes rest.flatten) = []) := by
        rw [htty, feeds_empty_iff]
        rw [List.flatten_cons, codes_append, lines_append, List.append_eq_nil_iff] at h
        exact fun hno => h ⟨hempty, hno.1.2, hno.2⟩
      by_cases hstill : x.tty.readyLines = []
      · exact ih (by rw [← hx, takeIrqs_waits]) hsx hstorex hrest hstill
      · exact waitTurns_of_line _ hsx hstorex hlen hstill

end

end Rockos.TerminalInput
