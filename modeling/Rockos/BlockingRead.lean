import Rockos.IrqWaits
import Rockos.UserMemory

/-!
# Blocking reads of the terminal (fs.rs, tty.rs)

`tty::read` answers `Ok(0)` when no line is ready, and `sys_read` goes on waiting
then. A buffer of no bytes gets the same answer from a ready line, which is put
back whole, so that such a read waits for ever.
-/
namespace Rockos.BlockingRead
open FallibleState PhysMemory Paging UserMemory Tty KernelState AddressSpace SyscallEffects IrqWaits
open Syscall hiding Event step

/-- Every byte of the range is on a page that is mapped writable. -/
def Storable (m : Mem) (va len : ℕ) : Prop :=
  ∀ j < len, (m.pt.entries (pageOf (va + j))).any (fun e => e.flags.writable) = true

instance (m : Mem) (va len : ℕ) : Decidable (Storable m va len) :=
  inferInstanceAs (Decidable (∀ j < len, _))

theorem storeBytes_storable {m m' : Mem} {va : ℕ} {bytes : List UInt8}
    (h : storeBytes va bytes m = .ok () m') : Storable m va bytes.length := by
  induction bytes generalizing va m with
  | nil => exact fun j hj => absurd hj (Nat.not_lt_zero j)
  | cons b bytes ih =>
      obtain ⟨_, t, hb, hbs⟩ := bind_ok h
      have hfirst : (m.pt.entries (pageOf va)).any (fun e => e.flags.writable) = true := by
        simp only [storeByte, bind_run, get_run] at hb
        cases he : m.pt.entries (pageOf va) with
        | none => simp [he] at hb
        | some e =>
            simp only [he] at hb
            split_ifs at hb with hw
            · exact hw
            · cases hb
      obtain ⟨pa, -, rfl⟩ := storeByte_ok hb
      intro j hj
      cases j with
      | zero => exact hfirst
      | succ j =>
          have hrest := ih hbs j (Nat.lt_of_succ_lt_succ hj)
          rwa [Nat.add_right_comm] at hrest

theorem storeBytes_returns_iff {m : Mem} {va : ℕ} {bytes : List UInt8} :
    (∃ m', storeBytes va bytes m = .ok () m') ↔ Storable m va bytes.length := by
  constructor
  · intro h
    obtain ⟨m', h⟩ := h
    exact storeBytes_storable h
  · intro h
    apply storeBytes_returns
    intro j hj
    exact (Option.any_eq_true _ _).mp (h j hj)

section
variable {k k' : Kernel} {buf len : ℕ}

/-! ## A turn of the loop -/

/-- What a turn returns when a line is ready and the buffer takes the bytes. -/
theorem pollStdin_of_ready {line : List UInt8} {rest : List (List UInt8)}
    (hline : k.tty.readyLines = line :: rest) (hstore : Storable k.mem buf (min len line.length))
    (hsome : min len line.length ≠ 0) : ∃ k', k'.waits = k.waits ∧
      pollStdin buf len k = .ok (some (UInt64.ofNat (min len line.length))) k' := by
  have hlen : (line.take (min line.length len)).length = min len line.length := by
    rw [List.length_take]
    omega
  obtain ⟨m', hm'⟩ := storeBytes_returns_iff.mpr (hlen.symm ▸ hstore)
  have hread : ∃ k', k'.waits = k.waits ∧
      ttyRead buf len false k = .ok (.ok (min len line.length)) k' := by
    simp only [ttyRead, bind_run, get_run, modify_run, TtyState.read, hline, onMem, zoom, hm',
      pure_run, hlen]
    refine ⟨_, ?_, rfl⟩
    rfl
  obtain ⟨k', hwaits, hread⟩ := hread
  refine ⟨k', hwaits, ?_⟩
  rw [pollStdin, bind_of_ok hread]
  obtain ⟨n, hn⟩ := Nat.exists_eq_succ_of_ne_zero hsome
  rw [hn]
  rfl

theorem ttyRead_storable {line : List UInt8} {rest : List (List UInt8)} {x : Except ℤ ℕ}
    (hline : k.tty.readyLines = line :: rest) (h : ttyRead buf len false k = .ok x k') :
    Storable k.mem buf (min len line.length) := by
  rw [ttyRead] at h
  obtain ⟨_, _, hget, h⟩ := bind_ok h
  cases hget
  obtain ⟨_, _, hmod, h⟩ := bind_ok h
  cases hmod
  simp only [TtyState.read, hline] at h
  obtain ⟨_, _, hstore, -⟩ := bind_ok h
  obtain ⟨m', hm'⟩ : ∃ m', storeBytes buf (line.take (min line.length len)) k.mem = .ok () m' := by
    simp only [onMem, zoom] at hstore
    cases hs : storeBytes buf (line.take (min line.length len)) k.mem with
    | ok u m' => exact ⟨m', rfl⟩
    | error e m' => simp [hs] at hstore
  have hall := storeBytes_storable hm'
  rwa [List.length_take, Nat.min_assoc, Nat.min_comm len, ← Nat.min_assoc, Nat.min_self,
    Nat.min_comm] at hall

/-! ## The loop -/

theorem waitTurns_of_first {α : Type} {poll : KernelM (Option α)} {a : α} (n : ℕ)
    (h : poll k = .ok (some a) k') : waitTurns poll (n + 1) k = .ok a k' := by
  rw [waitTurns, bind_of_ok h]
  rfl

theorem sysRead_stdin (hlen : len ≤ 8192) (hregion : userRegionIsWritableRange k buf len = true)
    (hblocking : k.fs.stdinNonblock = false) :
    sysRead 0 buf len k = waitTurns (pollStdin buf len) (k.waits.length + 1) k := by
  rw [sysRead, if_neg (by omega), bind_run, get_run]
  simp only [hregion, Bool.not_true, Bool.false_eq_true, if_false, if_true]
  rw [readStdin, bind_run, get_run]
  simp only [hblocking, Bool.not_false, if_true]
  rfl

/-- A read of no bytes never returns, whatever arrives in the meantime. -/
theorem sysRead_zero_waits (hregion : userRegionIsWritableRange k buf 0 = true)
    (hblocking : k.fs.stdinNonblock = false) (v : UInt64) (k' : Kernel) :
    sysRead 0 buf 0 k ≠ .ok v k' := by
  rw [sysRead_stdin (Nat.zero_le _) hregion hblocking]
  intro hend
  obtain ⟨k₁, hpoll⟩ := waitTurns_ok hend
  cases (pollStdin_ok hpoll).mpr List.take_zero

end

/-- With a line ready, a blocking read returns its first bytes in the first turn,
and the answer for an absent line is not given, exactly when the buffer is not
empty and takes these bytes. -/
theorem blocking_read_iff (es : List Event) (k : Kernel) (buf len : ℕ) (line : List UInt8)
    (rest : List (List UInt8)) (htty : k.tty = (run TtyState.new es).2)
    (hline : k.tty.readyLines = line :: rest) (hlen : len ≤ 8192)
    (hregion : userRegionIsWritableRange k buf len = true)
    (hblocking : k.fs.stdinNonblock = false) :
    ((∃ k', sysRead 0 buf len k = .ok (UInt64.ofNat (min len line.length)) k' ∧
        k'.waits = k.waits) ∧ (k.tty.read len false).1 ≠ .ok []) ↔
      len ≠ 0 ∧ Storable k.mem buf (min len line.length) := by
  have hreached := run_represents TtyState.new_sound (by simp [Single])
    (show TtyState.new.lineEdit = encode [] from rfl) es
  rw [← htty] at hreached
  have hne : line ≠ [] := (hreached.ready_nonempty line (by simp [hline])).1
  have hpos := List.length_pos_iff.mpr hne
  have hread : (k.tty.read len false).1 = .ok (line.take (min line.length len)) := by
    rw [TtyState.read, hline]
  rw [sysRead_stdin hlen hregion hblocking]
  constructor
  · intro h
    obtain ⟨⟨k', hcall, -⟩, -⟩ := h
    constructor
    · intro hzero
      subst hzero
      rw [← sysRead_stdin hlen hregion hblocking] at hcall
      exact sysRead_zero_waits hregion hblocking _ _ hcall
    · rw [waitTurns] at hcall
      obtain ⟨r, k₁, hpoll, -⟩ := bind_ok hcall
      rw [pollStdin] at hpoll
      obtain ⟨x, k₂, htake, -⟩ := bind_ok hpoll
      exact ttyRead_storable hline htake
  · intro h
    obtain ⟨hzero, hstore⟩ := h
    obtain ⟨k', hwaits, hpoll⟩ := pollStdin_of_ready hline hstore (by omega)
    refine ⟨⟨k', waitTurns_of_first _ hpoll, hwaits⟩, ?_⟩
    rw [hread]
    intro heq
    have hnil := congrArg List.length (Except.ok.inj heq)
    rw [List.length_take, List.length_nil] at hnil
    omega

/-- The first process, after `a` and Enter were typed. -/
def typedLine : Kernel :=
  { started with tty := (run TtyState.new [.feed 0x1E, .feed 0x1C]).2 }

theorem typedLine_ready : typedLine.tty.readyLines = [[0x61, newline]] := by decide

theorem typedLine_stack : userRegionIsWritableRange typedLine 0x401F00 8 = true ∧
    Storable typedLine.mem 0x401F00 2 := by decide +kernel

/-- A buffer of eight bytes gets both bytes of the line. -/
theorem blocking_read_iff_typed :
    ∃ k', sysRead 0 0x401F00 8 typedLine = .ok 2 k' ∧ k'.waits = typedLine.waits := by
  have hreturns := (blocking_read_iff [.feed 0x1E, .feed 0x1C] typedLine 0x401F00 8
    [0x61, newline] [] rfl typedLine_ready (by decide) typedLine_stack.1 rfl).mpr
    ⟨by decide, typedLine_stack.2⟩
  exact hreturns.1

/-- An accepted buffer of no bytes: the line is ready, and the read never returns,
whatever interrupts arrive. -/
theorem zero_read_blocks_for_ever : typedLine.tty.readyLines = [[0x61, newline]] ∧
    userRegionIsWritableRange typedLine 0x401F00 0 = true ∧
    (typedLine.tty.read 0 false).1 = .ok [] ∧
    ∀ waits v k', sysRead 0 0x401F00 0 { typedLine with waits := waits } ≠ .ok v k' := by
  have hregion : ∀ k, userRegionIsWritableRange k 0x401F00 0 = true := by
    intro k
    simp [userRegionIsWritableRange, inStack, userStackTop, pageSize]
  refine ⟨typedLine_ready, hregion _, ?_, ?_⟩
  · rw [TtyState.read, typedLine_ready]
    rfl
  · intro waits
    exact sysRead_zero_waits (hregion _) rfl

end Rockos.BlockingRead
