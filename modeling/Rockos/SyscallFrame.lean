import Rockos.StackMachine

/-!
# The syscall frame (task.rs and the assembly of syscall.rs)

Four hand-written layouts meet here: the pushes of `syscall_entry`, the word
indices of `save_from_dispatch_rsp`, the word indices of `restore_to_kstack`
and the pops of `syscall_user_return`. Each is transcribed separately; the
theorems compute what each stores or loads, and then compose them.

The indices of the two Rust functions are relative to a pointer one word below
the one that the assembly uses. In the composition the two shifts cancel, but
each end loses one register: `r15` is loaded from the alignment pad, and `r14`
was overwritten with the kernel stack top before it was pushed.
-/
namespace Rockos.SyscallFrame
open StackMachine

/-- The statics the entry stub reads and writes. -/
inductive Glob where
  | syscallUserRspStash
  | currentKstackTop
  deriving DecidableEq, Repr

structure SyscallSaved where
  userRsp : UInt64
  userRip : UInt64
  userRflags : UInt64
  rbx : UInt64
  rbp : UInt64
  r12 : UInt64
  r13 : UInt64
  r14 : UInt64
  r15 : UInt64
  deriving DecidableEq, Repr

def bootstrapUser (entry stackTop rflags : UInt64) : SyscallSaved :=
  ⟨stackTop, entry, rflags, 0, 0, 0, 0, 0, 0⟩

def saveFromDispatchRsp (mem : UInt64 → UInt64) (dispatchRsp : UInt64) : SyscallSaved where
  userRsp := mem (wordPtr dispatchRsp 10)
  userRip := mem (wordPtr dispatchRsp 9)
  userRflags := mem (wordPtr dispatchRsp 8)
  rbx := mem (wordPtr dispatchRsp 7)
  rbp := mem (wordPtr dispatchRsp 6)
  r12 := mem (wordPtr dispatchRsp 5)
  r13 := mem (wordPtr dispatchRsp 4)
  r14 := mem (wordPtr dispatchRsp 3)
  r15 := mem (wordPtr dispatchRsp 2)

/-- The words `restore_to_kstack` writes from `base` upwards. -/
def restoreWords (s : SyscallSaved) (retToKernel : UInt64) : List UInt64 :=
  [retToKernel, 0, s.r15, s.r14, s.r13, s.r12, s.rbp, s.rbx, s.userRflags, s.userRip, s.userRsp]

def restoreToKstack (topExclusive : UInt64) (s : SyscallSaved) (retToKernel : UInt64)
    (mem : UInt64 → UInt64) : UInt64 → UInt64 :=
  writeWords (topExclusive - 88) (restoreWords s retToKernel) mem

/-- `syscall_entry` up to the call of `syscall_dispatch`. -/
def syscallEntry : List (Instr Glob) :=
  [.store .syscallUserRspStash .rsp,
    .load .r14 .currentKstackTop,
    .mov .rsp .r14,
    .pushGlob .syscallUserRspStash,
    .push .rcx,
    .push .r11,
    .push .rbx,
    .push .rbp,
    .push .r12,
    .push .r13,
    .push .r14,
    .push .r15,
    .sub .rsp 8,
    .mov .r9 .rax,
    .mov .r8 .rdi,
    .mov .r10 .rsi,
    .mov .r11 .rdx,
    .mov .rdi .r9,
    .mov .rsi .r8,
    .mov .rdx .r10,
    .mov .rcx .r11]

/-- `syscall_entry` between the return of `syscall_dispatch` and the call of
`syscall_tail`. -/
def syscallEntryTail : List (Instr Glob) := [.mov .rdi .rax, .mov .rsi .rsp]

/-- `syscall_user_return` up to `sysretq`. -/
def syscallUserReturn : List (Instr Glob) :=
  [.add .rsp 8, .pop .r15, .pop .r14, .pop .r13, .pop .r12, .pop .rbp, .pop .rbx, .pop .r11,
    .pop .rcx, .pop .rsp]

/-- The registers a resumed user program sees: `rcx` is the next instruction
and `r11` the flags. -/
structure UserContext where
  rax : UInt64
  rsp : UInt64
  rcx : UInt64
  r11 : UInt64
  rbx : UInt64
  rbp : UInt64
  r12 : UInt64
  r13 : UInt64
  r14 : UInt64
  r15 : UInt64
  deriving DecidableEq, Repr

def userContext (reg : Reg → UInt64) : UserContext :=
  ⟨reg .rax, reg .rsp, reg .rcx, reg .r11, reg .rbx, reg .rbp, reg .r12, reg .r13, reg .r14,
    reg .r15⟩

/-- The last instructions of `pick_next_and_restore` and the return stub. -/
def resume (m : Machine Glob) (top rax retToKernel : UInt64) (s : SyscallSaved) : UserContext :=
  let m₁ := { m with mem := restoreToKstack top s retToKernel m.mem }
  let m₂ := (m₁.setReg .rsp (top - 88)).setReg .rax rax
  userContext (run m₂ syscallUserReturn).reg

/-! ## What the entry stub leaves behind -/

/-- The words the entry stub pushes, first push first. The eighth should be the
user's `r14`, which the stub has overwritten with the stack top by then. -/
def pushedWords (m : Machine Glob) : List UInt64 :=
  [m.reg .rsp, m.reg .rcx, m.reg .r11, m.reg .rbx, m.reg .rbp, m.reg .r12, m.reg .r13,
    m.glob .currentKstackTop, m.reg .r15]

theorem syscallEntry_mem (m : Machine Glob) : (run m syscallEntry).mem =
    (pushAll (m.setReg .rsp (m.glob .currentKstackTop)) (pushedWords m)).mem := by
  simp [syscallEntry, exec, pushAll, pushedWords]

theorem syscallEntry_rsp (m : Machine Glob) :
    (run m syscallEntry).reg .rsp = slot (m.glob .currentKstackTop) 10 := by
  have hpush : (run m syscallEntry).reg .rsp =
      (pushAll (m.setReg .rsp (m.glob .currentKstackTop)) (pushedWords m)).reg .rsp - 8 := by
    simp [syscallEntry, exec, pushAll, pushedWords]
  rw [hpush, pushAll_rsp _ (m.glob .currentKstackTop) 0 _ (by simp [Machine.setReg])]
  exact slot_sub _ 9

/-- Number and arguments arrive in the C argument registers. -/
theorem syscallEntry_args (m : Machine Glob) :
    (run m syscallEntry).reg .rdi = m.reg .rax ∧ (run m syscallEntry).reg .rsi = m.reg .rdi ∧
    (run m syscallEntry).reg .rdx = m.reg .rsi ∧ (run m syscallEntry).reg .rcx = m.reg .rdx :=
  by simp [syscallEntry, exec]

/-- The frame, slot by slot; slot 0 lies above the pushes and is untouched. -/
theorem syscallEntry_slot (m : Machine Glob) {j : ℕ} (hj : j ≤ 10) :
    (run m syscallEntry).mem (slot (m.glob .currentKstackTop) j) =
      (m.mem (m.glob .currentKstackTop) :: pushedWords m).getD j
        (m.mem (slot (m.glob .currentKstackTop) j)) := by
  rw [syscallEntry_mem, pushAll_mem _ (m.glob .currentKstackTop) 0 (pushedWords m)
    (by simp [Machine.setReg]) (by simp [pushedWords]) j (by omega)]
  cases j with
  | zero => simp [Machine.setReg]
  | succ j => simp [Machine.setReg]

theorem syscallEntry_pushed (m : Machine Glob) {i : ℕ} (hi : i < (pushedWords m).length) :
    (run m syscallEntry).mem (slot (m.glob .currentKstackTop) (i + 1)) = (pushedWords m)[i] := by
  have hlen : (pushedWords m).length = 9 := rfl
  rw [syscallEntry_slot m (by omega), List.getD_cons_succ, List.getD_eq_getElem?_getD,
    List.getElem?_eq_getElem hi, Option.getD_some]

/-- `syscall_dispatch` has returned to the stub that was entered in `m`. The stack
pointer and the pushed words are as the stub left them; the dispatcher may have
changed everything else. -/
structure Returned (m m₁ : Machine Glob) : Prop where
  rsp : m₁.reg .rsp = (run m syscallEntry).reg .rsp
  frame : ∀ j, 1 ≤ j → j ≤ 9 → m₁.mem (slot (m.glob .currentKstackTop) j) =
    (run m syscallEntry).mem (slot (m.glob .currentKstackTop) j)

theorem Returned.refl (m : Machine Glob) : Returned m (run m syscallEntry) :=
  ⟨rfl, fun _ _ _ => rfl⟩

/-- The tail finds the pushed words, and above them the word past the stack. -/
theorem Returned.word {m m₁ : Machine Glob} (h : Returned m m₁) {k : ℕ} (hk : 1 ≤ k)
    (hk' : k ≤ 10) : m₁.mem (wordPtr (m₁.reg .rsp) k) =
      (m₁.mem (m.glob .currentKstackTop) :: pushedWords m).getD (10 - k)
        (m.mem (slot (m.glob .currentKstackTop) (10 - k))) := by
  rw [h.rsp, syscallEntry_rsp, wordPtr_slot _ hk']
  by_cases htop : k = 10
  · simp [htop]
  · rw [h.frame _ (by omega) (by omega), syscallEntry_slot m (by omega)]
    have hpushed : 10 - k = (9 - k) + 1 := by omega
    rw [hpushed, List.getD_cons_succ, List.getD_cons_succ]

/-- `syscall_tail` passes the stub's own stack pointer, one word above the one
that `save_from_dispatch_rsp` documents, so every field takes the register of
its lower neighbour and `user_rsp` the word past the stack. -/
theorem Returned.saved {m m₁ : Machine Glob} (h : Returned m m₁) :
    saveFromDispatchRsp m₁.mem (m₁.reg .rsp) =
      { userRsp := m₁.mem (m.glob .currentKstackTop), userRip := m.reg .rsp,
        userRflags := m.reg .rcx, rbx := m.reg .r11, rbp := m.reg .rbx, r12 := m.reg .rbp,
        r13 := m.reg .r12, r14 := m.reg .r13, r15 := m.glob .currentKstackTop } := by
  simp [saveFromDispatchRsp, h.word, pushedWords]

theorem saved_at_tail (m : Machine Glob) :
    saveFromDispatchRsp (run m syscallEntry).mem ((run m syscallEntry).reg .rsp) =
      { userRsp := m.mem (m.glob .currentKstackTop), userRip := m.reg .rsp,
        userRflags := m.reg .rcx, rbx := m.reg .r11, rbp := m.reg .rbx, r12 := m.reg .rbp,
        r13 := m.reg .r12, r14 := m.reg .r13, r15 := m.glob .currentKstackTop } := by
  have htop : (run m syscallEntry).mem (m.glob .currentKstackTop) =
      m.mem (m.glob .currentKstackTop) := by
    simpa using syscallEntry_slot m (Nat.zero_le 10)
  rw [(Returned.refl m).saved, htop]

/-- Through the documented pointer, one word lower, every field is the register
it is named after, except `r14`. -/
theorem saved_at_dispatch (m : Machine Glob) (ret : UInt64) :
    saveFromDispatchRsp (run m (syscallEntry ++ [.call ret])).mem
        (slot (m.glob .currentKstackTop) 11) =
      { userRsp := m.reg .rsp, userRip := m.reg .rcx, userRflags := m.reg .r11,
        rbx := m.reg .rbx, rbp := m.reg .rbp, r12 := m.reg .r12, r13 := m.reg .r13,
        r14 := m.glob .currentKstackTop, r15 := m.reg .r15 } := by
  have hcall : ∀ j, j ≤ 10 → (run m (syscallEntry ++ [.call ret])).mem
      (slot (m.glob .currentKstackTop) j) =
        (run m syscallEntry).mem (slot (m.glob .currentKstackTop) j) := by
    intro j hj
    rw [run_append, run_cons, run_nil]
    simp only [exec, Machine.pushWord, syscallEntry_rsp, slot_sub]
    rw [update_slot _ _ _ (by omega) (by omega), if_neg (by omega)]
  have hword : ∀ k, 1 ≤ k → k ≤ 11 → (run m (syscallEntry ++ [.call ret])).mem
      (wordPtr (slot (m.glob .currentKstackTop) 11) k) =
        (m.mem (m.glob .currentKstackTop) :: pushedWords m).getD (11 - k)
          (m.mem (slot (m.glob .currentKstackTop) (11 - k))) := by
    intro k hk₁ hk
    rw [wordPtr_slot _ hk, hcall _ (by omega), syscallEntry_slot m (by omega)]
  simp [saveFromDispatchRsp, hword, pushedWords]

/-! ## What the return stub loads -/

/-- The stub enters at the word that holds the return address and skips only
that one, so every register takes the field above the one that bears its name. -/
theorem resume_eq (m : Machine Glob) (top rax ret : UInt64) (s : SyscallSaved) :
    resume m top rax ret s =
      { rax := rax, rsp := s.userRip, rcx := s.userRflags, r11 := s.rbx, rbx := s.rbp,
        rbp := s.r12, r12 := s.r13, r13 := s.r14, r14 := s.r15, r15 := 0 } := by
  have hbase : top - 88 = slot top 11 := by simp [slot]
  have hword : ∀ j, j ≤ 11 → restoreToKstack top s ret m.mem (slot top j) =
      (restoreWords s ret).getD (11 - j) (m.mem (slot top j)) := by
    intro j hj
    rw [restoreToKstack, hbase]
    exact writeWords_slot top 11 _ _ (by omega) (by simp [restoreWords]) j hj
  simp only [resume, hbase, userContext, syscallUserReturn, run_cons, run_nil, exec,
    Machine.popWord, Machine.setReg, Function.update_apply, reduceCtorEq, if_true, if_false,
    slot_add]
  simp [hword, restoreWords]

/-- Entry, tail and resumption composed. Seven registers survive; `r14` comes
back as the kernel stack top of the entry and `r15` as zero. -/
theorem resume_saved_at_tail (m m' : Machine Glob) (top rax ret : UInt64) :
    resume m' top rax ret
        (saveFromDispatchRsp (run m syscallEntry).mem ((run m syscallEntry).reg .rsp)) =
      { userContext m.reg with rax := rax, r14 := m.glob .currentKstackTop, r15 := 0 } := by
  rw [resume_eq, saved_at_tail]
  rfl

end Rockos.SyscallFrame
