import Rockos.KernelStacks

/-!
# The fields of a saved context and the registers they name (task.rs, syscall.rs)

A `SyscallSaved` is filled from the frame of `syscall_entry` and emptied through
`syscall_user_return`. Code that builds a context by the names of its fields
relies on each half alone. Both halves are off by one word. The tail's pointer
is one word above the one that `save_from_dispatch_rsp` expects, so a field gets
what its lower neighbour should get, and `user_rsp` the word past the stack. The
return stub starts one word below the saved registers, so a register gets the
field of its upper neighbour, and `r15` the alignment pad.
-/
namespace Rockos.FrameNames
open StackMachine SyscallFrame KernelState Syscall RunQueue Turns KernelStacks

/-! ## Contexts as lists of words -/

/-- The fields, in the order of the structure and of the pushes. -/
def words (s : SyscallSaved) : List UInt64 :=
  [s.userRsp, s.userRip, s.userRflags, s.rbx, s.rbp, s.r12, s.r13, s.r14, s.r15]

theorem words_injective : Function.Injective words := by
  intro s s' h
  cases s
  cases s'
  simpa [words] using h

/-- Every register under the field that bears its name. -/
def byName (c : UserContext) : SyscallSaved :=
  ⟨c.rsp, c.rcx, c.r11, c.rbx, c.rbp, c.r12, c.r13, c.r14, c.r15⟩

/-- A list that is its own shift towards the front is constant. -/
theorem tail_append_eq_iff {α : Type} {l : List α} (x : α) (hl : l ≠ []) :
    l.tail ++ [x] = l ↔ ∀ y ∈ l, y = x := by
  induction l with
  | nil => exact absurd rfl hl
  | cons a l ih =>
      rw [List.tail_cons]
      cases l with
      | nil => simp [eq_comm]
      | cons b l =>
          have hrest := ih (List.cons_ne_nil b l)
          rw [List.tail_cons] at hrest
          rw [List.cons_append, List.cons.injEq, List.forall_mem_cons, ← hrest]
          constructor
          · intro h
            have hall := hrest.mp h.2
            exact ⟨h.1.symm.trans (hall b List.mem_cons_self), h.2⟩
          · intro h
            have hall := hrest.mp h.2
            exact ⟨(hall b List.mem_cons_self).trans h.1.symm, h.2⟩

theorem cons_dropLast_eq_iff {α : Type} {l : List α} (x : α) (hl : l ≠ []) :
    x :: l.dropLast = l ↔ ∀ y ∈ l, y = x := by
  have hrev : l.reverse ≠ [] := fun h => hl (List.reverse_eq_nil_iff.mp h)
  rw [← List.reverse_inj, List.reverse_cons, ← List.tail_reverse, tail_append_eq_iff x hrev]
  simp only [List.mem_reverse]

/-! ## Saving -/

/-- What `save_from_dispatch_rsp` reads through a pointer. -/
def savedFrom (p : UInt64) : List UInt64 := [10, 9, 8, 7, 6, 5, 4, 3, 2].map (wordPtr p)

theorem reads_saved_iff (p a : UInt64) :
    Reads (fun mem => saveFromDispatchRsp mem p) a ↔ a ∈ savedFrom p :=
  reads_iff_mem words_injective (fun _ => rfl) a

/-- The tail that is called in `tail`, for a system call entered in `m`, reads
the kernel stack only and finds every register of the user under its name. -/
structure SavesByName (m tail : Machine Glob) : Prop where
  inside : ∀ a, Reads (fun mem => saveFromDispatchRsp mem (tail.reg .rsi)) a →
    OnKstack (m.glob .currentKstackTop) a
  named : saveFromDispatchRsp tail.mem (tail.reg .rsi) = byName (userContext m.reg)

theorem top_not_onKstack (top : UInt64) : ¬OnKstack top top := by
  intro h
  obtain ⟨i, hi, hle, heq⟩ := h
  have hzero : slot top 0 = slot top i := by rwa [slot_zero]
  have := slot_inj top (by omega) (by omega) hzero
  omega

section Saving
variable {m m₁ : Machine Glob}

theorem syscallEntryTail_rsi : (run m₁ syscallEntryTail).reg .rsi = m₁.reg .rsp := by
  simp [syscallEntryTail, exec]

theorem syscallEntryTail_mem : (run m₁ syscallEntryTail).mem = m₁.mem := by
  simp [syscallEntryTail, exec]

/-- The word at the top is the tenth above the tail's pointer. -/
theorem reads_top (h : Returned m m₁) :
    Reads (fun mem => saveFromDispatchRsp mem ((run m₁ syscallEntryTail).reg .rsi))
      (m.glob .currentKstackTop) := by
  rw [reads_saved_iff, syscallEntryTail_rsi, h.rsp, syscallEntry_rsp]
  apply List.mem_map.mpr
  refine ⟨10, List.mem_cons_self, ?_⟩
  rw [wordPtr_slot _ le_rfl, Nat.sub_self, slot_zero]

theorem not_savesByName (h : Returned m m₁) : ¬SavesByName m (run m₁ syscallEntryTail) :=
  fun hsaves => top_not_onKstack _ (hsaves.inside _ (reads_top h))

/-- The registers that the frame holds above `r15`. -/
def aboveR15 (reg : Reg → UInt64) : List UInt64 := (words (byName (userContext reg))).dropLast

/-- The words of the user, moved by one place; the last one is what the stub has
pushed for `r14`. -/
theorem words_saved (h : Returned m m₁) :
    words (saveFromDispatchRsp m₁.mem (m₁.reg .rsp)) =
      (m₁.mem (m.glob .currentKstackTop) :: (aboveR15 m.reg).dropLast) ++
        [m.glob .currentKstackTop] := by
  rw [h.saved]
  rfl

/-- The values of the fields are right only if the moved words happen to be equal. -/
theorem saved_named_iff (h : Returned m m₁) :
    saveFromDispatchRsp m₁.mem (m₁.reg .rsp) = byName (userContext m.reg) ↔
      (∀ w ∈ aboveR15 m.reg, w = m₁.mem (m.glob .currentKstackTop)) ∧
        m.reg .r15 = m.glob .currentKstackTop := by
  have hnamed : words (byName (userContext m.reg)) = aboveR15 m.reg ++ [m.reg .r15] := rfl
  have hne : aboveR15 m.reg ≠ [] := List.cons_ne_nil _ _
  rw [← words_injective.eq_iff, words_saved h, hnamed, List.append_singleton_inj,
    cons_dropLast_eq_iff _ hne, @eq_comm _ (m.reg .r15)]

end Saving

/-! ## Loading -/

/-- The return stub, entered where the scheduler enters it, loads every register
from the field that bears its name. -/
def LoadsByName (m : Machine Glob) (top rax ret : UInt64) (s : SyscallSaved) : Prop :=
  byName (resume m top rax ret s) = s

section Loading
variable (m : Machine Glob) (top rax ret : UInt64)

/-- The saved words, moved by one place the other way. -/
theorem words_resumed (s : SyscallSaved) :
    words (byName (resume m top rax ret s)) = (words s).tail ++ [0] := by
  rw [resume_eq]
  rfl

theorem loadsByName_iff (s : SyscallSaved) :
    LoadsByName m top rax ret s ↔ ∀ w ∈ words s, w = 0 := by
  rw [LoadsByName, ← words_injective.eq_iff, words_resumed]
  exact tail_append_eq_iff 0 (List.cons_ne_nil _ _)

/-- The context of a first process would enter its program only if program and
stack were at address zero. -/
theorem bootstrap_loads_iff (entry stackTop rflags : UInt64) :
    LoadsByName m top rax ret (bootstrapUser entry stackTop rflags) ↔
      stackTop = 0 ∧ entry = 0 ∧ rflags = 0 := by
  rw [loadsByName_iff]
  simp [words, bootstrapUser]

end Loading

/-! ## Both halves -/

/-- No system call is saved by name, because the word past the stack is read each
time. The values alone are right if `rsp` to `r14` all equal that word and `r15`
is the top of the stack; and a context is loaded by name if it is all zeros. -/
theorem saved_names_never (m m₁ m' : Machine Glob) (top rax ret : UInt64) (s : SyscallSaved)
    (h : Returned m m₁) :
    ¬SavesByName m (run m₁ syscallEntryTail) ∧
    (saveFromDispatchRsp (run m₁ syscallEntryTail).mem ((run m₁ syscallEntryTail).reg .rsi) =
        byName (userContext m.reg) ↔
      (∀ w ∈ aboveR15 m.reg, w = m₁.mem (m.glob .currentKstackTop)) ∧
        m.reg .r15 = m.glob .currentKstackTop) ∧
    (LoadsByName m' top rax ret s ↔ ∀ w ∈ words s, w = 0) := by
  refine ⟨not_savesByName h, ?_, loadsByName_iff m' top rax ret s⟩
  rw [syscallEntryTail_mem, syscallEntryTail_rsi]
  exact saved_named_iff h

/-- The first system call of the first process, a `fork`. -/
def forkEntry : Machine Glob := entryMachine started forkTrap forkTrap.kmem

theorem saved_names_never_fork :
    ¬SavesByName forkEntry (run (run forkEntry syscallEntry) syscallEntryTail) ∧
    LoadsByName forkEntry 0x444444448000 0 machine.syscallUserReturn (bootstrapUser 0 0 0) := by
  have hnever := saved_names_never forkEntry (run forkEntry syscallEntry) forkEntry 0x444444448000 0
    machine.syscallUserReturn (bootstrapUser 0 0 0) (Returned.refl forkEntry)
  have hzeros : ∀ w ∈ words (bootstrapUser 0 0 0), w = 0 := by simp [words, bootstrapUser]
  exact ⟨hnever.1, hnever.2.2.mpr hzeros⟩

/-- The tail saves the user's stack pointer as the address to return to; and the
context that `process::init` builds would return to its flags. -/
theorem saved_names_shifted :
    Reads (fun mem => saveFromDispatchRsp mem
        ((run (run forkEntry syscallEntry) syscallEntryTail).reg .rsi))
      (forkEntry.glob .currentKstackTop) ∧
    ¬OnKstack (forkEntry.glob .currentKstackTop) (forkEntry.glob .currentKstackTop) ∧
    forkEntry.reg .rcx = 0x400078 ∧
    (saveFromDispatchRsp (run forkEntry syscallEntry).mem
      ((run forkEntry syscallEntry).reg .rsp)).userRip = 0x401FF8 ∧
    (resume forkEntry 0x444444448000 0 machine.syscallUserReturn
      (bootstrapUser 0x400078 0x402000 0x202)).rcx = 0x202 := by
  refine ⟨reads_top (Returned.refl forkEntry), top_not_onKstack _, rfl, ?_, ?_⟩
  · rw [saved_at_tail]
    rfl
  · rw [resume_eq]
    rfl

/-! ## In a run -/

/-- The dispatcher of the model returns to the stub that called it. -/
theorem tail_returned (k : Kernel) (t : Trap) :
    Returned (entryMachine k t t.kmem) (run (entryMachine k t t.tailMem) syscallEntry) := by
  constructor
  · rw [syscallEntry_rsp, syscallEntry_rsp]
    rfl
  · intro j hj hle
    obtain ⟨i, rfl⟩ := Nat.exists_eq_add_of_le' hj
    have hkept := fun mem => @syscallEntry_pushed (entryMachine k t mem) i (Nat.lt_of_succ_le hle)
    exact (hkept t.tailMem).trans (hkept t.kmem).symm

/-- After a system call that does not exit, the entry of its caller in the table
names the registers of the call only by chance, in every reachable state. -/
theorem caller_entry_iff {cfg : Config} {k k' : Kernel} {t : Trap} {r : Resumed}
    (hk : Reachable cfg k) (hexit : sysno (t.reg .rax) ≠ some .exit)
    (hstep : step cfg (.syscall t) k = some (some r, k')) :
    ∃ p, k'.proc k.currentSlot = some p ∧ (p.save = byName (userContext t.reg) ↔
      (∀ w ∈ aboveR15 t.reg, w = t.tailMem k.currentKstackTop) ∧
        t.reg .r15 = k.currentKstackTop) := by
  obtain ⟨r', -, hsw⟩ := step_syscall (Reachable.ready hk) hstep
  obtain ⟨p, hp, -, hsave⟩ := hsw.own hexit
  have hiff := saved_named_iff (tail_returned k t)
  have htop : (run (entryMachine k t t.tailMem) syscallEntry).mem k.currentKstackTop =
      t.tailMem k.currentKstackTop := by
    simpa using syscallEntry_slot (entryMachine k t t.tailMem) (Nat.zero_le 10)
  rw [← hsave] at hiff
  simp only [entryMachine_reg, entryMachine_top, htop] at hiff
  exact ⟨p, hp, hiff⟩

end Rockos.FrameNames
