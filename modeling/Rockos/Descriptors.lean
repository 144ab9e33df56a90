import Rockos.MapEdits
import Rockos.SyscallEffects
import Rockos.UserMemory

/-!
# Descriptors as append-only logs (fs.rs)

The abstract model of the file layer is the history of what happened to the
descriptors: opened, closed, written to. A descriptor has a content if it was
opened and not closed since, and the content is what was written in between.
The counter and the map of fs.rs implement that history, whatever else goes on
in the kernel between two calls.
-/
namespace Rockos.Descriptors
open FallibleState Paging KernelState AddressSpace Syscall FrameSafety UserMemory MapEdits Runs
open ProcessCalls (isUtf8)

/-! ## Histories -/

inductive FdEvent where
  | opened (fd : UInt64)
  | closed (fd : UInt64)
  | wrote (fd : UInt64) (slice : List UInt8)
  deriving DecidableEq, Repr

/-- What an event does to the log of descriptor `n`. -/
def extendLog (n : UInt64) (log : Option (List UInt8)) : FdEvent → Option (List UInt8)
  | .opened fd => if fd = n then some [] else log
  | .closed fd => if fd = n then none else log
  | .wrote fd slice => if fd = n then log.map (· ++ slice) else log

/-- The map from descriptors to logs after a history. -/
def logs (h : List FdEvent) (n : UInt64) : Option (List UInt8) := h.foldl (extendLog n) none

def FdEvent.newFd : FdEvent → Option UInt64
  | .opened fd => some fd
  | .closed _ | .wrote _ _ => none

def FdEvent.sliceFor (n : UInt64) : FdEvent → Option (List UInt8)
  | .wrote fd slice => if fd = n then some slice else none
  | .opened _ | .closed _ => none

/-- The descriptors that were handed out, in order. -/
def descriptors (h : List FdEvent) : List UInt64 := h.filterMap FdEvent.newFd

/-- Since its last opening, `n` was not closed, and `data` was written to it. -/
def Holds (h : List FdEvent) (n : UInt64) (data : List UInt8) : Prop :=
  ∃ h₁ h₂, h = h₁ ++ .opened n :: h₂ ∧ .opened n ∉ h₂ ∧ .closed n ∉ h₂ ∧
    data = (h₂.filterMap (FdEvent.sliceFor n)).flatten

theorem logs_append (h : List FdEvent) (e : FdEvent) (n : UInt64) :
    logs (h ++ [e]) n = extendLog n (logs h n) e := by
  rw [logs, List.foldl_append]
  rfl

/-- Any event but an opening or closing extends the log by its slice. -/
theorem extendLog_other {n : UInt64} {e : FdEvent} (hopened : e ≠ .opened n)
    (hclosed : e ≠ .closed n) (log : Option (List UInt8)) :
    extendLog n log e = log.map (· ++ (e.sliceFor n).getD []) := by
  cases e with
  | opened fd =>
      have hne : fd ≠ n := fun heq => hopened (heq ▸ rfl)
      simp [extendLog, FdEvent.sliceFor, hne]
  | closed fd =>
      have hne : fd ≠ n := fun heq => hclosed (heq ▸ rfl)
      simp [extendLog, FdEvent.sliceFor, hne]
  | wrote fd slice =>
      by_cases heq : fd = n
      · simp [extendLog, FdEvent.sliceFor, heq]
      · simp [extendLog, FdEvent.sliceFor, heq]

theorem foldl_extendLog {n : UInt64} {h : List FdEvent} (hopened : .opened n ∉ h)
    (hclosed : .closed n ∉ h) (log : Option (List UInt8)) :
    h.foldl (extendLog n) log = log.map (· ++ (h.filterMap (FdEvent.sliceFor n)).flatten) := by
  induction h generalizing log with
  | nil => cases log <;> simp
  | cons e h ih =>
      rw [List.mem_cons, not_or] at hopened hclosed
      rw [List.foldl_cons, ih hopened.2 hclosed.2,
        extendLog_other (Ne.symm hopened.1) (Ne.symm hclosed.1), Option.map_map]
      cases hs : e.sliceFor n <;> simp [hs, Function.comp_def]

theorem Holds.append {h : List FdEvent} {n : UInt64} {data : List UInt8} (hd : Holds h n data)
    {e : FdEvent} (hopened : e ≠ .opened n) (hclosed : e ≠ .closed n) :
    Holds (h ++ [e]) n (data ++ (e.sliceFor n).getD []) := by
  obtain ⟨h₁, h₂, rfl, ho, hc, rfl⟩ := hd
  refine ⟨h₁, h₂ ++ [e], by simp, by simp [ho, hopened.symm], by simp [hc, hclosed.symm], ?_⟩
  cases hs : e.sliceFor n <;> simp [hs]

/-- The map says the same as the history. -/
theorem logs_eq_some_iff {h : List FdEvent} {n : UInt64} {data : List UInt8} :
    logs h n = some data ↔ Holds h n data := by
  constructor
  · intro hlog
    induction h using List.reverseRecOn generalizing data with
    | nil => cases hlog
    | append_singleton h e ih =>
        rw [logs_append] at hlog
        by_cases ho : e = .opened n
        · subst ho
          simp only [extendLog, if_true, Option.some.injEq] at hlog
          exact ⟨h, [], rfl, List.not_mem_nil, List.not_mem_nil, hlog.symm⟩
        by_cases hc : e = .closed n
        · simp [hc, extendLog] at hlog
        rw [extendLog_other ho hc] at hlog
        obtain ⟨old, hold, rfl⟩ := Option.map_eq_some_iff.mp hlog
        exact (ih hold).append ho hc
  · rintro ⟨h₁, h₂, rfl, ho, hc, rfl⟩
    rw [logs, List.foldl_append, List.foldl_cons, foldl_extendLog ho hc]
    simp [extendLog]

/-! ## The calls -/

inductive FdCall where
  | openPath (pathPtr : ℕ) (flags : UInt64)
  | close (fd : UInt64)
  | read (fd : UInt64) (buf len : ℕ)
  | write (fd : UInt64) (buf len : ℕ)
  deriving DecidableEq, Repr

/-- `write_fd_any` is called behind the checks of `sys_write`. -/
def FdCall.run : FdCall → KernelM UInt64
  | .openPath pathPtr flags => sysOpen pathPtr flags
  | .close fd => sysClose fd
  | .read fd buf len => sysRead fd buf len
  | .write fd buf len => sysWrite fd buf len

def FdCall.isOpen : FdCall → Bool
  | .openPath _ _ => true
  | .close _ | .read _ _ _ | .write _ _ _ => false

def sliceAt (m : Mem) (buf len : ℕ) : List UInt8 := (loadBytes m buf len).toOption.getD []

/-- What a call that returned `v` did. An `open` has handed out a descriptor if
the counter has moved; the other answers of `open` are error codes or 0. -/
def FdCall.event (k k' : Kernel) (v : UInt64) : FdCall → Option FdEvent
  | .openPath _ _ => if k'.fs.nextFd = k.fs.nextFd then none else some (.opened v)
  | .close fd => if v = 0 then some (.closed fd) else none
  | .read _ _ _ => none
  | .write fd buf len =>
      if 2 < fd ∧ len ≤ 8192 ∧ v = UInt64.ofNat len then some (.wrote fd (sliceAt k.mem buf len))
      else none

/-- One call that returns. Everything but the file table may have changed since
the last one. -/
def fdStep (i : Kernel × FdCall) (k : Kernel) :
    Option ((UInt64 × Option FdEvent) × Kernel) :=
  let before := { i.1 with fs := k.fs }
  (returned (i.2.run before)).map fun r => ((r.1, i.2.event before r.2 r.1), r.2)

def history (tr : List ((Kernel × FdCall) × UInt64 × Option FdEvent)) : List FdEvent :=
  tr.filterMap fun x => x.2.2

/-! ## What a call does to the file table -/

def SameFs (k k' : Kernel) : Prop := k'.fs = k.fs

instance : IsPreorder Kernel SameFs where
  refl _ := rfl
  trans _ _ _ h h' := h'.trans h

theorem takeIrqs_fs (irqs : List Irq) (k : Kernel) : (takeIrqs irqs k).fs = k.fs := by
  obtain ⟨_, _, _, hsame⟩ := takeIrqs_eq irqs k
  rw [hsame]

theorem onMem_fs {α : Type} (x : MemM α) : Within SameFs (onMem x) :=
  within_zoom_of_put x fun _ _ => rfl

theorem ttyRead_fs (buf len : ℕ) (nonblock : Bool) : Within SameFs (ttyRead buf len nonblock) := by
  refine within_bind within_get fun k => within_bind (within_modify _ fun _ => rfl) fun _ => ?_
  cases (k.tty.read len nonblock).1 with
  | error e => exact within_pure _
  | ok bytes => exact within_bind (onMem_fs _) fun _ => within_pure _

/-- No read changes a file. -/
theorem sysRead_fs (fd : UInt64) (buf len : ℕ) : Within SameFs (sysRead fd buf len) := by
  have hwait : SyscallEffects.AllowsIrqs SameFs := fun k irqs rest =>
    takeIrqs_fs irqs { k with waits := rest }
  refine within_ite (within_pure _) (within_bind within_get fun k => within_ite (within_pure _) ?_)
  refine within_ite (within_bind within_get fun k => within_ite ?_ ?_)
    (within_ite (within_pure _) ?_)
  · refine SyscallEffects.waitLoop_within hwait (within_bind (ttyRead_fs _ _ _) fun r => ?_)
    split <;> exact within_pure _
  · refine within_bind (ttyRead_fs _ _ _) fun r => ?_
    split <;> exact within_pure _
  · refine within_bind within_get fun k => ?_
    split
    · exact within_pure _
    · exact within_pure _
    · exact within_bind (onMem_fs _) fun _ => within_pure _

section
variable {k k' : Kernel} {v : UInt64}

/-- The table gets a new empty file under the number of the counter. -/
structure Issues (k : Kernel) (v : UInt64) (k' : Kernel) : Prop where
  fd : v = k.fs.nextFd
  next : k'.fs.nextFd = k.fs.nextFd + 1
  files : k'.fs.files = (v, []) :: k.fs.files.filter (·.1 ≠ v)

theorem openNew_issues (h : openNew k = .ok v k') : Issues k v k' := by
  simp only [openNew, bind_run, get_run, modify_run, pure_run, EStateM.Result.ok.injEq] at h
  obtain ⟨rfl, rfl⟩ := h
  exact ⟨rfl, rfl, rfl⟩

/-- The path that `sys_open` reads, up to the first zero byte. -/
def pathAt (k : Kernel) (pathPtr : ℕ) : Option (List UInt8) :=
  if userRegionIsReadableRange k pathPtr 128 then
    (loadBytes k.mem pathPtr 128).toOption.map fun bytes => bytes.takeWhile (· ≠ 0)
  else none

def OpensNull (k : Kernel) (pathPtr : ℕ) : Prop := pathAt k pathPtr = some (ascii "/dev/null")

/-- The paths for which `sys_open` hands out the next descriptor. -/
def takesDescriptor (fs : FileTable) (path : List UInt8) : Bool :=
  isUtf8 path && path != ascii "/dev/stdin" && path != ascii "/dev/tty" &&
    (path == ascii "/dev/null" || (path != [] && fs.files.length ≤ 64))

/-- The table of files and its counter are left alone. -/
def SameFiles (k k' : Kernel) : Prop :=
  k'.fs.files = k.fs.files ∧ k'.fs.nextFd = k.fs.nextFd

theorem sysOpen_of_unreadable {pathPtr : ℕ} (flags : UInt64)
    (h : userRegionIsReadableRange k pathPtr 128 = false) :
    sysOpen pathPtr flags k = .ok (errno 14) k := by
  simp [sysOpen, bind_run, h]

/-- A path that cannot be loaded faults, so a call that returns has loaded it. -/
theorem pathAt_of_returns {pathPtr : ℕ} {flags : UInt64}
    (hregion : userRegionIsReadableRange k pathPtr 128 = true)
    (h : sysOpen pathPtr flags k = .ok v k') : ∃ path, pathAt k pathPtr = some path := by
  simp only [sysOpen, bind_run, get_run, hregion, Bool.not_true, Bool.false_eq_true,
    if_false] at h
  obtain ⟨bytes, hbytes, -⟩ := inspect_bind_ok h
  rw [pathAt, if_pos hregion, hbytes]
  exact ⟨_, rfl⟩

/-- A path that could be read takes a descriptor or gets one of four answers. -/
theorem sysOpen_of_path {pathPtr : ℕ} (flags : UInt64) {path : List UInt8}
    (hpath : pathAt k pathPtr = some path) :
    (takesDescriptor k.fs path = true ∧ sysOpen pathPtr flags k = openNew k) ∨
    (takesDescriptor k.fs path = false ∧ ∃ v k', sysOpen pathPtr flags k = .ok v k' ∧
      v ∈ [errno 22, 0, errno 2, errno 24] ∧ SameFiles k k') := by
  unfold pathAt at hpath
  split_ifs at hpath with hregion
  obtain ⟨bytes, hbytes, rfl⟩ := Option.map_eq_some_iff.mp hpath
  have hload : inspect (fun k : Kernel => loadBytes k.mem pathPtr 128) k = .ok bytes k :=
    inspect_of_toOption hbytes
  rw [sysOpen, bind_run, get_run]
  simp only [hregion, Bool.not_true, Bool.false_eq_true, if_false]
  rw [bind_of_ok hload]
  generalize bytes.takeWhile (· ≠ 0) = path
  unfold takesDescriptor
  cases hutf : isUtf8 path with
  | false => exact .inr ⟨by simp, errno 22, k, by simp, by simp, rfl, rfl⟩
  | true =>
      simp only [Bool.not_true, Bool.false_eq_true, if_false, Bool.true_and]
      by_cases hstdin : path = ascii "/dev/stdin" ∨ path = ascii "/dev/tty"
      · refine .inr ⟨?_, 0, _, by rw [if_pos hstdin]; rfl, by simp, ?_⟩
        · cases hstdin with
          | inl h => simp [h]
          | inr h => simp [h]
        · exact ⟨rfl, rfl⟩
      rw [if_neg hstdin]
      have hother : (path != ascii "/dev/stdin" && path != ascii "/dev/tty") = true := by
        simpa [not_or] using hstdin
      rw [hother, Bool.true_and]
      by_cases hnull : path = ascii "/dev/null"
      · exact .inl ⟨by simp [hnull], by rw [if_pos hnull]⟩
      rw [if_neg hnull]
      by_cases hempty : path = []
      · exact .inr ⟨by simp [hempty, ascii], errno 2, k, by rw [if_pos hempty]; rfl, by simp, rfl,
          rfl⟩
      rw [if_neg hempty, bind_run, get_run]
      by_cases hfull : k.fs.files.length > 64
      · exact .inr ⟨by simp [hnull, hfull], errno 24, k, by simp [hfull], by simp, rfl, rfl⟩
      · have hroom : k.fs.files.length ≤ 64 := Nat.not_lt.mp hfull
        exact .inl ⟨by simp [hempty, hroom], by simp only [hfull, if_false]⟩

theorem takesDescriptor_null (fs : FileTable) : takesDescriptor fs (ascii "/dev/null") = true := by
  have hutf : isUtf8 (ascii "/dev/null") = true := by decide +kernel
  have hname : (ascii "/dev/null" != ascii "/dev/stdin" &&
      ascii "/dev/null" != ascii "/dev/tty") = true := by decide
  rw [takesDescriptor, hutf, Bool.true_and, hname]
  simp

theorem takesDescriptor_room {fs : FileTable} {path : List UInt8}
    (h : takesDescriptor fs path = true) :
    path = ascii "/dev/null" ∨ fs.files.length ≤ 64 := by
  simp only [takesDescriptor, Bool.and_eq_true, Bool.or_eq_true, beq_iff_eq,
    decide_eq_true_eq] at h
  exact h.2.imp_right And.right

/-- The answers of an `open` that hands out no descriptor. -/
def openAnswers : List UInt64 := [0, errno 2, errno 14, errno 22, errno 24]

/-- A descriptor is handed out for `/dev/null` in any case, and for another path
only below the limit. -/
theorem sysOpen_cases {pathPtr : ℕ} {flags : UInt64} (h : sysOpen pathPtr flags k = .ok v k') :
    (SameFiles k k' ∧ v ∈ openAnswers ∧ ¬OpensNull k pathPtr) ∨
    (Issues k v k' ∧ (OpensNull k pathPtr ∨ k.fs.files.length ≤ 64)) := by
  cases hregion : userRegionIsReadableRange k pathPtr 128 with
  | false =>
      rw [sysOpen_of_unreadable flags hregion] at h
      obtain ⟨rfl, rfl⟩ := EStateM.Result.ok.inj h
      exact .inl ⟨⟨rfl, rfl⟩, by decide, by simp [OpensNull, pathAt, hregion]⟩
  | true =>
      obtain ⟨path, hpath⟩ := pathAt_of_returns hregion h
      rw [OpensNull, hpath, Option.some.injEq]
      cases sysOpen_of_path flags hpath with
      | inl hnew =>
          rw [hnew.2] at h
          exact .inr ⟨openNew_issues h, takesDescriptor_room hnew.1⟩
      | inr hother =>
          obtain ⟨htakes, v', k₁, hrun, hanswer, hsame⟩ := hother
          obtain ⟨rfl, rfl⟩ := EStateM.Result.ok.inj (hrun.symm.trans h)
          have hlist : ∀ x ∈ [errno 22, 0, errno 2, errno 24], x ∈ openAnswers := by
            simp [openAnswers]
          refine .inl ⟨hsame, hlist _ hanswer, ?_⟩
          rintro rfl
          rw [takesDescriptor_null] at htakes
          cases htakes

theorem sysClose_cases {fd : UInt64} (h : sysClose fd k = .ok v k') :
    (v = errno 9 ∧ k' = k) ∨
    (v = 0 ∧ k'.fs = { k.fs with files := k.fs.files.filter (·.1 ≠ fd) }) := by
  unfold sysClose at h
  split_ifs at h with hlow
  · exact .inl ⟨(EStateM.Result.ok.inj h).1.symm, (EStateM.Result.ok.inj h).2.symm⟩
  simp only [bind_run, get_run] at h
  split_ifs at h with hnone
  · exact .inl ⟨(EStateM.Result.ok.inj h).1.symm, (EStateM.Result.ok.inj h).2.symm⟩
  · obtain ⟨rfl, rfl⟩ := EStateM.Result.ok.inj h
    exact .inr ⟨rfl, rfl⟩

theorem errno_ne_ofNat {n len : ℕ} (hn : 0 < n) (hn' : n < 4096) (hlen : len ≤ 8192) :
    errno n ≠ UInt64.ofNat len := by
  intro heq
  have hnat := congrArg UInt64.toNat heq
  simp only [errno, UInt64.toNat_ofNat'] at hnat
  omega

/-- A slice of user memory is appended to one file. -/
structure Appends (k : Kernel) (fd : UInt64) (slice : List UInt8) (k' : Kernel) : Prop where
  isOpen : (k.fs.files.lookup fd).isSome
  next : k'.fs.nextFd = k.fs.nextFd
  files : k'.fs.files = k.fs.files.map fun f => if f.1 = fd then (fd, f.2 ++ slice) else f

theorem sysWrite_cases {fd : UInt64} {buf len : ℕ} (h : sysWrite fd buf len k = .ok v k') :
    (k' = k ∧ (2 < fd → len ≤ 8192 → v ≠ UInt64.ofNat len) ∧
      (2 < fd → len ≤ 8192 → userRegionIsReadableRange k buf len = true →
        v = errno 9 ∧ k.fs.files.lookup fd = none)) ∨
    (2 < fd ∧ len ≤ 8192 ∧ v = UInt64.ofNat len ∧
      ∃ slice, loadBytes k.mem buf len = .ok slice ∧ Appends k fd slice k') := by
  unfold sysWrite at h
  split_ifs at h with hlen
  · obtain ⟨rfl, rfl⟩ := EStateM.Result.ok.inj h
    exact .inl ⟨rfl, fun _ h' => by omega, fun _ h' => by omega⟩
  simp only [bind_run, get_run] at h
  split_ifs at h with hregion
  · obtain ⟨rfl, rfl⟩ := EStateM.Result.ok.inj h
    refine .inl ⟨rfl, fun _ hle => errno_ne_ofNat (by decide) (by decide) hle, ?_⟩
    intro _ _ hreadable
    simp [hreadable] at hregion
  unfold writeFdAny at h
  split_ifs at h with hserial hfile
  · obtain ⟨bytes, -, h⟩ := inspect_bind_ok h
    obtain ⟨rfl, rfl⟩ := EStateM.Result.ok.inj h
    have hlow : ¬ 2 < fd := by
      rcases hserial with rfl | rfl <;> decide
    exact .inl ⟨rfl, fun h' => absurd h' hlow, fun h' => absurd h' hlow⟩
  · simp only [bind_run, get_run] at h
    cases hlook : k.fs.files.lookup fd with
    | none =>
        simp only [hlook, pure_run, EStateM.Result.ok.injEq] at h
        obtain ⟨rfl, rfl⟩ := h
        exact .inl ⟨rfl, fun _ hle => errno_ne_ofNat (by decide) (by decide) hle,
          fun _ _ _ => ⟨rfl, rfl⟩⟩
    | some data =>
        simp only [hlook] at h
        obtain ⟨slice, hslice, h⟩ := inspect_bind_ok h
        simp only [bind_run, modify_run, pure_run, EStateM.Result.ok.injEq] at h
        obtain ⟨rfl, rfl⟩ := h
        exact .inr ⟨hfile, by omega, rfl, slice, hslice, by simp [hlook], rfl, rfl⟩
  · obtain ⟨rfl, rfl⟩ := EStateM.Result.ok.inj h
    exact .inl ⟨rfl, fun h' => absurd h' hfile, fun h' => absurd h' hfile⟩

end

/-! ## Refinement -/

/-- The table holds the logs of the history, and the counter the number of
descriptors that were handed out: 4, 5, 6, … -/
structure Refines (h : List FdEvent) (fs : FileTable) : Prop where
  logs : ∀ n, fs.files.lookup n = logs h n
  issued : (descriptors h).map UInt64.toNat = List.range' 4 (descriptors h).length
  next : fs.nextFd.toNat = 4 + (descriptors h).length

theorem descriptors_append (h : List FdEvent) (e : FdEvent) :
    descriptors (h ++ [e]) = descriptors h ++ e.newFd.toList := by
  simp only [descriptors, List.filterMap_append]
  cases he : e.newFd <;> simp [he]

section
variable {h : List FdEvent} {k k' : Kernel} {v fd : UInt64}

/-- A call that is not recorded has left the table alone. -/
theorem Refines.quiet (hr : Refines h k.fs) (hfiles : k'.fs.files = k.fs.files)
    (hnext : k'.fs.nextFd = k.fs.nextFd) : Refines (h ++ (none : Option FdEvent).toList) k'.fs := by
  rw [Option.toList_none, List.append_nil]
  exact ⟨fun n => by rw [hfiles, hr.logs], hr.issued, by rw [hnext, hr.next]⟩

theorem Refines.opened (hr : Refines h k.fs) (hbound : (descriptors h).length + 1 < 2 ^ 64 - 4)
    (hi : Issues k v k') : Refines (h ++ [.opened v]) k'.fs := by
  have hdesc : descriptors (h ++ [.opened v]) = descriptors h ++ [v] := descriptors_append h _
  refine ⟨fun n => ?_, ?_, ?_⟩
  · rw [hi.files, lookup_cons_eq, lookup_filter_ne, logs_append, ← hr.logs, extendLog]
    by_cases hn : n = v
    · rw [if_pos hn, if_pos hn.symm]
    · rw [if_neg hn, if_neg hn, if_neg (Ne.symm hn)]
  · rw [hdesc, List.map_append, hr.issued, List.length_append, List.length_singleton,
      List.range'_concat, Nat.one_mul]
    simp [hi.fd, hr.next]
  · rw [hi.next, hdesc, List.length_append, List.length_singleton, UInt64.toNat_add, hr.next]
    simp only [UInt64.reduceToNat, Nat.reducePow]
    omega

theorem Refines.closed (hr : Refines h k.fs)
    (hclose : k'.fs = { k.fs with files := k.fs.files.filter (·.1 ≠ fd) }) :
    Refines (h ++ [.closed fd]) k'.fs := by
  have hdesc : descriptors (h ++ [.closed fd]) = descriptors h := by
    simp [descriptors_append, FdEvent.newFd]
  refine ⟨fun n => ?_, by rw [hdesc]; exact hr.issued, by rw [hdesc, hclose]; exact hr.next⟩
  rw [hclose, lookup_filter_ne, logs_append, ← hr.logs, extendLog]
  exact if_congr eq_comm rfl rfl

theorem Refines.wrote (hr : Refines h k.fs) {slice : List UInt8} (ha : Appends k fd slice k') :
    Refines (h ++ [.wrote fd slice]) k'.fs := by
  have hdesc : descriptors (h ++ [.wrote fd slice]) = descriptors h := by
    simp [descriptors_append, FdEvent.newFd]
  refine ⟨fun n => ?_, by rw [hdesc]; exact hr.issued, by rw [hdesc, ha.next]; exact hr.next⟩
  rw [ha.files, lookup_map_at _ _ _ (· ++ slice), logs_append, ← hr.logs, extendLog]
  exact if_congr eq_comm rfl rfl

theorem Refines.step {c : FdCall} (hr : Refines h k.fs)
    (hbound : c.isOpen = true → (descriptors h).length + 1 < 2 ^ 64 - 4)
    (hrun : c.run k = .ok v k') : Refines (h ++ (c.event k k' v).toList) k'.fs := by
  cases c with
  | openPath pathPtr flags =>
      rcases sysOpen_cases hrun with ⟨⟨hfiles, hnext⟩, -⟩ | ⟨hi, -⟩
      · rw [FdCall.event, if_pos hnext]
        exact hr.quiet hfiles hnext
      · have hmoved : k'.fs.nextFd ≠ k.fs.nextFd := by
          rw [hi.next]
          simp
        rw [FdCall.event, if_neg hmoved]
        exact hr.opened (hbound rfl) hi
  | close fd =>
      rcases sysClose_cases hrun with ⟨rfl, rfl⟩ | ⟨rfl, hclose⟩
      · exact hr.quiet rfl rfl
      · exact hr.closed hclose
  | read fd buf len =>
      have hfs : k'.fs = k.fs := (sysRead_fs fd buf len).ok hrun
      exact hr.quiet (by rw [hfs]) (by rw [hfs])
  | write fd buf len =>
      rcases sysWrite_cases hrun with ⟨rfl, hv, -⟩ | ⟨hfd, hlen, hv, slice, hslice, ha⟩
      · rw [FdCall.event, if_neg fun hw => hv hw.1 hw.2.1 hw.2.2]
        exact hr.quiet rfl rfl
      · have hread : sliceAt k.mem buf len = slice := by
          rw [sliceAt, hslice]
          rfl
        rw [FdCall.event, if_pos ⟨hfd, hlen, hv⟩, hread]
        exact hr.wrote ha

end

theorem fdStep_ok {i : Kernel × FdCall} {k k' : Kernel} {o : UInt64 × Option FdEvent}
    (h : fdStep i k = some (o, k')) : i.2.run { i.1 with fs := k.fs } = .ok o.1 k' ∧
      o.2 = i.2.event { i.1 with fs := k.fs } k' o.1 := by
  obtain ⟨v, t, hrun, heq⟩ := ok_of_returned h
  simp only [Prod.mk.injEq] at heq
  obtain ⟨rfl, rfl⟩ := heq
  exact ⟨hrun, rfl⟩

/-- Every call hands out one descriptor at most. -/
theorem descriptors_event (h : List FdEvent) (k k' : Kernel) (v : UInt64) (c : FdCall) :
    (descriptors (h ++ (c.event k k' v).toList)).length ≤
      (descriptors h).length + if c.isOpen then 1 else 0 := by
  cases c with
  | openPath pathPtr flags =>
      by_cases hmoved : k'.fs.nextFd = k.fs.nextFd <;>
        simp [FdCall.event, hmoved, descriptors, FdEvent.newFd, FdCall.isOpen]
  | close fd =>
      by_cases hv : v = 0 <;>
        simp [FdCall.event, hv, descriptors, List.filterMap_cons, FdEvent.newFd]
  | read fd buf len => simp [FdCall.event]
  | write fd buf len =>
      by_cases hv : 2 < fd ∧ len ≤ 8192 ∧ v = UInt64.ofNat len <;>
        simp [FdCall.event, hv, descriptors, List.filterMap_cons, FdEvent.newFd]

def opens (tr : List ((Kernel × FdCall) × UInt64 × Option FdEvent)) : ℕ :=
  tr.countP fun x => x.1.2.isOpen

theorem run_refines {k k' : Kernel} {tr : List ((Kernel × FdCall) × UInt64 × Option FdEvent)}
    (hrun : Run fdStep k tr k') {h : List FdEvent} (hr : Refines h k.fs)
    (hbound : (descriptors h).length + opens tr < 2 ^ 64 - 4) :
    Refines (h ++ history tr) k'.fs := by
  induction hrun generalizing h with
  | done k => simpa [history] using hr
  | @step s t u i o tr hstep _ ih =>
      obtain ⟨hcall, hevent⟩ := fdStep_ok hstep
      have hopens : opens ((i, o) :: tr) = opens tr + if i.2.isOpen then 1 else 0 :=
        List.countP_cons ..
      have hlen := descriptors_event h { i.1 with fs := s.fs } t o.1 i.2
      have hnext : Refines (h ++ o.2.toList) t.fs := by
        rw [hevent]
        refine Refines.step (k := { i.1 with fs := s.fs }) hr (fun hopen => ?_) hcall
        rw [if_pos hopen] at hopens
        omega
      have hall := ih hnext (by rw [hevent]; omega)
      have hhist : history ((i, o) :: tr) = o.2.toList ++ history tr := by
        unfold history
        cases ho : o.2 <;> simp [ho]
      rwa [hhist, ← List.append_assoc]

/-! ## The answers -/

/-- The next call is answered from the history. Buffers are those that pass the
checks of the length and the region. -/
structure Serves (h : List FdEvent) (k : Kernel) : Prop where
  contents : ∀ n data, k.fs.files.lookup n = some data ↔ Holds h n data
  opened : ∀ pathPtr flags v k', sysOpen pathPtr flags k = .ok v k' →
    (k'.fs.nextFd = k.fs.nextFd → v ∈ openAnswers ∧ k'.fs.files = k.fs.files) ∧
    (k'.fs.nextFd ≠ k.fs.nextFd →
      3 < v ∧ v ∉ descriptors h ∧ k'.fs.files.lookup v = some [])
  read : ∀ n buf len v k', 2 < n → len ≤ 8192 → userRegionIsWritableRange k buf len = true →
    sysRead n buf len k = .ok v k' → k'.fs = k.fs ∧
      ((∀ data, ¬ Holds h n data) → v = errno 9) ∧ (Holds h n [] → v = errno 11) ∧
      ∀ data, data ≠ [] → Holds h n data → v = UInt64.ofNat (min len data.length) ∧
        (FrameSafe k.mem → ∀ a, userByte k'.mem a =
          if buf ≤ a ∧ a < buf + min len data.length then data[a - buf]? else userByte k.mem a)
  write : ∀ n buf len v k', 2 < n → len ≤ 8192 → userRegionIsReadableRange k buf len = true →
    sysWrite n buf len k = .ok v k' →
      ((∀ data, ¬ Holds h n data) → v = errno 9 ∧ k'.fs = k.fs) ∧
      ∀ data, Holds h n data → v = UInt64.ofNat len ∧
        ∃ slice, slice.length = len ∧ (∀ j < len, userByte k.mem (buf + j) = slice[j]?) ∧
          k'.fs.files.lookup n = some (data ++ slice)
  isolated : ∀ (c : FdCall) v k' n data, c.run k = .ok v k' → Holds h n data →
    c ≠ .close n → (∀ buf len, c ≠ .write n buf len) → k'.fs.files.lookup n = some data
  read_returns : ∀ n buf len, 2 < n →
    (∀ j < len, ∃ e, k.mem.pt.entries (pageOf (buf + j)) = some e ∧ e.flags.writable = true) →
    ∃ v k', sysRead n buf len k = .ok v k'
  write_returns : ∀ n buf len, 2 < n → (∀ j < len, (userByte k.mem (buf + j)).isSome) →
    ∃ v k', sysWrite n buf len k = .ok v k'

section
variable {h : List FdEvent} {k : Kernel}

theorem Refines.holds_iff (hr : Refines h k.fs) (n : UInt64) (data : List UInt8) :
    k.fs.files.lookup n = some data ↔ Holds h n data := by
  rw [hr.logs, logs_eq_some_iff]

theorem sysRead_file {n : UInt64} {buf len : ℕ} (hn : 2 < n) (hlen : len ≤ 8192)
    (hregion : userRegionIsWritableRange k buf len = true) :
    sysRead n buf len k = readFile n buf len k := by
  have h₀ : n ≠ 0 := by rintro rfl; exact absurd hn (by decide)
  have h₁ : ¬ (n = 1 ∨ n = 2) := by rintro (rfl | rfl) <;> exact absurd hn (by decide)
  simp [sysRead, bind_run, hregion, h₀, h₁, show ¬ len > 8192 by omega]

theorem readFile_of_none {n : UInt64} {buf len : ℕ} (hnone : k.fs.files.lookup n = none) :
    readFile n buf len k = .ok (errno 9) k := by
  simp [readFile, bind_run, hnone]

theorem readFile_of_empty {n : UInt64} {buf len : ℕ} (hempty : k.fs.files.lookup n = some []) :
    readFile n buf len k = .ok (errno 11) k := by
  simp [readFile, bind_run, hempty]

theorem readFile_of_data {n : UInt64} {buf len : ℕ} {data : List UInt8} (hne : data ≠ [])
    (hdata : k.fs.files.lookup n = some data) :
    readFile n buf len k = (do
      onMem (storeBytes buf (data.take len))
      pure (UInt64.ofNat (min data.length len)) : KernelM UInt64) k := by
  cases data with
  | nil => exact absurd rfl hne
  | cons b bs => simp only [readFile, bind_run, get_run, hdata]

theorem Holds.mem_descriptors {n : UInt64} {data : List UInt8} (hd : Holds h n data) :
    n ∈ descriptors h := by
  obtain ⟨h₁, h₂, rfl, -⟩ := hd
  exact List.mem_filterMap.mpr ⟨.opened n, by simp, rfl⟩

/-- The descriptors that were handed out lie below the counter. -/
theorem Refines.bounds (hr : Refines h k.fs) {n : UInt64} (hn : n ∈ descriptors h) :
    3 < n ∧ n < k.fs.nextFd := by
  have hmem : n.toNat ∈ (descriptors h).map UInt64.toNat := List.mem_map_of_mem hn
  rw [hr.issued, List.mem_range'_1] at hmem
  constructor
  · exact UInt64.lt_iff_toNat_lt.mpr hmem.1
  · rw [UInt64.lt_iff_toNat_lt, hr.next]
    exact hmem.2

theorem Refines.nodup (hr : Refines h k.fs) : (descriptors h).Nodup :=
  List.Nodup.of_map UInt64.toNat (by rw [hr.issued]; exact List.nodup_range')

theorem sysRead_returns {n : UInt64} {buf len : ℕ} (hn : 2 < n) (hmapped : ∀ j < len, ∃ e,
    k.mem.pt.entries (pageOf (buf + j)) = some e ∧ e.flags.writable = true) :
    ∃ v k', sysRead n buf len k = .ok v k' := by
  by_cases hlen : len ≤ 8192
  swap
  · exact ⟨errno 22, k, by simp [sysRead, show len > 8192 by omega]⟩
  cases hregion : userRegionIsWritableRange k buf len with
  | false =>
      exact ⟨errno 14, k, by simp [sysRead, bind_run, hregion, show ¬ len > 8192 by omega]⟩
  | true =>
      rw [sysRead_file hn hlen hregion]
      cases hlook : k.fs.files.lookup n with
      | none => exact ⟨_, _, readFile_of_none hlook⟩
      | some data =>
          by_cases hempty : data = []
          · subst hempty
            exact ⟨_, _, readFile_of_empty hlook⟩
          · obtain ⟨m, hm⟩ := @storeBytes_returns k.mem buf (data.take len) fun j hj =>
              hmapped j (by rw [List.length_take] at hj; omega)
            have hstore : onMem (storeBytes buf (data.take len)) k = .ok () (setMem m k) := by
              rw [onMem, zoom, hm]
            rw [readFile_of_data hempty hlook, bind_of_ok hstore]
            exact ⟨_, _, rfl⟩

theorem sysWrite_returns {n : UInt64} {buf len : ℕ} (hn : 2 < n)
    (hmapped : ∀ j < len, (userByte k.mem (buf + j)).isSome) :
    ∃ v k', sysWrite n buf len k = .ok v k' := by
  obtain ⟨slice, hslice⟩ := loadBytes_returns hmapped
  have hload : inspect (fun k => loadBytes k.mem buf len) k = .ok slice k := by
    rw [inspect, hslice]
  unfold sysWrite
  split_ifs with hlen
  · exact ⟨_, _, rfl⟩
  simp only [bind_run, get_run]
  split_ifs with hregion
  · exact ⟨_, _, rfl⟩
  unfold writeFdAny
  split_ifs with hserial
  · rw [bind_of_ok hload]
    exact ⟨_, _, rfl⟩
  · simp only [bind_run, get_run]
    cases k.fs.files.lookup n with
    | none => exact ⟨_, _, rfl⟩
    | some data =>
        simp only [hload, bind_run]
        exact ⟨_, _, rfl⟩

theorem Refines.read (hr : Refines h k.fs) {n : UInt64} {buf len : ℕ} {v : UInt64} {k' : Kernel}
    (hrun : readFile n buf len k = .ok v k') :
    ((∀ data, ¬ Holds h n data) → v = errno 9) ∧ (Holds h n [] → v = errno 11) ∧
      ∀ data, data ≠ [] → Holds h n data → v = UInt64.ofNat (min len data.length) ∧
        (FrameSafe k.mem → ∀ a, userByte k'.mem a =
          if buf ≤ a ∧ a < buf + min len data.length then data[a - buf]?
          else userByte k.mem a) := by
  refine ⟨fun hnone => ?_, fun hempty => ?_, fun data hne hdata => ?_⟩
  · have hlook : k.fs.files.lookup n = none := by
      cases hl : k.fs.files.lookup n with
      | none => rfl
      | some data => exact absurd ((hr.holds_iff n data).mp hl) (hnone data)
    rw [readFile_of_none hlook] at hrun
    exact (EStateM.Result.ok.inj hrun).1.symm
  · rw [readFile_of_empty ((hr.holds_iff n []).mpr hempty)] at hrun
    exact (EStateM.Result.ok.inj hrun).1.symm
  · rw [readFile_of_data hne ((hr.holds_iff n data).mpr hdata)] at hrun
    obtain ⟨_, t, hstore, hret⟩ := bind_ok hrun
    obtain ⟨rfl, rfl⟩ := EStateM.Result.ok.inj hret
    refine ⟨by rw [min_comm], fun hsafe a => ?_⟩
    have hmem : storeBytes buf (data.take len) k.mem = .ok () t.mem := by
      unfold onMem zoom at hstore
      cases hs : storeBytes buf (data.take len) k.mem with
      | error e m => simp [hs] at hstore
      | ok u m =>
          simp only [hs, EStateM.Result.ok.injEq] at hstore
          rw [← hstore.2]
          rfl
    rw [storeBytes_ok hsafe hmem a, List.length_take]
    by_cases hin : buf ≤ a ∧ a < buf + min len data.length
    · rw [if_pos hin, if_pos hin, List.getElem?_take_of_lt (by omega)]
    · rw [if_neg hin, if_neg hin]

theorem Refines.write (hr : Refines h k.fs) {n : UInt64} {buf len : ℕ} {v : UInt64} {k' : Kernel}
    (hn : 2 < n) (hlen : len ≤ 8192) (hregion : userRegionIsReadableRange k buf len = true)
    (hrun : sysWrite n buf len k = .ok v k') :
    ((∀ data, ¬ Holds h n data) → v = errno 9 ∧ k'.fs = k.fs) ∧
      ∀ data, Holds h n data → v = UInt64.ofNat len ∧
        ∃ slice, slice.length = len ∧ (∀ j < len, userByte k.mem (buf + j) = slice[j]?) ∧
          k'.fs.files.lookup n = some (data ++ slice) := by
  rcases sysWrite_cases hrun with ⟨rfl, -, hbad⟩ | ⟨-, -, hv, slice, hslice, ha⟩
  · obtain ⟨hv, hlook⟩ := hbad hn hlen hregion
    refine ⟨fun _ => ⟨hv, rfl⟩, fun data hdata => ?_⟩
    rw [(hr.holds_iff n data).mpr hdata] at hlook
    cases hlook
  · constructor
    · intro hnone
      obtain ⟨data, hlook⟩ := Option.isSome_iff_exists.mp ha.isOpen
      exact absurd ((hr.holds_iff n data).mp hlook) (hnone data)
    · intro data hdata
      obtain ⟨hlength, hbytes⟩ := loadBytes_ok hslice
      refine ⟨hv, slice, hlength, hbytes, ?_⟩
      rw [ha.files, lookup_map_at _ _ _ (· ++ slice), if_pos rfl,
        (hr.holds_iff n data).mpr hdata]
      rfl

/-- A call leaves the contents of every other descriptor alone. -/
theorem Refines.isolated (hr : Refines h k.fs) {c : FdCall} {v n : UInt64} {k' : Kernel}
    {data : List UInt8} (hrun : c.run k = .ok v k') (hdata : Holds h n data)
    (hclose : c ≠ .close n) (hwrite : ∀ buf len, c ≠ .write n buf len) :
    k'.fs.files.lookup n = some data := by
  have hlook := (hr.holds_iff n data).mpr hdata
  cases c with
  | openPath pathPtr flags =>
      rcases sysOpen_cases hrun with ⟨⟨hfiles, -⟩, -⟩ | ⟨hi, -⟩
      · rwa [hfiles]
      · have hne : n ≠ v := by
          rintro rfl
          exact UInt64.lt_irrefl _ (hi.fd ▸ (hr.bounds hdata.mem_descriptors).2)
        rw [hi.files, lookup_cons_eq, lookup_filter_ne, if_neg hne, if_neg hne, hlook]
  | close fd =>
      rcases sysClose_cases hrun with ⟨-, rfl⟩ | ⟨-, hfs⟩
      · exact hlook
      · have hne : n ≠ fd := fun heq => hclose (by rw [heq])
        rw [hfs, lookup_filter_ne, if_neg hne, hlook]
  | read fd buf len =>
      have hfs : k'.fs = k.fs := (sysRead_fs fd buf len).ok hrun
      rwa [hfs]
  | write fd buf len =>
      rcases sysWrite_cases hrun with ⟨rfl, -, -⟩ | ⟨-, -, -, slice, -, ha⟩
      · exact hlook
      · have hne : n ≠ fd := fun heq => hwrite buf len (by rw [heq])
        rw [ha.files, lookup_map_at _ _ _ (· ++ slice), if_neg hne, hlook]

/-- The counter of the history is ahead of all descriptors. -/
theorem Refines.issue_fresh (hr : Refines h k.fs) {v : UInt64} {k' : Kernel}
    (hi : Issues k v k') : 3 < v ∧ v ∉ descriptors h ∧ k'.fs.files.lookup v = some [] := by
  refine ⟨?_, fun hmem => ?_, ?_⟩
  · rw [hi.fd, UInt64.lt_iff_toNat_lt, hr.next]
    exact Nat.lt_add_right _ (by decide)
  · exact UInt64.lt_irrefl _ (hi.fd ▸ (hr.bounds hmem).2)
  · rw [hi.files, lookup_cons_eq, if_pos rfl]

theorem Refines.serves (hr : Refines h k.fs) : Serves h k where
  contents := hr.holds_iff
  opened _ _ _ _ hrun := by
    rcases sysOpen_cases hrun with ⟨⟨hfiles, hnext⟩, hanswer, -⟩ | ⟨hi, -⟩
    · exact ⟨fun _ => ⟨hanswer, hfiles⟩, fun hmoved => absurd hnext hmoved⟩
    · refine ⟨fun hsame => ?_, fun _ => hr.issue_fresh hi⟩
      rw [hi.next] at hsame
      simp at hsame
  read n buf len v k' hn hlen hregion hrun := by
    have hfile : readFile n buf len k = .ok v k' := by rwa [← sysRead_file hn hlen hregion]
    exact ⟨(sysRead_fs n buf len).ok hrun, hr.read hfile⟩
  write _ _ _ _ _ hn hlen hregion hrun := hr.write hn hlen hregion hrun
  isolated _ _ _ _ _ hrun hdata hclose hwrite := hr.isolated hrun hdata hclose hwrite
  read_returns _ _ _ hn hmapped := sysRead_returns hn hmapped
  write_returns _ _ _ hn hmapped := sysWrite_returns hn hmapped

end

/-- Descriptors are never handed out twice, and in every run each descriptor is
the log of what was written to it since it was opened. -/
theorem descriptors_are_logs (k₀ k : Kernel)
    (tr : List ((Kernel × FdCall) × UInt64 × Option FdEvent))
    (hstart : k₀.fs.nextFd = 4 ∧ k₀.fs.files = []) (hrun : Run fdStep k₀ tr k)
    (hopens : opens tr < 2 ^ 64 - 4) :
    (descriptors (history tr)).Nodup ∧ (∀ n ∈ descriptors (history tr), 3 < n) ∧
      ∀ env : Kernel, Serves (history tr) { env with fs := k.fs } := by
  have hempty : Refines [] k₀.fs := by
    refine ⟨fun n => ?_, rfl, ?_⟩
    · rw [hstart.2]
      rfl
    · rw [hstart.1]
      rfl
  have hr : Refines (history tr) k.fs := by
    have hall := run_refines hrun hempty (by simpa [descriptors] using hopens)
    rwa [List.nil_append] at hall
  exact ⟨hr.nodup, fun n hn => (hr.bounds hn).1, fun env =>
    Refines.serves (k := { env with fs := k.fs }) hr⟩

/-- The first process, with the path `a` on its stack. -/
def withPath : Kernel := { started with mem := userStore started.mem (0x401F00, 97) }

/-- A file is opened and written to twice; reading one byte gives the first. -/
theorem descriptors_are_logs_two_writes : ∃ tr k, Run fdStep started tr k ∧
    descriptors (history tr) = [4] ∧ Holds (history tr) 4 [97, 97] ∧
    ∃ v k', sysRead 4 0x401F80 1 { withPath with fs := k.fs } = .ok v k' ∧ v = 1 := by
  have hfacts : (replay fdStep [(withPath, .openPath 0x401F00 0),
        (withPath, .write 4 0x401F00 1), (withPath, .write 4 0x401F00 1)] started).map (fun x =>
          (descriptors (history x.1), opens x.1, x.2.fs.files.lookup 4)) =
        some ([4], 1, some [97, 97]) ∧
      (withPath.mem.pt.entries 0x401).map (fun e => e.flags.writable) = some true ∧
      userRegionIsWritableRange withPath 0x401F80 1 = true := by decide +kernel
  obtain ⟨hreplay, hstack, hregion⟩ := hfacts
  obtain ⟨⟨tr, k⟩, hrun, hvalues⟩ := Option.map_eq_some_iff.mp hreplay
  simp only [Prod.mk.injEq] at hvalues
  obtain ⟨hdesc, hopens, hlook⟩ := hvalues
  obtain ⟨e, he, hw⟩ := Option.map_eq_some_iff.mp hstack
  obtain ⟨-, -, hserves⟩ := descriptors_are_logs started k tr ⟨rfl, rfl⟩ (Run.of_replay hrun)
    (by rw [hopens]; decide)
  have hpage : pageOf 0x401F80 = 0x401 := by decide
  replace hrun := Run.of_replay hrun
  generalize withPath = env at hrun he hregion ⊢
  have hholds := ((hserves env).contents 4 [97, 97]).mp hlook
  have hmapped : ∀ j < 1, ∃ e, env.mem.pt.entries (pageOf (0x401F80 + j)) = some e ∧
      e.flags.writable = true := by
    intro j hj
    rw [Nat.lt_one_iff.mp hj, Nat.add_zero, hpage]
    exact ⟨e, he, hw⟩
  obtain ⟨v, k', hread⟩ := (hserves env).read_returns 4 0x401F80 1 (by decide) hmapped
  have hanswer := (hserves env).read 4 0x401F80 1 v k' (by decide) (by decide) hregion hread
  exact ⟨tr, k, hrun, hdesc, hholds, v, k', hread,
    (hanswer.2.2.2 [97, 97] (by decide) hholds).1⟩

end Rockos.Descriptors
