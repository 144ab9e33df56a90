import Rockos.Descriptors

/-!
# Strings in user memory (process.rs, fs.rs)

`execve` reads vectors of strings pointer by pointer and byte by byte, each with
a limit; both loops return what they have when they reach it. `open` looks at a
window of 128 bytes, however long the path is. What user memory holds is said
first, without limits or windows, and then compared with what the calls do.
-/
namespace Rockos.UserStrings
open FallibleState PhysMemory Paging ElfLoader KernelState AddressSpace ProcessCalls UserMemory
open Descriptors
open Syscall hiding Event step

/-! ## Vectors of strings -/

/-- The little-endian word at an address. -/
def userWord (m : Mem) (va : ℕ) : Option ℕ := (loadBytes m va 8).toOption.map leNat

/-- The string at `ptr`, up to its NUL byte. -/
structure StringAt (m : Mem) (ptr : ℕ) (s : List UInt8) : Prop where
  bytes : ∀ j b, s[j]? = some b → userByte m (ptr + j) = some b ∧ b ≠ 0
  nul : userByte m (ptr + s.length) = some 0

/-- The NULL-terminated vector at `base`, with its strings. -/
structure VectorAt (m : Mem) (base : ℕ) (v : List (List UInt8)) : Prop where
  strings : ∀ i s, v[i]? = some s →
    ∃ ptr, ptr ≠ 0 ∧ userWord m (base + i * 8) = some ptr ∧ StringAt m ptr s
  null : userWord m (base + v.length * 8) = some 0

/-- The vector ends after at most `maxPtrs` pointers, and each of its strings
after at most `maxStr` bytes. -/
def WithinLimits (m : Mem) (base maxPtrs maxStr : ℕ) : Prop :=
  ∃ n ≤ maxPtrs, userWord m (base + n * 8) = some 0 ∧
    ∀ i < n, ∃ ptr, ptr ≠ 0 ∧ userWord m (base + i * 8) = some ptr ∧
      ∃ l ≤ maxStr, userByte m (ptr + l) = some 0

/-- What `read_user_cstring` has when it stops: at a NUL byte or at its limit. -/
structure StringScan (m : Mem) (ptr cap : ℕ) (s : List UInt8) : Prop where
  length : s.length ≤ cap
  bytes : ∀ j b, s[j]? = some b → userByte m (ptr + j) = some b ∧ b ≠ 0
  stop : s.length = cap ∨ userByte m (ptr + s.length) = some 0

theorem loadByte_ok {m : Mem} {va : ℕ} {b : UInt8} (h : loadByte m va = .ok b) :
    userByte m va = some b := by
  unfold loadByte at h
  cases hb : userByte m va with
  | none => simp [hb] at h
  | some c => simpa [hb] using h

/-- One byte in front of a scan. -/
theorem StringScan.cons {m : Mem} {ptr cap : ℕ} {c : UInt8} {s : List UInt8}
    (h : StringScan m (ptr + 1) cap s) (hc : userByte m ptr = some c) (hne : c ≠ 0) :
    StringScan m ptr (cap + 1) (c :: s) where
  length := Nat.succ_le_succ h.length
  bytes := by
    intro j b hb
    cases j with
    | zero =>
        obtain rfl : c = b := by simpa using hb
        exact ⟨hc, hne⟩
    | succ j =>
        have hrest := h.bytes j b (by simpa using hb)
        rwa [show ptr + 1 + j = ptr + (j + 1) by omega] at hrest
  stop := by
    cases h.stop with
    | inl hcap => exact .inl (congrArg Nat.succ hcap)
    | inr hnul =>
        rw [show ptr + 1 + s.length = ptr + (c :: s).length by simp; omega] at hnul
        exact .inr hnul

theorem cstringBytes_ok {k : Kernel} {ptr cap : ℕ} {v v' : List UInt8}
    (h : cstringBytes k ptr cap v = .ok (.ok v')) :
    ∃ s, v' = v ++ s ∧ StringScan k.mem (ptr + v.length) cap s := by
  induction cap generalizing v with
  | zero =>
      simp only [cstringBytes, Except.ok.injEq] at h
      exact ⟨[], by rw [h, List.append_nil], Nat.le_refl _, by simp, .inl rfl⟩
  | succ cap ih =>
      simp only [cstringBytes] at h
      split_ifs at h
      · cases h
      obtain ⟨c, hc, h⟩ := except_bind_ok h
      have hbyte := loadByte_ok hc
      split_ifs at h with hzero
      · simp only [Except.ok.injEq] at h
        refine ⟨[], by rw [h, List.append_nil], Nat.zero_le _, by simp, .inr ?_⟩
        rw [hzero] at hbyte
        exact hbyte
      · obtain ⟨s, hs, hscan⟩ := ih h
        rw [List.length_append, List.length_singleton, ← Nat.add_assoc] at hscan
        exact ⟨c :: s, by rw [hs, List.append_assoc]; rfl, hscan.cons hbyte hzero⟩

theorem readUserCstring_ok {k : Kernel} {ptr cap : ℕ} {s : List UInt8}
    (h : readUserCstring k ptr cap = .ok (.ok s)) : StringScan k.mem ptr cap s := by
  rw [readUserCstring] at h
  obtain ⟨r, hr, h⟩ := except_bind_ok h
  cases r with
  | error e => cases h
  | ok v =>
      simp only at h
      split_ifs at h
      · obtain rfl : v = s := by simpa using h
        obtain ⟨s, hs, hscan⟩ := cstringBytes_ok hr
        rw [List.nil_append] at hs
        rw [hs]
        exact hscan
      · cases h

/-- What `parse_user_ptrvec` has when it stops: at a NULL pointer or at its limit. -/
structure VectorScan (m : Mem) (base maxStr count : ℕ) (v : List (List UInt8)) : Prop where
  length : v.length ≤ count
  strings : ∀ i s, v[i]? = some s →
    ∃ ptr, ptr ≠ 0 ∧ userWord m (base + i * 8) = some ptr ∧ StringScan m ptr maxStr s
  stop : v.length = count ∨ userWord m (base + v.length * 8) = some 0

theorem VectorScan.cons {m : Mem} {base maxStr count ptr : ℕ} {s : List UInt8}
    {v : List (List UInt8)} (h : VectorScan m (base + 8) maxStr count v)
    (hptr : userWord m base = some ptr) (hne : ptr ≠ 0) (hs : StringScan m ptr maxStr s) :
    VectorScan m base maxStr (count + 1) (s :: v) where
  length := Nat.succ_le_succ h.length
  strings := by
    intro i t ht
    cases i with
    | zero =>
        obtain rfl : s = t := by simpa using ht
        exact ⟨ptr, hne, by simpa using hptr, hs⟩
    | succ i =>
        have hrest := h.strings i t (by simpa using ht)
        rwa [show base + 8 + i * 8 = base + (i + 1) * 8 by omega] at hrest
  stop := by
    cases h.stop with
    | inl hcount => exact .inl (congrArg Nat.succ hcount)
    | inr hnull =>
        rw [show base + 8 + v.length * 8 = base + (s :: v).length * 8 by simp; omega] at hnull
        exact .inr hnull

theorem ptrvecFrom_ok {k : Kernel} {base maxStr i count : ℕ} {out out' : List (List UInt8)}
    (h : ptrvecFrom k base maxStr i count out = .ok (.ok out')) :
    ∃ v, out' = out ++ v ∧ VectorScan k.mem (base + i * 8) maxStr count v := by
  induction count generalizing i out with
  | zero =>
      simp only [ptrvecFrom, Except.ok.injEq] at h
      exact ⟨[], by rw [h, List.append_nil], Nat.le_refl _, by simp, .inl rfl⟩
  | succ count ih =>
      simp only [ptrvecFrom] at h
      split_ifs at h
      · cases h
      obtain ⟨word, hword, h⟩ := except_bind_ok h
      have hptr : userWord k.mem (base + i * 8) = some (leNat word) := by
        rw [userWord, hword]
        rfl
      split_ifs at h with hzero
      · simp only [Except.ok.injEq] at h
        refine ⟨[], by rw [h, List.append_nil], Nat.zero_le _, by simp, .inr ?_⟩
        rw [hzero] at hptr
        simpa using hptr
      · obtain ⟨r, hr, h⟩ := except_bind_ok h
        cases r with
        | error e => cases h
        | ok s =>
            obtain ⟨v, hv, hscan⟩ := ih h
            rw [Nat.add_mul, Nat.one_mul, ← Nat.add_assoc] at hscan
            exact ⟨s :: v, by rw [hv, List.append_assoc]; rfl,
              hscan.cons hptr hzero (readUserCstring_ok hr)⟩

theorem parseUserPtrvec_ok {k : Kernel} {base maxPtrs maxStr : ℕ} {v : List (List UInt8)}
    (hbase : base ≠ 0) (h : parseUserPtrvec k base maxPtrs maxStr = .ok (.ok v)) :
    VectorScan k.mem base maxStr maxPtrs v := by
  rw [parseUserPtrvec, if_neg hbase] at h
  obtain ⟨w, hw, hscan⟩ := ptrvecFrom_ok h
  rw [List.nil_append] at hw
  rw [hw]
  simpa using hscan

/-! ## Cut or complete -/

/-- The first NUL byte is at most at the limit exactly when the scan is the
whole string. -/
theorem StringScan.complete_iff {m : Mem} {ptr cap : ℕ} {s : List UInt8}
    (h : StringScan m ptr cap s) :
    StringAt m ptr s ↔ ∃ l ≤ cap, userByte m (ptr + l) = some 0 := by
  constructor
  · intro hs
    exact ⟨s.length, h.length, hs.nul⟩
  · intro hl
    obtain ⟨l, hl, hnul⟩ := hl
    refine ⟨h.bytes, ?_⟩
    have hge : s.length ≤ l := by
      by_contra hlt
      have hget := List.getElem?_eq_getElem (Nat.lt_of_not_le hlt)
      obtain ⟨hb, hne⟩ := h.bytes l _ hget
      rw [hnul] at hb
      exact hne (Option.some.inj hb).symm
    cases h.stop with
    | inl hcap => rwa [show l = s.length by omega] at hnul
    | inr hnul => exact hnul

theorem VectorScan.complete_iff {m : Mem} {base maxPtrs maxStr : ℕ} {v : List (List UInt8)}
    (h : VectorScan m base maxStr maxPtrs v) :
    VectorAt m base v ↔ WithinLimits m base maxPtrs maxStr := by
  constructor
  · intro hv
    refine ⟨v.length, h.length, hv.null, ?_⟩
    intro i hi
    have hget := List.getElem?_eq_getElem hi
    obtain ⟨ptr, hne, hptr, hs⟩ := h.strings i _ hget
    obtain ⟨ptr', -, hptr', hs'⟩ := hv.strings i _ hget
    obtain rfl : ptr = ptr' := by simpa [hptr] using hptr'
    exact ⟨ptr, hne, hptr, hs.complete_iff.mp hs'⟩
  · intro hlimits
    obtain ⟨n, hn, hnull, hbelow⟩ := hlimits
    -- the scan stops where the vector ends
    have hge : v.length ≤ n := by
      by_contra hlt
      have hget := List.getElem?_eq_getElem (Nat.lt_of_not_le hlt)
      obtain ⟨ptr, hne, hptr, -⟩ := h.strings n _ hget
      rw [hnull] at hptr
      exact hne (Option.some.inj hptr).symm
    have hlen : v.length = n := by
      cases h.stop with
      | inl hcount => omega
      | inr hend =>
          by_contra hne
          obtain ⟨ptr, hptrNe, hptr, -⟩ := hbelow v.length (by omega)
          rw [hend] at hptr
          exact hptrNe (Option.some.inj hptr).symm
    refine ⟨?_, by rw [hlen]; exact hnull⟩
    intro i s hs
    have hi := (List.getElem?_eq_some_iff.mp hs).1
    obtain ⟨ptr, hne, hptr, hscan⟩ := h.strings i s hs
    obtain ⟨ptr', -, hptr', hnul⟩ := hbelow i (by omega)
    obtain rfl : ptr = ptr' := by simpa [hptr] using hptr'
    exact ⟨ptr, hne, hptr, hscan.complete_iff.mpr hnul⟩

/-- A vector that is returned is the one in user memory exactly when it and its
strings end within the limits; longer ones are cut without an error. -/
theorem exec_vector_exact_iff (k : Kernel) (base maxPtrs maxStr : ℕ) (v : List (List UInt8))
    (hbase : base ≠ 0) (h : parseUserPtrvec k base maxPtrs maxStr = .ok (.ok v)) :
    VectorAt k.mem base v ↔ WithinLimits k.mem base maxPtrs maxStr :=
  (parseUserPtrvec_ok hbase h).complete_iff

/-- The first process, with a string at the start of its stack page and `n` pointers
to it near the end. -/
def withPointers (string : List UInt8) (n : ℕ) : Kernel :=
  let pointers := (List.range n).flatMap fun i => [(0x401F00 + i * 8 + 1, 0x10),
    (0x401F00 + i * 8 + 2, 0x40)]
  let bytes := string.zipIdx.map fun b => (0x401000 + b.2, b.1)
  { started with mem := (bytes ++ pointers).foldl userStore started.mem }

/-- Two pointers to the string `A=1` fit into the environment. -/
theorem exec_vector_exact_iff_two :
    parseUserPtrvec (withPointers [65, 61, 49] 2) 0x401F00 16 256 =
      .ok (.ok [[65, 61, 49], [65, 61, 49]]) ∧
    VectorAt (withPointers [65, 61, 49] 2).mem 0x401F00 [[65, 61, 49], [65, 61, 49]] := by
  have hfacts : parseUserPtrvec (withPointers [65, 61, 49] 2) 0x401F00 16 256 =
        .ok (.ok [[65, 61, 49], [65, 61, 49]]) ∧
      userWord (withPointers [65, 61, 49] 2).mem (0x401F00 + 2 * 8) = some 0 ∧
      (∀ i < 2, userWord (withPointers [65, 61, 49] 2).mem (0x401F00 + i * 8) = some 0x401000) ∧
      userByte (withPointers [65, 61, 49] 2).mem (0x401000 + 3) = some 0 := by decide +kernel
  obtain ⟨hparse, hnull, hptrs, hnul⟩ := hfacts
  refine ⟨hparse, (exec_vector_exact_iff _ _ _ _ _ (by decide) hparse).mpr ?_⟩
  refine ⟨2, by decide, hnull, ?_⟩
  intro i hi
  exact ⟨0x401000, by decide, hptrs i hi, 3, by decide, hnul⟩

/-- Seventeen pointers to an empty string: `execve` reads the first sixteen as its
environment and reports no error. -/
theorem exec_vector_cut :
    parseUserPtrvec (withPointers [] 17) 0x401F00 16 256 = .ok (.ok (List.replicate 16 [])) ∧
    ¬ VectorAt (withPointers [] 17).mem 0x401F00 (List.replicate 16 []) := by
  have hfacts : parseUserPtrvec (withPointers [] 17) 0x401F00 16 256 =
        .ok (.ok (List.replicate 16 [])) ∧
      userWord (withPointers [] 17).mem (0x401F00 + 16 * 8) = some 0x401000 := by decide +kernel
  refine ⟨hfacts.1, ?_⟩
  intro hv
  have hnull := hv.null
  rw [List.length_replicate, hfacts.2] at hnull
  cases hnull

/-! ## Paths -/

/-- A path that ends before 128 bytes and is readable up to its NUL byte. -/
structure ReadablePath (k : Kernel) (pathPtr n : ℕ) : Prop where
  short : n < 128
  nul : userByte k.mem (pathPtr + n) = some 0
  readable : userRegionIsReadableRange k pathPtr (n + 1) = true

/-- The counter of descriptors has come to the number that is `-14`, and the
path takes a descriptor. -/
def HandsOutEfault (k : Kernel) (pathPtr : ℕ) : Prop :=
  k.fs.nextFd = errno 14 ∧ ∃ path, pathAt k pathPtr = some path ∧ takesDescriptor k.fs path = true

/-- With a path that can be read up to its NUL byte, `EFAULT` is not returned
exactly when the 128 bytes from its start pass the check and the counter of
descriptors has not come to the number of `EFAULT`. -/
theorem open_readable_path_iff (k : Kernel) (pathPtr n : ℕ) (flags : UInt64)
    (_h : ReadablePath k pathPtr n) :
    (∀ k', sysOpen pathPtr flags k ≠ .ok (errno 14) k') ↔
      userRegionIsReadableRange k pathPtr 128 = true ∧ ¬ HandsOutEfault k pathPtr := by
  cases hregion : userRegionIsReadableRange k pathPtr 128 with
  | false =>
      simp only [Bool.false_eq_true, false_and, iff_false, not_forall, not_not]
      exact ⟨k, sysOpen_of_unreadable flags hregion⟩
  | true =>
      simp only [true_and]
      constructor
      · intro hnever hcounter
        obtain ⟨hnext, path, hpath, htakes⟩ := hcounter
        cases sysOpen_of_path flags hpath with
        | inl hopen =>
            apply hnever
            rw [hopen.2, openNew, bind_run, get_run, ← hnext]
            rfl
        | inr hother => simp [htakes] at hother
      · intro hcounter k' hopen
        obtain ⟨path, hpath⟩ := pathAt_of_returns hregion hopen
        cases sysOpen_of_path flags hpath with
        | inl hnew =>
            rw [hnew.2] at hopen
            exact hcounter ⟨(openNew_issues hopen).fd.symm, path, hpath, hnew.1⟩
        | inr hother =>
            obtain ⟨-, v, k₁, hv, hmem, -⟩ := hother
            rw [hopen] at hv
            cases hv
            exact absurd hmem (by decide)

/-- The first process, with `/dev/tty` on its stack; the rest of the stack page
is zero. -/
def withTty (pathPtr : ℕ) : Kernel :=
  let stores := (ascii "/dev/tty").zipIdx.map fun b => (pathPtr + b.2, b.1)
  { started with mem := stores.foldl userStore started.mem }

theorem withTty_readable : ReadablePath (withTty 0x401F00) 0x401F00 8 ∧
    userRegionIsReadableRange (withTty 0x401F00) 0x401F00 128 = true ∧
    (withTty 0x401F00).fs.nextFd ≠ errno 14 := by
  have hfacts : userByte (withTty 0x401F00).mem (0x401F00 + 8) = some 0 ∧
      userRegionIsReadableRange (withTty 0x401F00) 0x401F00 9 = true ∧
      userRegionIsReadableRange (withTty 0x401F00) 0x401F00 128 = true ∧
      (withTty 0x401F00).fs.nextFd ≠ errno 14 := by decide +kernel
  exact ⟨⟨by decide, hfacts.1, hfacts.2.1⟩, hfacts.2.2⟩

/-- In the middle of the stack page the path is accepted. -/
theorem open_readable_path_iff_middle : ReadablePath (withTty 0x401F00) 0x401F00 8 ∧
    ∀ k', sysOpen 0x401F00 0 (withTty 0x401F00) ≠ .ok (errno 14) k' := by
  obtain ⟨hpath, hwindow, hnext⟩ := withTty_readable
  constructor
  · exact hpath
  · exact (open_readable_path_iff _ _ _ 0 hpath).mpr ⟨hwindow, fun h => hnext h.1⟩

/-- At the end of the stack page the same path is refused. -/
theorem open_refuses_path_at_end : ReadablePath (withTty 0x401FF7) 0x401FF7 8 ∧
    ∃ k', sysOpen 0x401FF7 0 (withTty 0x401FF7) = .ok (errno 14) k' := by
  have hfacts : userByte (withTty 0x401FF7).mem (0x401FF7 + 8) = some 0 ∧
      userRegionIsReadableRange (withTty 0x401FF7) 0x401FF7 9 = true ∧
      userRegionIsReadableRange (withTty 0x401FF7) 0x401FF7 128 = false := by decide +kernel
  exact ⟨⟨by decide, hfacts.1, hfacts.2.1⟩, _, sysOpen_of_unreadable 0 hfacts.2.2⟩

end Rockos.UserStrings
