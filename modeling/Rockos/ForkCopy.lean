import Rockos.ForkStacks
import Rockos.FrameAccounts

/-!
# The copy of the parent's stack (process.rs)

`map_child_stack_and_copy` copies from the saved stack pointer to the end of the
first stack, to the same place in the child stack page. The stack pointer is
what the user program left in `rsp`, and nothing checks that it lies in the
stack page: if it lies below, the source of the copy begins below the page, and
its destination begins at the page and ends behind it.
-/
namespace Rockos.ForkCopy
open FallibleState PhysMemory Paging PageEdits KernelState ProcessCalls Syscall FrameAccounts
open ForkStacks SyscallFrame

/-! ## The bytes a copy touches -/

/-- Both ends of the `i`-th byte are mapped. -/
def BothMapped (m : Mem) (src dst i : ℕ) : Prop :=
  (m.pt.entries (pageOf (src + i))).isSome ∧ (m.pt.entries (pageOf (dst + i))).isSome

instance (m : Mem) (src dst i : ℕ) : Decidable (BothMapped m src dst i) :=
  inferInstanceAs (Decidable (_ ∧ _))

/-- The addresses that are read and written, byte by byte, up to the first that is
not mapped. -/
def accesses (m : Mem) (src dst : ℕ) : (i count : ℕ) → List (ℕ × ℕ)
  | _, 0 => []
  | i, count + 1 =>
      if BothMapped m src dst i then (src + i, dst + i) :: accesses m src dst (i + 1) count else []

/-- One byte is read and stored. -/
def copyByte (m : Mem) (a : ℕ × ℕ) : Mem :=
  match translateAddr m a.1, translateAddr m a.2 with
  | some ps, some pd => writePhys pd (m.ram ps) m
  | _, _ => m

theorem copyByte_pt (m : Mem) (a : ℕ × ℕ) : (copyByte m a).pt = m.pt := by
  unfold copyByte
  cases translateAddr m a.1 with
  | none => rfl
  | some ps =>
      cases translateAddr m a.2 with
      | none => rfl
      | some pd => rfl

theorem accesses_congr {m m' : Mem} (h : m'.pt = m.pt) (src dst i count : ℕ) :
    accesses m' src dst i count = accesses m src dst i count := by
  induction count generalizing i with
  | zero => rfl
  | succ count ih =>
      have hmapped : BothMapped m' src dst i ↔ BothMapped m src dst i := by
        rw [BothMapped, BothMapped, h]
      rw [accesses, accesses, ih]
      exact if_congr hmapped rfl rfl

theorem mem_accesses {m : Mem} {src dst i count : ℕ} {a : ℕ × ℕ}
    (h : a ∈ accesses m src dst i count) :
    ∃ j, i ≤ j ∧ j < i + count ∧ a = (src + j, dst + j) := by
  induction count generalizing i with
  | zero => cases h
  | succ count ih =>
      rw [accesses] at h
      split_ifs at h with hmapped
      · rcases List.mem_cons.mp h with rfl | h
        · exact ⟨i, le_rfl, by omega, rfl⟩
        · obtain ⟨j, hlo, hhi, ha⟩ := ih h
          exact ⟨j, by omega, by omega, ha⟩
      · cases h

theorem copyUserByte_run {m : Mem} {src dst i : ℕ} (hs : src + i < 2 ^ 47) (hd : dst + i < 2 ^ 47) :
    copyUserByte src dst i m = if BothMapped m src dst i then
      .ok () (copyByte m (src + i, dst + i)) else .error (.err "()") m := by
  unfold copyUserByte copyByte BothMapped translateAddr
  simp only [virtAddr_of_lt hs, virtAddr_of_lt hd, bind_run, pure_run, get_run]
  rcases Option.eq_none_or_eq_some (m.pt.entries (pageOf (src + i))) with hsrc | ⟨e, hsrc⟩
  · simp [hsrc]
  · rcases Option.eq_none_or_eq_some (m.pt.entries (pageOf (dst + i))) with hdst | ⟨e', hdst⟩
    · simp [hsrc, hdst]
    · simp [hsrc, hdst]

/-- The copy performs these accesses, and succeeds if none is missing. -/
theorem copyLoop_run {src dst i count : ℕ} (hs : src + (i + count) ≤ 2 ^ 47)
    (hd : dst + (i + count) ≤ 2 ^ 47) (m : Mem) :
    countLoop (fun i _ => copyUserByte src dst i) i count () m =
      if (accesses m src dst i count).length = count then
        .ok () ((accesses m src dst i count).foldl copyByte m)
      else .error (.err "()") ((accesses m src dst i count).foldl copyByte m) := by
  induction count generalizing i m with
  | zero => rfl
  | succ count ih =>
      have hstep : copyUserByte src dst i m = _ := copyUserByte_run (by omega) (by omega)
      rw [countLoop, accesses]
      by_cases hmapped : BothMapped m src dst i
      · rw [if_pos hmapped] at hstep
        rw [bind_of_ok hstep, ih (by omega) (by omega), if_pos hmapped,
          accesses_congr (copyByte_pt m _)]
        simp only [List.length_cons, List.foldl_cons, Nat.add_right_cancel_iff]
      · rw [if_neg hmapped] at hstep
        rw [bind_of_error hstep, if_neg hmapped, if_neg (by simp)]
        rfl

theorem accesses_complete {m : Mem} {src dst i count : ℕ} :
    (accesses m src dst i count).length = count ↔
      ∀ j, i ≤ j → j < i + count → BothMapped m src dst j := by
  induction count generalizing i with
  | zero => exact iff_of_true rfl fun j hlo hhi => absurd hlo (by omega)
  | succ count ih =>
      rw [accesses]
      by_cases hmapped : BothMapped m src dst i
      · rw [if_pos hmapped, List.length_cons, Nat.add_right_cancel_iff, ih]
        constructor
        · intro hrest j hlo hhi
          rcases Nat.eq_or_lt_of_le hlo with rfl | hlt
          · exact hmapped
          · exact hrest j hlt (by omega)
        · intro hall j hlo hhi
          exact hall j (by omega) (by omega)
      · rw [if_neg hmapped]
        exact iff_of_false (by simp) fun hall => hmapped (hall i le_rfl (by omega))

theorem replay_pt (as : List (ℕ × ℕ)) (m : Mem) : (as.foldl copyByte m).pt = m.pt := by
  induction as generalizing m with
  | nil => rfl
  | cons a as ih => rw [List.foldl_cons, ih, copyByte_pt]

theorem copyUserByte_ok {src dst i : ℕ} {m m' : Mem} (hs : src + i < 2 ^ 47)
    (hd : dst + i < 2 ^ 47) (h : copyUserByte src dst i m = .ok () m') :
    ∃ ps pd, translateAddr m (src + i) = some ps ∧ translateAddr m (dst + i) = some pd ∧
      m' = writePhys pd (m.ram ps) m := by
  simp only [copyUserByte, virtAddr_of_lt hs, virtAddr_of_lt hd, bind_run, pure_run, get_run] at h
  cases hsrc : translateAddr m (src + i) with
  | none => simp [hsrc] at h
  | some ps =>
      cases hdst : translateAddr m (dst + i) with
      | none => simp [hsrc, hdst] at h
      | some pd =>
          simp only [hsrc, hdst, modify_run] at h
          obtain ⟨-, rfl⟩ := EStateM.Result.ok.inj h
          exact ⟨ps, pd, rfl, rfl, rfl⟩

/-- Different places in their pages are different bytes, whatever the frames. -/
theorem translateAddr_ne {m : Mem} {a b pa pb : ℕ} (ha : translateAddr m a = some pa)
    (hb : translateAddr m b = some pb) (hne : a % pageSize ≠ b % pageSize) : pa ≠ pb := by
  obtain ⟨e, -, rfl⟩ := Option.map_eq_some_iff.mp ha
  obtain ⟨e', -, rfl⟩ := Option.map_eq_some_iff.mp hb
  have hpage : pageSize = 4096 := rfl
  rw [hpage] at hne ⊢
  omega

theorem userByte_writePhys_ne {m : Mem} {a b pb : ℕ} (hb : translateAddr m b = some pb)
    (hne : a % pageSize ≠ b % pageSize) (x : UInt8) :
    userByte (writePhys pb x m) a = userByte m a := by
  have hsame : translateAddr (writePhys pb x m) a = translateAddr m a := rfl
  rw [userByte, userByte, hsame]
  cases ha : translateAddr m a with
  | none => rfl
  | some pa =>
      have hpa := translateAddr_ne ha hb hne
      simp [writePhys, Function.update_of_ne hpa]

/-- Within one page, to the same place in another: afterwards the two agree,
also if the two pages are the same frame. -/
theorem copy_agrees {src dst len : ℕ} {m m' : Mem}
    (hlow : src + (0 + len) ≤ 2 ^ 47 ∧ dst + (0 + len) ≤ 2 ^ 47)
    (hoffset : dst % pageSize = src % pageSize) (hpage : src % pageSize + len ≤ pageSize)
    (h : copyUserPages src dst len m = .ok () m') :
    ∀ i < len, userByte m' (src + i) = userByte m' (dst + i) := by
  have hsrc : ∀ j < len, (src + j) % pageSize = src % pageSize + j := by
    intro j hj
    rw [Nat.add_mod, Nat.mod_eq_of_lt (show j < pageSize by omega), Nat.mod_eq_of_lt (by omega)]
  have hdst : ∀ j < len, (dst + j) % pageSize = src % pageSize + j := by
    intro j hj
    rw [Nat.add_mod, hoffset, Nat.mod_eq_of_lt (show j < pageSize by omega),
      Nat.mod_eq_of_lt (by omega)]
  rw [copyUserPages] at h
  have hloop := countLoop_ok
    (fun i _ t => ∀ j < i, userByte t (src + j) = userByte t (dst + j)) h ?_ ?_
  · rwa [Nat.zero_add] at hloop
  · intro j hj
    exact absurd hj (Nat.not_lt_zero j)
  · intro i _ s _ t _ hi hs hrun j hj
    obtain ⟨ps, pd, hps, hpd, rfl⟩ := copyUserByte_ok (by omega) (by omega) hrun
    rcases Nat.lt_succ_iff_lt_or_eq.mp hj with hlt | rfl
    · -- earlier bytes are elsewhere in their pages
      have hne : (src + j) % pageSize ≠ (dst + i) % pageSize := by
        rw [hsrc j (by omega), hdst i (by omega)]
        omega
      have hne' : (dst + j) % pageSize ≠ (dst + i) % pageSize := by
        rw [hdst j (by omega), hdst i (by omega)]
        omega
      rw [userByte_writePhys_ne hpd hne, userByte_writePhys_ne hpd hne']
      exact hs j hlt
    · have htranslate : ∀ a, translateAddr (writePhys pd (s.ram ps) s) a = translateAddr s a :=
        fun _ => rfl
      rw [userByte, userByte, htranslate, htranslate, hps, hpd]
      by_cases hsame : ps = pd
      · rw [hsame]
      · simp [writePhys, Function.update_of_ne hsame]

/-! ## The child stack page -/

/-- The page is mapped, or can be. -/
def ChildPageReady (w : Walker) (m : Mem) : Prop :=
  (m.pt.entries (pageOf childStackLo)).isSome ∨
    (Vacant w m.pt.entries (pageOf childStackLo) ∧
      w.missing m.pt.tables (pageOf childStackLo) < spare m)

/-- What `mapChildStack` leaves of the page table. -/
structure ChildPageMapped (m t : Mem) : Prop where
  child : (t.pt.entries (pageOf childStackLo)).isSome
  other : ∀ q, q ≠ pageOf childStackLo → t.pt.entries q = m.pt.entries q

theorem mapChildStack_of_ready {w : Walker} (hw : Steady w) {m : Mem} (h : ChildPageReady w m) :
    ∃ t, mapChildStack w m = .ok () t ∧ ChildPageMapped m t := by
  have hother := @mapChildStack_entries w m
  rcases mapChildStack_cases w m with ⟨hsome, hrun⟩ | ⟨hnone, hrun⟩
  · exact ⟨m, hrun, hsome, fun _ _ => rfl⟩
  · rcases h with h | h
    · rw [hnone] at h
      cases h
    · obtain ⟨t, hmap⟩ : ∃ t, mapNewPage w (pageOf childStackLo) userDataFlags m = .ok () t :=
        (mapNewPage_returns_iff hw).mpr h
      rw [hrun, hmap] at hother
      refine ⟨t, hrun.trans hmap, ?_, fun q hq => hother hq⟩
      rcases mapNewPage_cases w (pageOf childStackLo) userDataFlags m with
        ⟨e, t', hbad, -⟩ | ⟨f, t', hgood, -, hentries⟩
      · rw [hbad] at hmap
        cases hmap
      · rw [hgood] at hmap
        obtain ⟨-, rfl⟩ := EStateM.Result.ok.inj hmap
        rw [hentries, Function.update_self]
        rfl

theorem mapChildStack_of_not_ready {w : Walker} (hw : Steady w) {m : Mem}
    (h : ¬ ChildPageReady w m) : ∃ t, mapChildStack w m = .error (.err "()") t ∧
      t.pt.entries = m.pt.entries := by
  rcases mapChildStack_cases w m with ⟨hsome, -⟩ | ⟨hnone, hrun⟩
  · exact absurd (.inl hsome) h
  · rcases mapNewPage_cases w (pageOf childStackLo) userDataFlags m with
      ⟨e, t, hmap, hentries⟩ | ⟨f, t, hmap, -, -⟩
    · rw [mapNewPage_reports hmap] at hmap
      exact ⟨t, hrun.trans hmap, hentries⟩
    · exact absurd (.inr ((mapNewPage_returns_iff hw).mp ⟨t, hmap⟩)) h

/-! ## The whole call -/

/-- Where the copy goes. -/
def copyDst (rsp : ℕ) : ℕ := childStackLo + (rsp - (userStackTop - pageSize))

/-- What `map_child_stack_and_copy` reads and writes. -/
def stackAccesses (w : Walker) (saved : SyscallSaved) (m : Mem) : List (ℕ × ℕ) :=
  match mapChildStack w m with
  | .error _ _ => []
  | .ok _ t =>
      if saved.userRsp.toNat ≥ userStackTop then [] else
        accesses t saved.userRsp.toNat (copyDst saved.userRsp.toNat) 0
          (userStackTop - saved.userRsp.toNat)

theorem copy_canonical {rsp : ℕ} (h : rsp < userStackTop) :
    rsp + (0 + (userStackTop - rsp)) ≤ 2 ^ 47 ∧
      copyDst rsp + (0 + (userStackTop - rsp)) ≤ 2 ^ 47 := by
  have htop : userStackTop = 0x402000 := rfl
  have hlo : childStackLo = 0x402000 := rfl
  have hpage : pageSize = 4096 := rfl
  rw [copyDst, hlo, hpage]
  omega

theorem copy_run {rsp : ℕ} (h : rsp < userStackTop) (t : Mem) :
    copyUserPages rsp (copyDst rsp) (userStackTop - rsp) t =
      if (accesses t rsp (copyDst rsp) 0 (userStackTop - rsp)).length = userStackTop - rsp then
        .ok () ((accesses t rsp (copyDst rsp) 0 (userStackTop - rsp)).foldl copyByte t)
      else .error (.err "()")
        ((accesses t rsp (copyDst rsp) 0 (userStackTop - rsp)).foldl copyByte t) :=
  copyLoop_run (copy_canonical h).1 (copy_canonical h).2 t

/-- Apart from mapping the page, the call performs these accesses and no others. -/
theorem mapChildStackAndCopy_replay (w : Walker) (saved : SyscallSaved) (m : Mem) :
    final (mapChildStackAndCopy w saved m) =
      (stackAccesses w saved m).foldl copyByte (final (mapChildStack w m)) := by
  rw [mapChildStackAndCopy, stackAccesses, bind_run]
  cases mapChildStack w m with
  | error e t => rfl
  | ok _ t =>
      simp only
      split_ifs with htop
      · rfl
      · have hrun := copy_run (by omega : saved.userRsp.toNat < userStackTop) t
        rw [show childStackLo + (saved.userRsp.toNat - (userStackTop - pageSize)) =
          copyDst saved.userRsp.toNat from rfl, hrun]
        split_ifs <;> rfl

/-- The byte that is read lies in the parent's stack page, the byte that is
written in the child's. -/
structure Confined (a : ℕ × ℕ) : Prop where
  reads : userStackTop - pageSize ≤ a.1 ∧ a.1 < userStackTop
  writes : childStackLo ≤ a.2 ∧ a.2 < userStackChildTop

/-- Only the two stack pages are touched, and the child finds its stack at the
stack pointer it is given. -/
structure StackCopied (w : Walker) (saved : SyscallSaved) (m : Mem) : Prop where
  confined : ∀ a ∈ stackAccesses w saved m, Confined a
  copied : ∀ m', mapChildStackAndCopy w saved m = .ok () m' →
    ∀ i, saved.userRsp.toNat + i < userStackTop →
      userByte m' (saved.userRsp.toNat + i) = userByte m' ((childSave saved).userRsp.toNat + i)

theorem childSave_rsp {saved : SyscallSaved} (h : saved.userRsp.toNat < userStackTop) :
    (childSave saved).userRsp.toNat = saved.userRsp.toNat + pageSize := by
  have htop : userStackTop = 0x402000 := rfl
  have hchild : userStackChildTop = 0x403000 := rfl
  have hpage : pageSize = 4096 := rfl
  show (UInt64.ofNat (userStackChildTop - (userStackTop - saved.userRsp.toNat))).toNat = _
  rw [UInt64.toNat_ofNat', Nat.mod_eq_of_lt (by omega)]
  omega

theorem stackCopied_of_inside {w : Walker} {saved : SyscallSaved} {m : Mem}
    (h : userStackTop - pageSize ≤ saved.userRsp.toNat) : StackCopied w saved m := by
  have htop : userStackTop = 0x402000 := rfl
  have hchild : userStackChildTop = 0x403000 := rfl
  have hlo : childStackLo = 0x402000 := rfl
  have hpage : pageSize = 4096 := rfl
  have hdst : copyDst saved.userRsp.toNat = saved.userRsp.toNat + pageSize := by
    rw [copyDst]
    omega
  constructor
  · intro a ha
    unfold stackAccesses at ha
    cases hmap : mapChildStack w m with
    | error e t =>
        rw [hmap] at ha
        cases ha
    | ok _ t =>
        rw [hmap] at ha
        simp only at ha
        split_ifs at ha with hrsp
        · cases ha
        · obtain ⟨j, -, hj, rfl⟩ := mem_accesses ha
          exact ⟨⟨by omega, by omega⟩, by omega, by omega⟩
  · intro m' hok i hi
    obtain ⟨_, t, -, hcopy⟩ := bind_ok hok
    rw [if_neg (by omega)] at hcopy
    have hoffset : copyDst saved.userRsp.toNat % pageSize = saved.userRsp.toNat % pageSize := by
      rw [hdst, Nat.add_mod_right]
    have hfits : saved.userRsp.toNat % pageSize + (userStackTop - saved.userRsp.toNat) ≤
        pageSize := by
      rw [hpage, htop]
      omega
    have hagrees := copy_agrees (copy_canonical (by omega)) hoffset hfits hcopy i (by omega)
    rw [childSave_rsp (by omega), hagrees]
    show userByte m' (copyDst saved.userRsp.toNat + i) = _
    rw [hdst]

theorem stackCopied_of_nothing {w : Walker} {saved : SyscallSaved} {m : Mem}
    (hnone : stackAccesses w saved m = [])
    (herr : ∀ m', mapChildStackAndCopy w saved m ≠ .ok () m') : StackCopied w saved m := by
  constructor
  · intro a ha
    rw [hnone] at ha
    cases ha
  · intro m' hok
    exact absurd hok (herr m')

/-- The first byte that is copied, if any is. -/
theorem accesses_first (t : Mem) (src dst : ℕ) {len : ℕ} (hlen : 0 < len) :
    (BothMapped t src dst 0 ∧ (src, dst) ∈ accesses t src dst 0 len) ∨
    (¬ BothMapped t src dst 0 ∧ accesses t src dst 0 len = []) := by
  obtain ⟨n, rfl⟩ := Nat.exists_eq_succ_of_ne_zero hlen.ne'
  by_cases hmapped : BothMapped t src dst 0
  · left
    refine ⟨hmapped, ?_⟩
    rw [accesses, if_pos hmapped]
    exact List.mem_cons_self
  · right
    exact ⟨hmapped, by rw [accesses, if_neg hmapped]⟩

section Below
variable {w : Walker} {saved : SyscallSaved} {m t : Mem}

/-- Without a child page nothing is copied. -/
theorem stackCopied_of_not_ready (hw : Steady w) (hready : ¬ ChildPageReady w m) :
    StackCopied w saved m := by
  obtain ⟨t, hmap, -⟩ := mapChildStack_of_not_ready hw hready
  apply stackCopied_of_nothing
  · simp only [stackAccesses, hmap]
  · intro m' hok
    rw [mapChildStackAndCopy, bind_of_error hmap] at hok
    cases hok

/-- From below the stack page, the copy goes to the start of the child page. -/
theorem copyDst_below {rsp : ℕ} (hlow : rsp < userStackTop - pageSize) :
    copyDst rsp = childStackLo := by
  rw [copyDst, Nat.sub_eq_zero_of_le (by omega), Nat.add_zero]

theorem stackAccesses_below (hlow : saved.userRsp.toNat < userStackTop - pageSize)
    (hmap : mapChildStack w m = .ok () t) :
    stackAccesses w saved m = accesses t saved.userRsp.toNat childStackLo 0
      (userStackTop - saved.userRsp.toNat) := by
  simp only [stackAccesses, hmap]
  rw [if_neg (by omega), copyDst_below hlow]

theorem copy_below_fails (hlow : saved.userRsp.toNat < userStackTop - pageSize)
    (hmap : mapChildStack w m = .ok () t)
    (hnone : accesses t saved.userRsp.toNat childStackLo 0
      (userStackTop - saved.userRsp.toNat) = []) (m' : Mem) :
    mapChildStackAndCopy w saved m ≠ .ok () m' := by
  intro hok
  have hrun := copy_run (show saved.userRsp.toNat < userStackTop by omega) t
  rw [copyDst_below hlow, hnone, if_neg (by rw [List.length_nil]; omega)] at hrun
  rw [mapChildStackAndCopy, bind_of_ok hmap, if_neg (by omega)] at hok
  have hcopy : copyUserPages saved.userRsp.toNat (copyDst saved.userRsp.toNat)
      (userStackTop - saved.userRsp.toNat) t = .ok () m' := hok
  rw [copyDst_below hlow, hrun] at hcopy
  cases hcopy

/-- From below the stack page, the first byte is already outside of it. -/
theorem stackCopied_below_iff (hlow : saved.userRsp.toNat < userStackTop - pageSize)
    (hmap : mapChildStack w m = .ok () t) (hchild : ChildPageMapped m t) :
    StackCopied w saved m ↔ m.pt.entries (pageOf saved.userRsp.toNat) = none := by
  have hbelow : saved.userRsp.toNat < userStackTop := by omega
  have hsource := hchild.other _ (pageOf_ne_child hbelow)
  have hall := stackAccesses_below hlow hmap
  rcases accesses_first t saved.userRsp.toNat childStackLo (Nat.sub_pos_of_lt hbelow) with
    ⟨hmapped, hfirst⟩ | ⟨hmapped, hnone⟩
  · have hsome := hmapped.1
    rw [Nat.add_zero, hsource] at hsome
    apply iff_of_false
    · intro hcopied
      exact absurd (hcopied.confined _ (hall ▸ hfirst)).reads.1 (not_le.mpr hlow)
    · intro hentry
      rw [hentry] at hsome
      cases hsome
  · apply iff_of_true
    · exact stackCopied_of_nothing (hall.trans hnone) (copy_below_fails hlow hmap hnone)
    · by_contra hsome
      apply hmapped
      constructor
      · rw [Nat.add_zero, hsource]
        exact Option.isSome_iff_ne_none.mpr hsome
      · exact hchild.child

end Below

/-- The copy stays in the two stack pages exactly if the stack pointer lies in
the first, or nothing is copied at all. -/
theorem child_copy_confined_iff (w : Walker) (saved : SyscallSaved) (m : Mem) (hw : Steady w) :
    StackCopied w saved m ↔ userStackTop - pageSize ≤ saved.userRsp.toNat ∨
      m.pt.entries (pageOf saved.userRsp.toNat) = none ∨ ¬ ChildPageReady w m := by
  by_cases hinside : userStackTop - pageSize ≤ saved.userRsp.toNat
  · exact iff_of_true (stackCopied_of_inside hinside) (.inl hinside)
  rw [or_iff_right hinside]
  by_cases hready : ChildPageReady w m
  · obtain ⟨t, hmap, hchild⟩ := mapChildStack_of_ready hw hready
    rw [or_iff_left (not_not.mpr hready)]
    exact stackCopied_below_iff (not_le.mp hinside) hmap hchild
  · exact iff_of_true (stackCopied_of_not_ready hw hready) (.inr hready)

/-- A process that has pushed one word. -/
theorem child_copy_confined_word :
    StackCopied flatWalker (bootstrapUser 0x400078 0x401FF8 0x202) started.mem :=
  (child_copy_confined_iff _ _ _ fun _ _ => rfl).mpr (.inl (by decide))

/-- With a stack pointer eight bytes below the stack page, the copy begins in the
page of the text. -/
theorem child_copy_reads_text :
    (0x400FF8, 0x402000) ∈ stackAccesses flatWalker (bootstrapUser 0x400078 0x400FF8 0x202)
      started.mem ∧
    ¬ StackCopied flatWalker (bootstrapUser 0x400078 0x400FF8 0x202) started.mem := by
  have hhead : (stackAccesses flatWalker (bootstrapUser 0x400078 0x400FF8 0x202)
      started.mem).head? = some (0x400FF8, 0x402000) := by decide +kernel
  have hfirst := List.mem_of_head? hhead
  refine ⟨hfirst, ?_⟩
  intro hcopied
  exact absurd (hcopied.confined _ hfirst).reads.1 (by decide)

end Rockos.ForkCopy
