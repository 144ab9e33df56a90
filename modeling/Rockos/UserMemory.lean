import Rockos.FrameSafety
import Rockos.PageEdits

/-!
# User memory as a map from addresses to bytes

Stores go through the page table to physical memory. As no frame has two uses,
a store changes the byte at its own virtual address and no other, and mapping a
page leaves all bytes that could be read before as they were.
-/
namespace Rockos.UserMemory
open FallibleState PhysMemory Paging AddressSpace FrameSafety PageEdits

section
variable {m m' : Mem} {a d pa pd : ℕ}

theorem translateAddr_eq_some : translateAddr m a = some pa ↔
    ∃ e, m.pt.entries (pageOf a) = some e ∧ pa = e.frame * pageSize + a % pageSize := by
  simp only [translateAddr, Option.map_eq_some_iff]
  exact exists_congr fun e => and_congr_right fun _ => eq_comm

/-- Different user addresses have different physical addresses. -/
theorem translateAddr_injective (h : FrameSafe m) (ha : translateAddr m a = some pa)
    (hd : translateAddr m d = some pa) : a = d := by
  obtain ⟨e, he, hpa⟩ := translateAddr_eq_some.mp ha
  obtain ⟨e', he', hpa'⟩ := translateAddr_eq_some.mp hd
  have hpos : 0 < pageSize := by decide
  have hframe : e.frame = e'.frame := by
    have hdiv := congrArg (· / pageSize) (hpa.symm.trans hpa')
    simpa [Nat.add_div_of_dvd_right, Nat.mul_add_div hpos, Nat.mul_comm _ pageSize,
      Nat.div_eq_of_lt (Nat.mod_lt _ hpos)] using hdiv
  have hoffset : a % pageSize = d % pageSize := by
    rw [hframe, hpa'] at hpa
    exact (Nat.add_left_cancel hpa).symm
  have hpage : pageOf a = pageOf d := h.exclusive.one_page _ _ e e' he he' hframe
  rw [← Nat.div_add_mod a pageSize, ← Nat.div_add_mod d pageSize]
  exact congrArg₂ (pageSize * · + ·) hpage hoffset

/-- A store is seen at its own address only. -/
theorem userByte_writePhys (h : FrameSafe m) (hd : translateAddr m d = some pd) (b : UInt8)
    (a : ℕ) : userByte (writePhys pd b m) a = if a = d then some b else userByte m a := by
  have hsame : userByte (writePhys pd b m) a =
      (translateAddr m a).map (Function.update m.ram pd b) := rfl
  rw [hsame]
  by_cases ha : a = d
  · subst ha
    simp [hd]
  · rw [if_neg ha, userByte]
    cases hpa : translateAddr m a with
    | none => rfl
    | some pa =>
        have hne : pa ≠ pd := fun heq => ha (translateAddr_injective h (heq ▸ hpa) hd)
        simp [Function.update_of_ne hne]

/-- A byte depends on the entry of its page and on physical memory. -/
theorem userByte_congr (hentry : m'.pt.entries (pageOf a) = m.pt.entries (pageOf a))
    (hram : m'.ram = m.ram) : userByte m' a = userByte m a := by
  simp only [userByte, translateAddr, hentry, hram]

end

/-! ## Slices of user memory -/

theorem loadBytes_ok {m : Mem} {va len : ℕ} {bytes : List UInt8}
    (h : loadBytes m va len = .ok bytes) :
    bytes.length = len ∧ ∀ j < len, userByte m (va + j) = bytes[j]? := by
  induction len generalizing va bytes with
  | zero =>
      obtain rfl := Except.ok.inj h
      exact ⟨rfl, fun j hj => absurd hj (by omega)⟩
  | succ n ih =>
      obtain ⟨b, hb, h⟩ := except_bind_ok h
      obtain ⟨bs, hbs, h⟩ := except_bind_ok h
      obtain rfl := Except.ok.inj h
      obtain ⟨hlen, hrest⟩ := ih hbs
      refine ⟨by simp [hlen], fun j hj => ?_⟩
      cases j with
      | zero =>
          unfold loadByte at hb
          cases hbyte : userByte m va with
          | none => simp [hbyte] at hb
          | some c =>
              simp only [hbyte, Except.ok.injEq] at hb
              rw [hb, List.getElem?_cons_zero]
      | succ j =>
          rw [List.getElem?_cons_succ, ← hrest j (by omega)]
          congr 1
          omega

theorem loadBytes_returns {m : Mem} {va len : ℕ}
    (h : ∀ j < len, (userByte m (va + j)).isSome) : ∃ bytes, loadBytes m va len = .ok bytes := by
  induction len generalizing va with
  | zero => exact ⟨[], rfl⟩
  | succ n ih =>
      obtain ⟨b, hb⟩ := Option.isSome_iff_exists.mp (h 0 (by omega))
      obtain ⟨bs, hbs⟩ := @ih (va + 1) fun j hj => by
        have hmapped := h (j + 1) (by omega)
        rwa [show va + (j + 1) = va + 1 + j by omega] at hmapped
      have hload : loadByte m va = .ok b := by
        rw [Nat.add_zero] at hb
        rw [loadByte, hb]
      exact ⟨b :: bs, by rw [loadBytes, hload, hbs]; rfl⟩

theorem storeByte_ok {m m' : Mem} {va : ℕ} {b : UInt8} (h : storeByte va b m = .ok () m') :
    ∃ pa, translateAddr m va = some pa ∧ m' = writePhys pa b m := by
  simp only [storeByte, bind_run, get_run] at h
  cases he : m.pt.entries (pageOf va) with
  | none => simp [he] at h
  | some e =>
      simp only [he] at h
      split_ifs at h
      · obtain ⟨-, rfl⟩ := EStateM.Result.ok.inj h
        exact ⟨_, translateAddr_eq_some.mpr ⟨e, he, rfl⟩, rfl⟩
      · cases h

/-- The bytes arrive at their addresses, and nothing else is stored. -/
theorem storeBytes_ok {m m' : Mem} {va : ℕ} {bytes : List UInt8} (hsafe : FrameSafe m)
    (h : storeBytes va bytes m = .ok () m') (a : ℕ) : userByte m' a =
      if va ≤ a ∧ a < va + bytes.length then bytes[a - va]? else userByte m a := by
  induction bytes generalizing va m with
  | nil =>
      obtain ⟨-, rfl⟩ := EStateM.Result.ok.inj h
      rw [if_neg (by simp)]
  | cons b bs ih =>
      obtain ⟨_, t, hb, hbs⟩ := bind_ok h
      obtain ⟨pa, hpa, rfl⟩ := storeByte_ok hb
      have hsafe' : FrameSafe (writePhys pa b m) := hsafe
      rw [ih hsafe' hbs, userByte_writePhys hsafe hpa, List.length_cons]
      by_cases ha : a = va
      · subst ha
        rw [if_neg (by omega), if_pos rfl, if_pos (by omega), Nat.sub_self,
          List.getElem?_cons_zero]
      · rw [if_neg ha]
        by_cases hin : va + 1 ≤ a ∧ a < va + 1 + bs.length
        · rw [if_pos hin, if_pos (by omega), show a - va = (a - (va + 1)) + 1 by omega,
            List.getElem?_cons_succ]
        · rw [if_neg hin, if_neg (by omega)]

theorem storeBytes_returns {m : Mem} {va : ℕ} {bytes : List UInt8}
    (h : ∀ j < bytes.length, ∃ e, m.pt.entries (pageOf (va + j)) = some e ∧
      e.flags.writable = true) : ∃ m', storeBytes va bytes m = .ok () m' := by
  induction bytes generalizing va m with
  | nil => exact ⟨m, rfl⟩
  | cons b bs ih =>
      obtain ⟨e, he, hw⟩ := h 0 (by simp)
      rw [Nat.add_zero] at he
      have hb : storeByte va b m = .ok () (writePhys (e.frame * pageSize + va % pageSize) b m) := by
        simp only [storeByte, bind_run, get_run, he, hw, if_true, modify_run]
      obtain ⟨m', hm'⟩ := @ih (writePhys (e.frame * pageSize + va % pageSize) b m) (va + 1)
        fun j hj => by
          have hmapped := h (j + 1) (by simpa using hj)
          rwa [show va + (j + 1) = va + 1 + j by omega] at hmapped
      exact ⟨m', by rw [storeBytes, bind_of_ok hb, hm']⟩

/-! ## Mapping pages -/

/-- New entries in free places, on frames that were not in use; physical memory
stays as it is. -/
structure Grows (m m' : Mem) : Prop where
  ram : m'.ram = m.ram
  marked : ∀ f, used m.fa f = true → used m'.fa f = true
  entries : ∀ q, m'.pt.entries q = m.pt.entries q ∨
    (m.pt.entries q = none ∧ ∃ e, m'.pt.entries q = some e ∧ used m.fa e.frame = false)

theorem Grows.trans {a b c : Mem} (h : Grows a b) (h' : Grows b c) : Grows a c := by
  refine ⟨h'.ram.trans h.ram, fun f hf => h'.marked f (h.marked f hf), fun q => ?_⟩
  rcases h'.entries q with hsame | ⟨hnone, e, he, hfree⟩
  · rw [hsame]
    exact h.entries q
  · rcases h.entries q with hsame | ⟨-, e', he', -⟩
    · refine .inr ⟨hsame ▸ hnone, e, he, ?_⟩
      cases hused : used a.fa e.frame with
      | false => rfl
      | true => rw [h.marked _ hused] at hfree; cases hfree
    · rw [he'] at hnone
      cases hnone

theorem Grows.of_some {a b : Mem} (h : Grows a b) {q : ℕ} {e : Entry}
    (he : a.pt.entries q = some e) : b.pt.entries q = some e := by
  rcases h.entries q with hsame | ⟨hnone, -⟩
  · rw [hsame, he]
  · rw [he] at hnone
    cases hnone

instance : IsPreorder Mem Grows where
  refl _ := ⟨rfl, fun _ h => h, fun _ => .inl rfl⟩
  trans _ _ _ := Grows.trans

theorem takeFrame_grows (otherwise : Stop) : Within Grows (takeFrame otherwise) := by
  intro m
  unfold takeFrame
  cases ha : allocateFrame m.fa with
  | none => exact refl m
  | some r =>
      refine ⟨rfl, fun f hf => ?_, fun _ => .inl rfl⟩
      show used r.2 f = true
      rw [allocateFrame_used ha, hf, Bool.true_or]

theorem linkTable_grows (page : ℕ) : Within Grows (linkTable page) := by
  refine within_bind (takeFrame_grows _) fun f => within_modify _ fun m => ?_
  exact ⟨rfl, fun _ h => h, fun _ => .inl rfl⟩

theorem linkMissing_grows (w : Walker) (page : ℕ) : Within Grows (linkMissing w page) :=
  within_bind within_get fun _ => within_countLoop (fun _ _ => linkTable_grows page) _ _ _

/-- The frame was free before it was taken for the page. -/
theorem mapTo_grows {w : Walker} {page f : ℕ} {flags : PageTableFlags} {m₀ m : Mem}
    (h : Grows m₀ m) (hentries : m.pt.entries = m₀.pt.entries) (hf : used m₀.fa f = false) :
    Grows m₀ (final (mapTo w page f flags m)) := by
  have hlink := linkMissing_grows w page m
  have hsame := linkMissing_entries w page m
  rw [mapTo, bind_run]
  cases hrun : linkMissing w page m with
  | error e t =>
      rw [hrun] at hlink
      exact h.trans hlink
  | ok _ t =>
      rw [hrun] at hlink hsame
      have ht : Grows m₀ t := h.trans hlink
      have hte : t.pt.entries = m₀.pt.entries := Eq.trans hsame hentries
      rcases writeLeaf_cases w page f flags t with ⟨reason, hleaf⟩ | ⟨hfree, hleaf⟩
      · simpa only [hleaf, final_error] using ht
      · simp only [hleaf, final_ok]
        refine ⟨ht.ram, ht.marked, fun q => ?_⟩
        by_cases hq : q = page
        · subst hq
          exact .inr ⟨hte ▸ hfree, _, Function.update_self .., hf⟩
        · refine .inl ?_
          rw [← hte]
          exact Function.update_of_ne hq _ _

theorem final_mapErr {α : Type} (reason : String) (x : MemM α) (m : Mem) :
    final (mapErr reason x m) = final (x m) := by
  unfold mapErr
  cases x m with
  | ok a t => rfl
  | error e t => cases e <;> rfl

theorem mapNewPage_grows (w : Walker) (page : ℕ) (flags : PageTableFlags) :
    Within Grows (mapNewPage w page flags) := by
  intro m
  have htake := takeFrame_grows (.err "()") m
  rw [mapNewPage, bind_run]
  unfold takeFrame at htake ⊢
  cases ha : allocateFrame m.fa with
  | none => exact refl m
  | some r =>
      rw [ha] at htake
      simp only [final_mapErr]
      exact mapTo_grows htake rfl (allocateFrame_unused ha)

theorem growPage_grows (w : Walker) (flags : PageTableFlags) (page : ℕ) :
    Within Grows (growPage w flags page) :=
  within_bind within_get fun _ => within_ite (within_pure _) (mapNewPage_grows w page flags)

theorem mapBrkGrow_grows (w : Walker) (oldEnd newEnd : ℕ) (flags : PageTableFlags) :
    Within Grows (mapBrkGrow w oldEnd newEnd flags) :=
  within_bind (within_virtAddr _) fun _ => within_bind (within_virtAddr _) fun _ =>
    within_forPages _ _ (growPage_grows w flags)

theorem mapUserAnonPages_grows (w : Walker) (start count : ℕ) (flags : PageTableFlags) :
    Within Grows (mapUserAnonPages w start count flags) :=
  within_countLoop (fun _ _ => within_bind (within_virtAddr _) fun _ =>
    mapNewPage_grows w _ flags) _ _ _

end Rockos.UserMemory
