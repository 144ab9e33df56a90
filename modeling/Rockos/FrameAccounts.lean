import Rockos.PageEdits

/-!
# What a mapping costs

`map_to` takes a frame for every table that is missing on the way to its page,
and keeps the tables it has linked when it fails. Here its exits are described
completely: a page that is free and can be reached is mapped, as long as there
are frames, and the frames that disappear are the ones that became tables.
-/
namespace Rockos.FrameAccounts
open FallibleState PhysMemory Paging PageEdits

/-- The number of frames that can still be allocated. -/
def spare (m : Mem) : ℕ := countFree m.fa.bitmap

theorem takeFrame_counts (otherwise : Stop) (m : Mem) :
    (spare m = 0 ∧ takeFrame otherwise m = .error otherwise m) ∨
    (∃ f fa, allocateFrame m.fa = some (f, fa) ∧
      takeFrame otherwise m = .ok f { m with fa := fa } ∧
      spare { m with fa := fa } + 1 = spare m) := by
  unfold takeFrame
  cases ha : allocateFrame m.fa with
  | none => exact .inl ⟨allocateFrame_eq_none.mp ha, rfl⟩
  | some r => exact .inr ⟨r.1, r.2, rfl, rfl, allocateFrame_countFree ha⟩

theorem linkTable_counts (page : ℕ) (m : Mem) :
    (spare m = 0 ∧ linkTable page m = .error (.err "FrameAllocationFailed") m) ∨
    (∃ m', linkTable page m = .ok () m' ∧ spare m' + 1 = spare m ∧
      m'.pt.tables.length = m.pt.tables.length + 1 ∧ m'.pt.entries = m.pt.entries) := by
  rw [linkTable, bind_run]
  rcases takeFrame_counts (.err "FrameAllocationFailed") m with ⟨hzero, hrun⟩ | ⟨f, fa, -, hrun, hc⟩
  · rw [hrun]
    exact .inl ⟨hzero, rfl⟩
  · rw [hrun]
    exact .inr ⟨_, rfl, hc, rfl, rfl⟩

/-- Frames that are free or have become tables of this kernel. -/
def balance (m : Mem) : ℕ := spare m + m.pt.tables.length

def SameBalance (m m' : Mem) : Prop := balance m' = balance m

instance : IsPreorder Mem SameBalance where
  refl _ := rfl
  trans _ _ _ h k := k.trans h

/-- Whatever `map_to` takes becomes a table, also when it fails. -/
theorem mapTo_balance (w : Walker) (page frame : ℕ) (flags : PageTableFlags) :
    Within SameBalance (mapTo w page frame flags) := by
  have hlink : Within SameBalance (linkTable page) := by
    intro m
    rcases linkTable_counts page m with ⟨-, hrun⟩ | ⟨m', hrun, hspare, hlen, -⟩
    · rw [hrun]
      exact refl m
    · rw [hrun]
      show balance m' = balance m
      rw [balance, balance]
      omega
  refine within_bind (within_bind within_get fun _ => within_countLoop (fun _ _ => hlink) _ _ _)
    fun _ m => ?_
  rcases writeLeaf_cases w page frame flags m with ⟨reason, hrun⟩ | ⟨-, hrun⟩
  · rw [hrun]
    exact refl m
  · rw [hrun]
    rfl

/-- A new page costs one frame and its tables. -/
theorem mapNewPage_balance {w : Walker} {page : ℕ} {flags : PageTableFlags} {m m' : Mem}
    (h : mapNewPage w page flags m = .ok () m') : balance m' + 1 = balance m := by
  obtain ⟨f, m₁, htake, hmap⟩ := bind_ok h
  rcases takeFrame_counts (.err "()") m with ⟨-, hrun⟩ | ⟨g, fa, -, hrun, hcount⟩
  · rw [hrun] at htake
    cases htake
  · rw [hrun] at htake
    obtain ⟨-, rfl⟩ := EStateM.Result.ok.inj htake
    have hsame : balance m' = balance { m with fa := fa } :=
      (mapTo_balance w page f flags).ok (mapErr_ok hmap)
    rw [hsame, balance, balance]
    have htables : ({ m with fa := fa } : Mem).pt.tables = m.pt.tables := rfl
    rw [htables]
    omega

/-! ## The exits of `map_to` -/

/-- Some state of the tables lets the walk through to the page. -/
def Clear (w : Walker) (page : ℕ) : Prop := ∃ tables, w.blocked tables page = false

/-- In some state of the tables a huge page is in the way. -/
def Shut (w : Walker) (page : ℕ) : Prop := ∃ tables, w.blocked tables page = true

/-- The kernel links no huge pages, so a path is blocked always or never. -/
def Steady (w : Walker) : Prop := ∀ tables page, w.blocked tables page = w.blocked [] page

/-- `map_to` would find the leaf free. -/
structure Vacant (w : Walker) (E : ℕ → Option Entry) (page : ℕ) : Prop where
  free : E page = none
  clear : Clear w page

/-- `map_to` would be refused. -/
def Refused (w : Walker) (E : ℕ → Option Entry) (page : ℕ) : Prop :=
  (E page).isSome ∨ Shut w page

theorem Steady.blocked {w : Walker} (hw : Steady w) {page : ℕ} (h : Clear w page)
    (tables : List (ℕ × ℕ)) : w.blocked tables page = false := by
  obtain ⟨tables', h⟩ := h
  rw [hw, ← hw tables', h]

theorem Steady.refused_iff {w : Walker} (hw : Steady w) {E : ℕ → Option Entry} {page : ℕ} :
    Refused w E page ↔ ¬ Vacant w E page := by
  constructor
  · rintro (hsome | ⟨tables, hshut⟩) hvacant
    · rw [hvacant.free] at hsome
      cases hsome
    · rw [hw.blocked hvacant.clear] at hshut
      cases hshut
  · intro hnot
    cases hE : E page with
    | some e => exact .inl (by simp [hE])
    | none =>
        refine .inr ⟨[], ?_⟩
        by_contra hopen
        exact hnot ⟨hE, [], by simpa using hopen⟩

section
variable (w : Walker) (page f : ℕ) (flags : PageTableFlags) {E : ℕ → Option Entry}

theorem linkMissing_meets : Meets (fun m => m.pt.entries = E) (linkMissing w page)
    (fun _ m => m.pt.entries = E) (fun _ m => m.pt.entries = E ∧ spare m = 0) := by
  intro m hm
  rw [linkMissing, bind_run, get_run]
  refine meets_countLoop (fun _ _ m => m.pt.entries = E) 0 _ () ?_ m hm
  intro i _ _ _ s hs
  rcases linkTable_counts page s with ⟨hzero, hrun⟩ | ⟨s', hrun, -, -, hentries⟩
  · rw [hrun]
    exact ⟨hs, hzero⟩
  · rw [hrun]
    exact hentries.trans hs

theorem mapTo_meets : Meets (fun m => m.pt.entries = E) (mapTo w page f flags)
    (fun _ m => Vacant w E page ∧ m.pt.entries = Function.update E page (some ⟨f, flags⟩))
    (fun _ m => m.pt.entries = E ∧ (Refused w E page ∨ spare m = 0)) := by
  refine meets_bind ((linkMissing_meets w page).mono (fun _ h => h) (fun _ _ h => h)
    fun _ _ h => ⟨h.1, .inr h.2⟩) fun _ => ?_
  intro m hm
  cases hb : w.blocked m.pt.tables page with
  | true =>
      have hrun : writeLeaf w page f flags m = .error (.err "ParentEntryHugePage") m := by
        simp [writeLeaf, bind_run, hb]
      rw [hrun]
      exact ⟨hm, .inl (.inr ⟨_, hb⟩)⟩
  | false =>
      rcases writeLeaf_cases w page f flags m with ⟨reason, hrun⟩ | ⟨hfree, hrun⟩
      · rw [hrun]
        refine ⟨hm, .inl (.inl ?_)⟩
        cases hp : m.pt.entries page with
        | some e => simp [← hm, hp]
        | none => simp [writeLeaf, bind_run, hb, hp] at hrun
      · rw [hrun]
        exact ⟨⟨by rw [← hm, hfree], _, hb⟩, by simp [setEntry, hm]⟩

end

/-- `map_to` reports its failures and never panics. -/
theorem mapTo_reports (w : Walker) (page f : ℕ) (flags : PageTableFlags) :
    Meets (fun _ => True) (mapTo w page f flags) (fun _ _ => True)
      (fun e _ => ∃ reason, e = .err reason) := by
  have hlink : Meets (fun _ => True) (linkMissing w page) (fun _ _ => True)
      (fun e _ => ∃ reason, e = .err reason) := by
    intro m _
    rw [linkMissing, bind_run, get_run]
    refine meets_countLoop (fun _ _ _ => True) 0 _ () ?_ m trivial
    intro i _ _ _ s _
    rcases linkTable_counts page s with ⟨-, hrun⟩ | ⟨s', hrun, -⟩
    · rw [hrun]
      exact ⟨_, rfl⟩
    · rw [hrun]
      trivial
  apply meets_bind hlink
  intro _ m _
  rcases writeLeaf_cases w page f flags m with ⟨reason, hrun⟩ | ⟨-, hrun⟩
  · rw [hrun]
    exact ⟨reason, rfl⟩
  · rw [hrun]
    trivial

theorem mapNewPage_reports {w : Walker} {page : ℕ} {flags : PageTableFlags} {m t : Mem} {e : Stop}
    (h : mapNewPage w page flags m = .error e t) : e = .err "()" := by
  rcases takeFrame_counts (.err "()") m with ⟨-, hrun⟩ | ⟨f, fa, -, hrun, -⟩
  · rw [mapNewPage, bind_of_error hrun] at h
    cases h
    rfl
  · rw [mapNewPage, bind_of_ok hrun, mapErr] at h
    have hreports := mapTo_reports w page f flags { m with fa := fa } trivial
    cases hmap : mapTo w page f flags { m with fa := fa } with
    | ok _ s =>
        rw [hmap] at h
        cases h
    | error e' s =>
        rw [hmap] at h hreports
        obtain ⟨reason, rfl⟩ := hreports
        cases h
        rfl

/-- Enough frames for the missing tables, and the page is mapped. -/
theorem mapTo_returns {w : Walker} (hw : Steady w) {page : ℕ} {m : Mem}
    (hvacant : Vacant w m.pt.entries page) (hframes : w.missing m.pt.tables page ≤ spare m)
    (f : ℕ) (flags : PageTableFlags) : ∃ m', mapTo w page f flags m = .ok () m' ∧
      m'.pt.entries = Function.update m.pt.entries page (some ⟨f, flags⟩) := by
  have hlink : Meets (fun s => s = m) (linkMissing w page)
      (fun _ s => s.pt.entries = m.pt.entries) (fun _ _ => False) := by
    rintro s rfl
    rw [linkMissing, bind_run, get_run]
    -- after `i` tables, `i` frames are gone
    refine (meets_countLoop (fun i _ t => t.pt.entries = s.pt.entries ∧ spare t + i = spare s)
      0 _ () ?_).mono (fun _ h => h) (fun _ _ h => h.1) (fun _ _ h => h) s ⟨rfl, Nat.add_zero _⟩
    rintro i _ - hi t ⟨ht, hcount⟩
    rcases linkTable_counts page t with ⟨hzero, -⟩ | ⟨t', hrun, hless, -, hentries⟩
    · omega
    · rw [hrun]
      exact ⟨hentries.trans ht, by omega⟩
  obtain ⟨_, s, hrun, hs⟩ := hlink.returns rfl
  refine ⟨setEntry page (some ⟨f, flags⟩) s, ?_, by simp [setEntry, hs]⟩
  rw [mapTo, bind_of_ok hrun]
  simp [writeLeaf, bind_run, hw.blocked hvacant.clear, hs, hvacant.free]

theorem linkMissing_spare {w : Walker} {page : ℕ} {m m' : Mem}
    (h : linkMissing w page m = .ok () m') : spare m' + w.missing m.pt.tables page = spare m := by
  rw [linkMissing, bind_run, get_run] at h
  have hloop := countLoop_ok (fun i _ t => spare t + i = spare m) h (Nat.add_zero _) ?_
  · rwa [Nat.zero_add] at hloop
  · intro i _ s _ t _ _ hs hrun
    rcases linkTable_counts page s with ⟨-, herr⟩ | ⟨t', hok, hless, -, -⟩
    · rw [herr] at hrun
      cases hrun
    · rw [hok] at hrun
      obtain ⟨-, rfl⟩ := EStateM.Result.ok.inj hrun
      omega

/-- A new page can be mapped exactly if it is free and reachable, with a frame
for it and for every table that is missing. -/
theorem mapNewPage_returns_iff {w : Walker} (hw : Steady w) {page : ℕ} {flags : PageTableFlags}
    {m : Mem} : (∃ m', mapNewPage w page flags m = .ok () m') ↔
      Vacant w m.pt.entries page ∧ w.missing m.pt.tables page < spare m := by
  rcases takeFrame_counts (.err "()") m with ⟨hzero, hrun⟩ | ⟨f, fa, -, hrun, hcount⟩
  · apply iff_of_false
    · rintro ⟨m', hok⟩
      rw [mapNewPage, bind_of_error hrun] at hok
      cases hok
    · omega
  · rw [mapNewPage, bind_of_ok hrun]
    constructor
    · rintro ⟨m', hok⟩
      have hmap := mapErr_ok hok
      have hvacant := mapTo_meets w page f flags (E := m.pt.entries) { m with fa := fa } rfl
      rw [hmap] at hvacant
      obtain ⟨_, m₂, hlink, -⟩ := bind_ok hmap
      have hspare := linkMissing_spare hlink
      refine ⟨hvacant.1, ?_⟩
      show w.missing ({ m with fa := fa } : Mem).pt.tables page < spare m
      omega
    · rintro ⟨hvacant, hframes⟩
      obtain ⟨m', hmap, -⟩ := mapTo_returns hw (m := { m with fa := fa }) hvacant
        (show w.missing m.pt.tables page ≤ _ by omega) f flags
      exact ⟨m', by rw [mapErr, hmap]⟩

end Rockos.FrameAccounts
