import Rockos.LoadedPages

/-!
# How the loops over one segment end (elf.rs)

A segment is loaded by two loops: one maps fresh pages, one copies bytes into
them. How each of them ends can be told before it starts. The page loop depends on
the pages that are vacant and on the frames that are left; it gets to its end or
returns an error. The byte loop depends on the file and on what is mapped, and it
also panics where one of its additions overflows or forms an address that is not
canonical.
-/
namespace Rockos.SegmentOutcome
open FallibleState PhysMemory Paging ElfLoader PageEdits FrameAccounts LoadedImage LoadedPages

/-! ## Frames for a list of pages -/

/-- What mapping a page can use up: the free frames, and the missing tables. -/
abbrev Stock := BitmapFrameAllocator × List (ℕ × ℕ)

def stock (m : Mem) : Stock := (m.fa, m.pt.tables)

/-- Frames for `n` tables on the way to a page. -/
def supplyTables (page : ℕ) : (n : ℕ) → Stock → Option Stock
  | 0, s => some s
  | n + 1, s =>
      match allocateFrame s.1 with
      | none => none
      | some (f, fa) => supplyTables page n (fa, (page, f) :: s.2)

/-- Frames for a list of pages, each with the tables it needs. -/
def supply (w : Walker) : List ℕ → Stock → Option Stock
  | [], s => some s
  | page :: rest, s =>
      match allocateFrame s.1 with
      | none => none
      | some (_, fa) =>
          (supplyTables page (w.missing s.2 page) (fa, s.2)).bind (supply w rest)

theorem supply_append (w : Walker) (ps qs : List ℕ) (s : Stock) :
    supply w (ps ++ qs) s = (supply w ps s).bind (supply w qs) := by
  induction ps generalizing s with
  | nil => rfl
  | cons page ps ih =>
      simp only [List.cons_append, supply]
      cases allocateFrame s.1 with
      | none => rfl
      | some r =>
          simp only [Option.bind_assoc]
          congr 1
          funext t
          exact ih t

/-- Linking the tables uses the frames that `supplyTables` counts. -/
theorem linkLoop_stock (page n i : ℕ) (m : Mem) :
    Meets (fun t => t = m) (countLoop (fun _ _ => linkTable page) i n ())
      (fun _ t => supplyTables page n (stock m) = some (stock t) ∧ t.pt.entries = m.pt.entries)
      (fun e t => (∃ reason, e = .err reason) ∧ supplyTables page n (stock m) = none ∧
        t.pt.entries = m.pt.entries) := by
  induction n generalizing i m with
  | zero =>
      apply meets_pure
      intro t ht
      rw [ht]
      exact ⟨rfl, rfl⟩
  | succ n ih =>
      intro t ht
      rw [ht]
      unfold countLoop
      cases halloc : allocateFrame m.fa with
      | none =>
          have hrun : linkTable page m = .error (.err "FrameAllocationFailed") m := by
            simp [linkTable, bind_run, takeFrame, halloc]
          rw [bind_of_error hrun]
          exact ⟨⟨_, rfl⟩, by simp [supplyTables, stock, halloc], rfl⟩
      | some r =>
          have hrun : linkTable page m = .ok ()
              { m with fa := r.2, pt := { m.pt with tables := (page, r.1) :: m.pt.tables } } := by
            simp [linkTable, bind_run, takeFrame, halloc]
          have hsupply : supplyTables page (n + 1) (stock m) =
              supplyTables page n (r.2, (page, r.1) :: m.pt.tables) := by
            simp [supplyTables, stock, halloc]
          rw [bind_of_ok hrun, hsupply]
          exact ih (i + 1) _ _ rfl

/-- With a steady walker the leaf is written exactly if the page is vacant. -/
theorem writeLeaf_outcome {w : Walker} (hw : Steady w) (page frame : ℕ) (flags : PageTableFlags)
    (m : Mem) :
    Vacant w m.pt.entries page ∧
        writeLeaf w page frame flags m = .ok () (setEntry page (some ⟨frame, flags⟩) m) ∨
      ¬ Vacant w m.pt.entries page ∧ ∃ reason,
        writeLeaf w page frame flags m = .error (.err reason) m := by
  by_cases hvacant : Vacant w m.pt.entries page
  · left
    have hopen := hw.blocked hvacant.clear m.pt.tables
    exact ⟨hvacant, by simp [writeLeaf, bind_run, hopen, hvacant.free]⟩
  · right
    refine ⟨hvacant, ?_⟩
    rcases writeLeaf_cases w page frame flags m with herror | ⟨hfree, hrun⟩
    · exact herror
    · cases hb : w.blocked m.pt.tables page with
      | false => exact absurd ⟨hfree, _, hb⟩ hvacant
      | true => simp [writeLeaf, bind_run, hb] at hrun

theorem mapTo_outcome {w : Walker} (hw : Steady w) (page frame : ℕ) (flags : PageTableFlags)
    (m : Mem) :
    Meets (fun t => t = m) (mapTo w page frame flags)
      (fun _ t => supplyTables page (w.missing m.pt.tables page) (stock m) = some (stock t) ∧
        Vacant w m.pt.entries page ∧
        t.pt.entries = Function.update m.pt.entries page (some ⟨frame, flags⟩))
      (fun e t => (∃ reason, e = .err reason) ∧ (¬ Vacant w m.pt.entries page ∨
        supplyTables page (w.missing m.pt.tables page) (stock m) = none) ∧
        t.pt.entries = m.pt.entries) := by
  intro t ht
  rw [ht, mapTo, linkMissing, bind_assoc, bind_run, get_run]
  refine meets_bind ((linkLoop_stock page (w.missing m.pt.tables page) 0 m).mono
    (fun _ h => h) (fun _ _ h => h) (fun _ _ h => ⟨h.1, .inr h.2.1, h.2.2⟩)) ?_ m rfl
  intro _ s hs
  rcases writeLeaf_outcome hw page frame flags s with ⟨hvacant, hrun⟩ | ⟨hvacant, reason, hrun⟩
  · rw [hrun]
    rw [hs.2] at hvacant
    refine ⟨hs.1, hvacant, ?_⟩
    rw [← hs.2]
    rfl
  · rw [hrun]
    rw [hs.2] at hvacant
    exact ⟨⟨reason, rfl⟩, .inl hvacant, hs.2⟩

theorem meets_mapErr_reports {α : Type} {P : Mem → Prop} {Q : α → Mem → Prop} {I : Mem → Prop}
    {reason : String} {x : MemM α}
    (h : Meets P x Q fun e t => (∃ reason, e = .err reason) ∧ I t) :
    Meets P (mapErr reason x) Q fun e t => (∃ reason, e = .err reason) ∧ I t := by
  intro m hm
  have hx := h m hm
  unfold mapErr
  cases hr : x m with
  | ok a t =>
      rw [hr] at hx
      exact hx
  | error e t =>
      rw [hr] at hx
      obtain ⟨⟨inner, rfl⟩, hI⟩ := hx
      exact ⟨⟨reason, rfl⟩, hI⟩

/-- A fresh page is mapped exactly if it is vacant and the frames suffice. -/
theorem zeroedPage_outcome {w : Walker} (hw : Steady w) (page : ℕ) (flags : PageTableFlags)
    (m : Mem) :
    Meets (fun t => t = m) (zeroedPage w page flags)
      (fun _ t => supply w [page] (stock m) = some (stock t) ∧ Vacant w m.pt.entries page ∧
        ∃ f, t.pt.entries = Function.update m.pt.entries page (some ⟨f, flags⟩))
      (fun e t => (∃ reason, e = .err reason) ∧
        (¬ Vacant w m.pt.entries page ∨ supply w [page] (stock m) = none) ∧
        t.pt.entries = m.pt.entries) := by
  intro t ht
  rw [ht]
  cases halloc : allocateFrame m.fa with
  | none =>
      have hrun : takeFrame (.err "frame OOM") m = .error (.err "frame OOM") m := by
        simp [takeFrame, halloc]
      rw [zeroedPage, bind_of_error hrun]
      exact ⟨⟨_, rfl⟩, .inr (by simp [supply, stock, halloc]), rfl⟩
  | some r =>
      have hrun : takeFrame (.err "frame OOM") m = .ok r.1 { m with fa := r.2 } := by
        simp [takeFrame, halloc]
      have hsupply : supply w [page] (stock m) =
          supplyTables page (w.missing m.pt.tables page) (r.2, m.pt.tables) := by
        simp only [supply, stock, halloc]
        cases supplyTables page (w.missing m.pt.tables page) (r.2, m.pt.tables) <;> rfl
      rw [zeroedPage, bind_of_ok hrun, bind_of_ok (modify_run _ _), hsupply]
      refine meets_mapErr_reports ((mapTo_outcome hw page r.1 flags _).mono (fun _ h => h) ?_
        (fun _ _ h => h)) (zeroFrame r.1 { m with fa := r.2 }) rfl
      intro _ t hmapped
      exact ⟨hmapped.1, hmapped.2.1, r.1, hmapped.2.2⟩

/-! ## What the loader meets at a header -/

/-- All that the outcome of a header depends on, apart from the file: the pages
that can be mapped, those that are mapped, and the lists of pages for which the
frames suffice. -/
@[ext]
structure View where
  vacant : ℕ → Prop
  mapped : ℕ → Prop
  affords : List ℕ → Prop
  fewer : ∀ ps qs, affords (ps ++ qs) → affords ps

/-- What a header meets that is processed in memory `m`. -/
def here (w : Walker) (m : Mem) : View where
  vacant := Vacant w m.pt.entries
  mapped q := (m.pt.entries q).isSome
  affords ps := (supply w ps (stock m)).isSome
  fewer ps qs h := by
    rw [supply_append] at h
    cases hps : supply w ps (stock m) with
    | none => simp [hps] at h
    | some s => rfl

/-- The two ways to end early: a panic for the first reason, or an error that is
returned and leaves memory as the second says. -/
def Ends (panics : Prop) (fails : Mem → Prop) (e : Stop) (t : Mem) : Prop :=
  e = .panic ∧ panics ∨ (∃ reason, e = .err reason) ∧ fails t

theorem Ends.mono {p p' : Prop} {f f' : Mem → Prop} {e : Stop} {t : Mem} (hp : p → p')
    (hf : f t → f' t) (h : Ends p f e t) : Ends p' f' e t :=
  h.imp (And.imp_right hp) (And.imp_right hf)

/-! ## The pages of a segment -/

section Pages
variable (v : View) (ps done : List ℕ)

/-- All pages of the list can be mapped, one after the other. -/
def PagesPass : Prop := (∀ q ∈ ps, v.vacant q) ∧ v.affords ps

/-- The pages `done` of the list can be mapped, and the next one cannot. -/
def PagesFail : Prop :=
  ∃ page rest, ps = done ++ page :: rest ∧ PagesPass v done ∧ ¬ PagesPass v (done ++ [page])

variable {v ps done}

theorem PagesPass.initial {rest : List ℕ} (h : PagesPass v (done ++ rest)) : PagesPass v done :=
  ⟨fun q hq => h.1 q (List.mem_append_left _ hq), v.fewer _ _ h.2⟩

theorem PagesPass.not_fail (h : PagesPass v ps) : ¬ PagesFail v ps done := by
  rintro ⟨page, rest, hps, -, hnot⟩
  rw [hps, ← List.singleton_append, ← List.append_assoc] at h
  exact hnot h.initial

/-- The first page that cannot be mapped is at one place in the list. -/
theorem PagesFail.unique {done' : List ℕ} (h : PagesFail v ps done) (h' : PagesFail v ps done') :
    done = done' := by
  have hshorter : ∀ {done done'}, PagesFail v ps done → PagesFail v ps done' → done <+: done' →
      done = done' := by
    rintro done done' ⟨page, rest, hps, -, hnot⟩ ⟨page', rest', hps', hpass, -⟩ ⟨more, rfl⟩
    cases more with
    | nil => exact (List.append_nil _).symm
    | cons next more =>
        rw [hps, List.append_assoc, List.append_cancel_left_eq, List.cons_append,
          List.cons.injEq] at hps'
        rw [← hps'.1, ← List.singleton_append, ← List.append_assoc] at hpass
        exact absurd hpass.initial hnot
  obtain ⟨page, rest, hps, -⟩ := id h
  obtain ⟨page', rest', hps', -⟩ := id h'
  have hpre : done <+: ps := ⟨_, hps.symm⟩
  have hpre' : done' <+: ps := ⟨_, hps'.symm⟩
  rcases List.prefix_or_prefix_of_prefix hpre hpre' with hle | hle
  · exact hshorter h h' hle
  · exact (hshorter h' h hle).symm

end Pages

/-- The loop over the pages of a segment has mapped the pages `done`. -/
structure AtPage (w : Walker) (flags : PageTableFlags) (m : Mem) (done : List ℕ) (t : Mem) :
    Prop where
  maps : Maps w done flags m.pt.entries t.pt.entries
  frames : supply w done (stock m) = some (stock t)

section
variable {w : Walker} {first last page : ℕ} {done rest : List ℕ} {flags : PageTableFlags}
  {m t : Mem}

theorem AtPage.vacant_iff (h : AtPage w flags m done t) (hnew : page ∉ done) :
    Vacant w t.pt.entries page ↔ Vacant w m.pt.entries page := by
  have hsame := h.maps.others page hnew
  constructor
  · intro hvacant
    exact ⟨by rw [← hsame, hvacant.free], hvacant.clear⟩
  · intro hvacant
    exact ⟨by rw [hsame, hvacant.free], hvacant.clear⟩

theorem AtPage.supply_next (h : AtPage w flags m done t) :
    supply w (done ++ [page]) (stock m) = supply w [page] (stock t) := by
  rw [supply_append, h.frames]
  rfl

theorem AtPage.passed (h : AtPage w flags m done t) : PagesPass (here w m) done :=
  ⟨h.maps.vacant, Option.isSome_of_mem h.frames⟩

/-- One page of the loop. -/
theorem AtPage.step (hw : Steady w) (h : AtPage w flags m done t) (hnew : page ∉ done) :
    Meets (fun t' => t' = t) (zeroedPage w page flags)
      (fun _ => AtPage w flags m (done ++ [page]))
      (fun e t' => (∃ reason, e = .err reason) ∧ ¬ PagesPass (here w m) (done ++ [page]) ∧
        Maps w done flags m.pt.entries t'.pt.entries) := by
  apply (zeroedPage_outcome hw page flags t).mono (fun _ h => h)
  · intro _ t' hdone
    obtain ⟨hsupply, hvacant, f, hentries⟩ := hdone
    constructor
    · rw [hentries]
      exact h.maps.next hnew hvacant f
    · exact h.supply_next.trans hsupply
  · rintro e t' ⟨herr, hstop, hentries⟩
    refine ⟨herr, fun hpass => ?_, by rw [hentries]; exact h.maps⟩
    rcases hstop with hnot | hnone
    · exact hnot ((h.vacant_iff hnew).mpr
        (hpass.1 page (List.mem_append_right _ (List.mem_singleton_self page))))
    · have hnext : (supply w (done ++ [page]) (stock m)).isSome := hpass.2
      rw [h.supply_next, hnone] at hnext
      cases hnext

theorem mapSegment_outcome (hw : Steady w) (hfirst : CanonicalPage first)
    (hlast : CanonicalPage last) (flags : PageTableFlags) (m : Mem) :
    Meets (fun t => t = m) (mapSegment w first last flags)
      (fun _ t => PagesPass (here w m) (pageList first last) ∧
        supply w (pageList first last) (stock m) = some (stock t))
      (fun e t => (∃ reason, e = .err reason) ∧ ∃ done,
        PagesFail (here w m) (pageList first last) done ∧
          Maps w done flags m.pt.entries t.pt.entries) := by
  refine (meets_forPages_list (fun page => zeroedPage w page flags) hfirst hlast
    (AtPage w flags m) ?_).mono ?_ ?_ (fun _ _ h => h)
  · intro done page rest hsplit t h
    apply (h.step hw (not_mem_before hsplit)).mono (fun _ ht => ht) (fun _ _ h => h) ?_ t rfl
    rintro e t' ⟨herr, hnot, hmaps⟩
    exact ⟨herr, done, ⟨page, rest, hsplit, h.passed, hnot⟩, hmaps⟩
  · intro t ht
    rw [ht]
    exact ⟨Maps.nil, rfl⟩
  · intro _ t h
    exact ⟨h.passed, h.frames⟩

end

/-! ## The bytes of a segment -/

section Bytes
variable (image : List UInt8) (ph : ProgramHeader) (mapped : ℕ → Prop)

def BytesPass : Prop := ∀ j < ph.filesz, ByteReady image ph mapped j ∧ ¬ ByteOverflows image ph j

def BytesPanic : Prop :=
  ∃ j < ph.filesz, ByteOverflows image ph j ∧ ∀ k < j, ByteReady image ph mapped k

def BytesFail : Prop :=
  ∃ j < ph.filesz, ¬ ByteReady image ph mapped j ∧ ∀ k ≤ j, ¬ ByteOverflows image ph k

variable {image ph mapped}

theorem BytesPass.not_panic (h : BytesPass image ph mapped) : ¬ BytesPanic image ph mapped := by
  rintro ⟨j, hj, hover, -⟩
  exact (h j hj).2 hover

theorem BytesPass.not_fail (h : BytesPass image ph mapped) : ¬ BytesFail image ph mapped := by
  rintro ⟨j, hj, hnot, -⟩
  exact hnot (h j hj).1

theorem BytesPanic.not_fail (h : BytesPanic image ph mapped) : ¬ BytesFail image ph mapped := by
  obtain ⟨j, hj, hover, hready⟩ := h
  rintro ⟨k, hk, hnot, hquiet⟩
  rcases Nat.lt_or_ge k j with hlt | hge
  · exact hnot (hready k hlt)
  · exact hquiet j hge hover

end Bytes

/-- The copy loop has got to byte `j`. -/
structure AtByte (image : List UInt8) (ph : ProgramHeader) (m : Mem) (j : ℕ) (t : Mem) :
    Prop where
  fa : t.fa = m.fa
  pt : t.pt = m.pt
  ready : ∀ k < j, ByteReady image ph (Present m) k
  quiet : ∀ k < j, ¬ ByteOverflows image ph k

section
variable {image : List UInt8} {ph : ProgramHeader} {m t : Mem} {j : ℕ}

theorem AtByte.start (m : Mem) : AtByte image ph m 0 m :=
  ⟨rfl, rfl, fun k hk => absurd hk (Nat.not_lt_zero k), fun k hk => absurd hk (Nat.not_lt_zero k)⟩

theorem AtByte.present (h : AtByte image ph m j t) : Present t = Present m := by
  funext q
  rw [Present, h.pt, Present]

theorem AtByte.quiet_le (h : AtByte image ph m j t) (hover : ¬ ByteOverflows image ph j) :
    ∀ k ≤ j, ¬ ByteOverflows image ph k := by
  intro k hk
  rcases Nat.lt_or_eq_of_le hk with hlt | rfl
  · exact h.quiet k hlt
  · exact hover

theorem AtByte.next (h : AtByte image ph m j t) (hover : ¬ ByteOverflows image ph j)
    (hready : ByteReady image ph (Present m) j) (phys : ℕ) (b : UInt8) :
    AtByte image ph m (j + 1) (writePhys phys b t) := by
  constructor
  · exact h.fa
  · exact h.pt
  · intro k hk
    rcases Nat.lt_succ_iff_lt_or_eq.mp hk with hlt | rfl
    · exact h.ready k hlt
    · exact hready
  · intro k hk
    exact h.quiet_le hover k (Nat.le_of_lt_succ hk)

variable (image ph m)

theorem copySegment_outcome :
    Meets (fun t => t = m) (copySegment image ph.vaddr ph.offset ph.filesz)
      (fun _ t => BytesPass image ph (Present m) ∧ stock t = stock m)
      (Ends (BytesPanic image ph (Present m))
        fun t => BytesFail image ph (Present m) ∧ t.pt = m.pt) := by
  rw [copySegment]
  refine (meets_countLoop (fun j _ => AtByte image ph m j) 0 ph.filesz () ?_).mono ?_ ?_
    (fun _ _ h => h)
  · intro j _ _ hj t h
    rw [Nat.zero_add] at hj
    by_cases hover : ByteOverflows image ph j
    · rw [copySegmentByte_of_overflow hover]
      exact .inl ⟨rfl, j, hj, hover, h.ready⟩
    · have hcases := copySegmentByte_of_not_overflow hover t
      rw [h.present] at hcases
      rcases hcases with ⟨hnot, reason, hrun⟩ | ⟨hready, phys, -, hrun⟩
      · rw [hrun]
        exact .inr ⟨⟨reason, rfl⟩, ⟨j, hj, hnot, h.quiet_le hover⟩, h.pt⟩
      · rw [hrun]
        exact h.next hover hready _ _
  · intro t ht
    rw [ht]
    exact AtByte.start m
  · intro _ t h
    rw [Nat.zero_add] at h
    refine ⟨fun j hj => ⟨h.ready j hj, h.quiet j hj⟩, ?_⟩
    rw [stock, h.fa, h.pt, stock]

end

end Rockos.SegmentOutcome
