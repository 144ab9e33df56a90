import Rockos.AddressSpace
import Rockos.ElfLoader
import Rockos.InitialStack

/-!
# The initial stack of a program (elf.rs)

`build_exec_stack` reserves all tables, emits the strings, environment before
arguments, and then goes back to fill in the tables. The result is the table of
words that the System V ABI prescribes, padding, and the strings; so a program
that reads its stack by the rules of the ABI finds what `execve` was given.
-/
namespace Rockos.ExecStack
open FallibleState PhysMemory Paging ElfLoader InitialStack

/-! ## Numbers and padding -/

@[simp] theorem length_leBytes (n x : ℕ) : (leBytes n x).length = n := by
  induction n generalizing x with
  | zero => rfl
  | succ n ih => rw [leBytes, List.length_cons, ih]

theorem leNat_leBytes (n x : ℕ) : leNat (leBytes n x) = x % 256 ^ n := by
  induction n generalizing x with
  | zero => rw [leBytes, leNat, pow_zero, Nat.mod_one]
  | succ n ih =>
      have hmod : x % 256 ^ (n + 1) = x % 256 + 256 * (x / 256 % 256 ^ n) := by
        rw [pow_succ', Nat.mod_mul]
      rw [leBytes, leNat, ih, UInt8.toNat_ofNat', hmod]

theorem leNat_word {x : ℕ} (hx : x < 2 ^ 64) : leNat (leBytes 8 x) = x := by
  rw [leNat_leBytes, Nat.mod_eq_of_lt (by omega)]

@[simp] theorem length_zeros (n : ℕ) : (zeros n).length = n := List.length_replicate

theorem zeros_add (m n : ℕ) : zeros (m + n) = zeros m ++ zeros n := List.replicate_add m n 0

theorem leBytes_zero : leBytes 8 0 = zeros 8 := by decide

/-- What stands before the padded part does not matter if it is aligned. -/
theorem padTo_append {a : ℕ} {v : List UInt8} (hv : v.length % a = 0) (xs : List UInt8) :
    padTo a (v ++ xs) = v ++ padTo a xs := by
  unfold padTo
  rw [List.length_append, Nat.add_mod, hv, Nat.zero_add, Nat.mod_mod, List.append_assoc]

theorem length_padTo_eight (v : List UInt8) :
    (padTo 8 v).length = AddressSpace.alignUp v.length 8 := by
  unfold padTo AddressSpace.alignUp
  rw [List.length_append, length_zeros]
  omega

theorem length_padTo_sixteen (v : List UInt8) :
    (padTo 16 v).length = AddressSpace.alignUp v.length 16 := by
  unfold padTo AddressSpace.alignUp
  rw [List.length_append, length_zeros]
  omega

/-! ## The strings -/

/-- A string with its terminator and padding. -/
def chunk (s : List UInt8) : List UInt8 := padTo 8 (s ++ [0])

def stringBlock (strs : List (List UInt8)) : List UInt8 := strs.flatMap chunk

theorem stringBlock_append (xs ys : List (List UInt8)) :
    stringBlock (xs ++ ys) = stringBlock xs ++ stringBlock ys := List.flatMap_append

theorem stringBlock_cons (s : List UInt8) (strs : List (List UInt8)) :
    stringBlock (s :: strs) = chunk s ++ stringBlock strs := List.flatMap_cons

/-- The addresses of the strings of a block that lies at `base`. -/
def addresses : (base : ℕ) → (strs : List (List UInt8)) → List ℕ
  | _, [] => []
  | base, s :: strs => base :: addresses (base + (chunk s).length) strs

theorem length_addresses (base : ℕ) (strs : List (List UInt8)) :
    (addresses base strs).length = strs.length := by
  induction strs generalizing base with
  | nil => rfl
  | cons s strs ih => rw [addresses, List.length_cons, ih, List.length_cons]

theorem addresses_append (base : ℕ) (xs ys : List (List UInt8)) :
    addresses base (xs ++ ys) =
      addresses base xs ++ addresses (base + (stringBlock xs).length) ys := by
  induction xs generalizing base with
  | nil => rfl
  | cons s xs ih =>
      rw [List.cons_append, addresses, ih, addresses, List.cons_append, stringBlock_cons,
        List.length_append, ← Nat.add_assoc]

theorem mem_addresses {base x : ℕ} {strs : List (List UInt8)} (h : x ∈ addresses base strs) :
    base ≤ x ∧ x ≤ base + (stringBlock strs).length := by
  induction strs generalizing base with
  | nil => cases h
  | cons s strs ih =>
      rw [stringBlock_cons, List.length_append]
      cases List.mem_cons.mp h with
      | inl heq => omega
      | inr hrest =>
          have hbound := ih hrest
          omega

theorem length_chunk (s : List UInt8) :
    (chunk s).length = AddressSpace.alignUp (s.length + 1) 8 := by
  rw [chunk, length_padTo_eight, List.length_append, List.length_singleton]

theorem pushStrings (lo : ℕ) (strs : List (List UInt8)) (v : List UInt8) (offs : List ℕ)
    (hv : v.length % 8 = 0) : strs.foldl (pushString lo) (v, offs) =
      (v ++ stringBlock strs, offs ++ addresses (lo + v.length) strs) := by
  induction strs generalizing v offs with
  | nil => simp [stringBlock, addresses]
  | cons s strs ih =>
      have hpush : pushString lo (v, offs) s = (v ++ chunk s, offs ++ [lo + v.length]) := by
        rw [pushString, List.append_assoc, padTo_append hv]
        rfl
      have haligned : (v ++ chunk s).length % 8 = 0 := by
        rw [List.length_append, length_chunk]
        unfold AddressSpace.alignUp
        omega
      rw [List.foldl_cons, hpush, ih _ _ haligned, List.length_append]
      simp [stringBlock_cons, addresses, Nat.add_assoc]

/-- Reading back the strings of a block through their addresses. -/
theorem stringsAt_of_holds {mem : Memory} {reach base : ℕ} {strs : List (List UInt8)}
    (h : HoldsBytes mem base (stringBlock strs)) (hnul : ∀ s ∈ strs, 0 ∉ s)
    (hreach : (stringBlock strs).length ≤ reach) :
    (addresses base strs).mapM (stringAt mem reach) = some strs := by
  induction strs generalizing base with
  | nil => rfl
  | cons s strs ih =>
      rw [stringBlock_cons, List.length_append] at hreach
      rw [stringBlock_cons, holds_append] at h
      have hlen := length_chunk s
      have hstring : stringAt mem reach base = some s := by
        have hterm : HoldsBytes mem base (s ++ [0]) := by
          have hchunk := h.1
          rw [chunk, padTo, holds_append] at hchunk
          exact hchunk.1
        apply hterm.stringAt (hnul s List.mem_cons_self)
        unfold AddressSpace.alignUp at hlen
        omega
      have hrest := ih h.2 (fun x hx => hnul x (List.mem_cons_of_mem s hx))
        (by omega)
      rw [addresses, List.mapM_cons, hstring, hrest]
      rfl

/-! ## The tables -/

theorem patch_middle {a b c bs : List UInt8} (hlen : bs.length = b.length) :
    patch (a ++ b ++ c) a.length bs = a ++ bs ++ c := by
  unfold patch
  rw [List.append_assoc a b c, List.take_left, hlen, List.drop_append, ← List.append_assoc]
  simp

theorem patchTable_zeros (offs : List ℕ) (a c : List UInt8) :
    patchTable a.length offs (a ++ zeros (8 * offs.length) ++ c) =
      a ++ offs.flatMap (leBytes 8) ++ c := by
  induction offs generalizing a with
  | nil => simp [patchTable, zeros]
  | cons x offs ih =>
      have hsplit : a ++ zeros (8 * (x :: offs).length) ++ c =
          a ++ zeros 8 ++ (zeros (8 * offs.length) ++ c) := by
        rw [List.length_cons, Nat.mul_succ, Nat.add_comm, zeros_add]
        simp
      have hone : patch (a ++ zeros 8 ++ (zeros (8 * offs.length) ++ c)) a.length (leBytes 8 x) =
          (a ++ leBytes 8 x) ++ zeros (8 * offs.length) ++ c := by
        rw [patch_middle (by simp)]
        simp
      have hnext : a.length + 8 = (a ++ leBytes 8 x).length := by simp
      rw [patchTable, hsplit, hone, hnext, ih, List.flatMap_cons]
      simp

theorem patchAux_zeros (aux : List (ℕ × ℕ)) (a c : List UInt8) :
    patchAux a.length aux (a ++ zeros (16 * aux.length) ++ c) =
      some (a ++ (pairWords aux).flatMap (leBytes 8) ++ c) := by
  induction aux generalizing a with
  | nil => simp [patchAux, zeros, pairWords]
  | cons p aux ih =>
      obtain ⟨tag, val⟩ := p
      have hsplit : a ++ zeros (16 * ((tag, val) :: aux).length) ++ c =
          a ++ zeros 8 ++ (zeros 8 ++ zeros (16 * aux.length) ++ c) := by
        rw [List.length_cons, show 16 * (aux.length + 1) = 8 + (8 + 16 * aux.length) by omega,
          zeros_add, zeros_add]
        simp
      have hroom : a.length + 16 ≤
          (a ++ zeros 8 ++ (zeros 8 ++ zeros (16 * aux.length) ++ c)).length := by
        simp only [List.length_append, length_zeros]
        omega
      have htag : patch (a ++ zeros 8 ++ (zeros 8 ++ zeros (16 * aux.length) ++ c)) a.length
          (leBytes 8 tag) = (a ++ leBytes 8 tag) ++ zeros 8 ++ (zeros (16 * aux.length) ++ c) := by
        rw [patch_middle (by simp)]
        simp
      have hval : patch ((a ++ leBytes 8 tag) ++ zeros 8 ++ (zeros (16 * aux.length) ++ c))
          (a.length + 8) (leBytes 8 val) =
            (a ++ leBytes 8 tag ++ leBytes 8 val) ++ zeros (16 * aux.length) ++ c := by
        rw [show a.length + 8 = (a ++ leBytes 8 tag).length by simp, patch_middle (by simp)]
        simp
      have hnext : a.length + 16 = (a ++ leBytes 8 tag ++ leBytes 8 val).length := by simp
      rw [patchAux, hsplit, if_pos hroom, htag, hval, hnext, ih]
      simp [pairWords]

/-! ## The block -/

/-- The bytes before the strings. -/
def headerSize (argc envc : ℕ) : ℕ := AddressSpace.alignUp (8 * (argc + envc + 3) + 16 * 6) 16

/-- The size of the whole block. -/
def blockSize (argv envp : List (List UInt8)) : ℕ :=
  headerSize argv.length envp.length +
    ((envp ++ argv).map fun s => AddressSpace.alignUp (s.length + 1) 8).sum

theorem length_stringBlock (strs : List (List UInt8)) : (stringBlock strs).length =
    (strs.map fun s => AddressSpace.alignUp (s.length + 1) 8).sum := by
  unfold stringBlock
  rw [List.length_flatMap]
  simp only [length_chunk]

/-- The low end of the stack page. -/
def stackLo : ℕ := userStackTop - pageSize

theorem stackLo_eq : stackLo = userStackTop - pageSize := rfl

/-- The addresses of the environment strings and of the argument strings. -/
def envAddresses (argv envp : List (List UInt8)) : List ℕ :=
  addresses (stackLo + headerSize argv.length envp.length) envp

def argAddresses (argv envp : List (List UInt8)) : List ℕ :=
  addresses (stackLo + headerSize argv.length envp.length + (stringBlock envp).length) argv

/-- The words of the block. -/
def blockWords (md : ElfLoadedMeta) (argv envp : List (List UInt8)) : List ℕ :=
  startWords (argAddresses argv envp) (envAddresses argv envp) (auxPairs md)

/-- The zero bytes between the words and the strings. -/
def headerPad (argc envc : ℕ) : ℕ := headerSize argc envc - (8 * (argc + envc + 3) + 16 * 6)

def block (md : ElfLoadedMeta) (argv envp : List (List UInt8)) : List UInt8 :=
  (blockWords md argv envp).flatMap (leBytes 8) ++ zeros (headerPad argv.length envp.length) ++
    stringBlock (envp ++ argv)

/-- The words before anything is filled in but the count. -/
def reserved (argc envc : ℕ) : List UInt8 :=
  leBytes 8 argc ++ zeros (8 * argc) ++ zeros 8 ++ zeros (8 * envc) ++ zeros 8 ++ zeros (16 * 6)

theorem length_reserved (argc envc : ℕ) :
    (reserved argc envc).length = 8 * (argc + envc + 3) + 16 * 6 := by
  simp only [reserved, List.length_append, length_leBytes, length_zeros]
  omega

theorem padTo_reserved (argc envc : ℕ) :
    padTo 16 (reserved argc envc) = reserved argc envc ++ zeros (headerPad argc envc) := by
  have hlen := length_padTo_sixteen (reserved argc envc)
  rw [length_reserved] at hlen
  unfold padTo at hlen ⊢
  rw [List.length_append, length_zeros, length_reserved] at hlen
  rw [headerPad, headerSize, ← hlen, length_reserved, Nat.add_sub_cancel_left]

theorem length_header (argc envc : ℕ) :
    (reserved argc envc ++ zeros (headerPad argc envc)).length = headerSize argc envc := by
  rw [← padTo_reserved, length_padTo_sixteen, length_reserved]
  rfl

/-- The three passes that go back to the tables. -/
theorem fill_reserved (md : ElfLoadedMeta) (args envs : List ℕ) (c : List UInt8) :
    patchAux (8 + 8 * args.length + 8 + (envs.length + 1) * 8) (auxPairs md)
        (patchTable 8 args (patchTable (8 + 8 * args.length + 8) envs
          (reserved args.length envs.length ++ c))) =
      some ((startWords args envs (auxPairs md)).flatMap (leBytes 8) ++ c) := by
  have henvs : patchTable (8 + 8 * args.length + 8) envs (reserved args.length envs.length ++ c) =
      leBytes 8 args.length ++ zeros (8 * args.length) ++
        (zeros 8 ++ envs.flatMap (leBytes 8) ++ zeros 8 ++ zeros (16 * 6) ++ c) := by
    have htable := patchTable_zeros envs
      (leBytes 8 args.length ++ zeros (8 * args.length) ++ zeros 8) (zeros 8 ++ zeros (16 * 6) ++ c)
    simp only [List.length_append, length_leBytes, length_zeros] at htable
    simp only [reserved, List.append_assoc] at htable ⊢
    exact htable
  have hargs : patchTable 8 args (leBytes 8 args.length ++ zeros (8 * args.length) ++
      (zeros 8 ++ envs.flatMap (leBytes 8) ++ zeros 8 ++ zeros (16 * 6) ++ c)) =
      (leBytes 8 args.length ++ args.flatMap (leBytes 8) ++ zeros 8 ++ envs.flatMap (leBytes 8) ++
        zeros 8) ++ zeros (16 * 6) ++ c := by
    have htable := patchTable_zeros args (leBytes 8 args.length)
      (zeros 8 ++ envs.flatMap (leBytes 8) ++ zeros 8 ++ zeros (16 * 6) ++ c)
    rw [length_leBytes] at htable
    rw [htable]
    simp only [List.append_assoc]
  have haux := patchAux_zeros (auxPairs md) (leBytes 8 args.length ++ args.flatMap (leBytes 8) ++
    zeros 8 ++ envs.flatMap (leBytes 8) ++ zeros 8) c
  have hoff : (leBytes 8 args.length ++ args.flatMap (leBytes 8) ++ zeros 8 ++
      envs.flatMap (leBytes 8) ++ zeros 8).length =
      8 + 8 * args.length + 8 + (envs.length + 1) * 8 := by
    simp only [List.length_append, length_leBytes, length_zeros,
      length_words (length_leBytes 8)]
    omega
  rw [hoff] at haux
  rw [henvs, hargs, show (16 * 6 : ℕ) = 16 * (auxPairs md).length from rfl, haux]
  simp [startWords, leBytes_zero]

/-- What the source builds is the block, provided that it fits. -/
theorem execStackBlock_eq (md : ElfLoadedMeta) (argv envp : List (List UInt8)) :
    execStackBlock md argv envp = if blockSize argv envp ≤ pageSize then .ok (block md argv envp)
      else .error "stack ovf" := by
  have hargs : (argAddresses argv envp).length = argv.length := length_addresses _ _
  have henvs : (envAddresses argv envp).length = envp.length := length_addresses _ _
  have hstrings : (envp ++ argv).foldl (pushString (userStackTop - pageSize))
      (padTo 16 (reserved argv.length envp.length), []) =
      (reserved argv.length envp.length ++ (zeros (headerPad argv.length envp.length) ++
        stringBlock (envp ++ argv)), envAddresses argv envp ++ argAddresses argv envp) := by
    rw [padTo_reserved, pushStrings, length_header, addresses_append, List.nil_append,
      List.append_assoc]
    · rfl
    · rw [length_header]
      unfold headerSize AddressSpace.alignUp
      omega
  have hsize : (reserved argv.length envp.length ++ (zeros (headerPad argv.length envp.length) ++
      stringBlock (envp ++ argv))).length = blockSize argv envp := by
    rw [← List.append_assoc, List.length_append, length_header, length_stringBlock]
    rfl
  have hfill := fill_reserved md (argAddresses argv envp) (envAddresses argv envp)
    (zeros (headerPad argv.length envp.length) ++ stringBlock (envp ++ argv))
  rw [hargs, henvs] at hfill
  have htake : (envAddresses argv envp ++ argAddresses argv envp).take envp.length =
      envAddresses argv envp := by rw [← henvs, List.take_left]
  have hdrop : (envAddresses argv envp ++ argAddresses argv envp).drop envp.length =
      argAddresses argv envp := by rw [← henvs, List.drop_left]
  simp only [execStackBlock]
  rw [show leBytes 8 argv.length ++ zeros (8 * argv.length) ++ zeros 8 ++ zeros (8 * envp.length) ++
    zeros 8 ++ zeros (16 * 6) = reserved argv.length envp.length from rfl, hstrings]
  simp only [hsize, htake, hdrop, hfill]
  by_cases hfits : blockSize argv envp ≤ pageSize
  · rw [if_pos hfits, if_neg (by unfold userStackTop pageSize at *; omega)]
    simp [block, blockWords]
  · rw [if_neg hfits, if_pos (by unfold userStackTop pageSize at *; omega)]

/-! ## The copy to user memory -/

/-- Bytes stored one after the other from a physical address on. -/
def storePhys (pa : ℕ) (bs : List UInt8) (m : Mem) : Mem :=
  { m with ram := fun q => if pa ≤ q ∧ q < pa + bs.length then bs.getD (q - pa) 0 else m.ram q }

theorem storePhys_nil (pa : ℕ) (m : Mem) : storePhys pa [] m = m := by
  unfold storePhys
  congr 1
  funext q
  rw [if_neg (by rw [List.length_nil]; omega)]

theorem storePhys_cons (pa : ℕ) (b : UInt8) (bs : List UInt8) (m : Mem) :
    storePhys (pa + 1) bs (writePhys pa b m) = storePhys pa (b :: bs) m := by
  unfold storePhys writePhys
  congr 1
  funext q
  rw [List.length_cons]
  by_cases hq : q = pa
  · subst hq
    rw [if_neg (by omega), if_pos (by omega), Nat.sub_self]
    exact Function.update_self ..
  · by_cases hin : pa + 1 ≤ q ∧ q < pa + 1 + bs.length
    · rw [if_pos hin, if_pos (by omega), show q - pa = q - (pa + 1) + 1 by omega,
        List.getD_cons_succ]
    · rw [if_neg hin, if_neg (by omega)]
      exact Function.update_of_ne hq ..

theorem stack_address {i : ℕ} (hi : i < pageSize) :
    pageOf (stackLo + i) = pageOf stackLo ∧ (stackLo + i) % pageSize = i ∧
      stackLo + i < 2 ^ 47 := by
  unfold pageOf stackLo userStackTop
  unfold pageSize at hi ⊢
  omega

theorem translateAddr_stack {m : Mem} {e : Entry} (he : m.pt.entries (pageOf stackLo) = some e)
    {i : ℕ} (hi : i < pageSize) :
    translateAddr m (stackLo + i) = some (e.frame * pageSize + i) := by
  obtain ⟨hpage, hmod, -⟩ := stack_address hi
  rw [translateAddr, hpage, he, hmod]
  rfl

theorem writeUserBytes_stack {m : Mem} {e : Entry} (he : m.pt.entries (pageOf stackLo) = some e)
    {i : ℕ} {bs : List UInt8} (hfits : i + bs.length ≤ pageSize) :
    writeUserBytes (stackLo + i) bs m = .ok () (storePhys (e.frame * pageSize + i) bs m) := by
  induction bs generalizing i m with
  | nil => rw [storePhys_nil, writeUserBytes, pure_run]
  | cons b bs ih =>
      rw [List.length_cons] at hfits
      have hbyte : writeUserByte (stackLo + i) b m =
          .ok () (writePhys (e.frame * pageSize + i) b m) := by
        have hva : virtAddr (stackLo + i) = (pure (stackLo + i) : MemM ℕ) :=
          virtAddr_of_lt (stack_address (by omega)).2.2
        simp only [writeUserByte, hva, bind_run, pure_run, get_run,
          translateAddr_stack he (show i < pageSize by omega), modify_run]
      have hrest : writeUserBytes (stackLo + (i + 1)) bs (writePhys (e.frame * pageSize + i) b m) =
          .ok () (storePhys (e.frame * pageSize + (i + 1)) bs
            (writePhys (e.frame * pageSize + i) b m)) := by
        apply ih
        · exact he
        · omega
      rw [writeUserBytes, bind_of_ok hbyte, Nat.add_assoc, hrest, ← Nat.add_assoc, storePhys_cons]

theorem holds_stored {m : Mem} {e : Entry} (he : m.pt.entries (pageOf stackLo) = some e)
    {bs : List UInt8} (hfits : bs.length ≤ pageSize) :
    HoldsBytes (userByte (storePhys (e.frame * pageSize) bs m)) stackLo bs := by
  intro i hi
  have htranslate : translateAddr (storePhys (e.frame * pageSize) bs m) (stackLo + i) =
      some (e.frame * pageSize + i) := translateAddr_stack he (by omega)
  rw [userByte, htranslate, Option.map_some, storePhys, List.getElem?_eq_getElem hi]
  simp only [Nat.add_sub_cancel_left]
  rw [if_pos (by omega), List.getD_eq_getElem?_getD, List.getElem?_eq_getElem hi]
  rfl

/-! ## Decoding -/

/-- The auxiliary vector a program finds: the tags, and the values as words. -/
def auxValues (md : ElfLoadedMeta) : List (ℕ × ℕ) :=
  (auxPairs md).map fun p => (p.1, p.2 % 2 ^ 64)

theorem length_block (md : ElfLoadedMeta) (argv envp : List (List UInt8)) :
    (block md argv envp).length = blockSize argv envp := by
  have hargs : (argAddresses argv envp).length = argv.length := length_addresses _ _
  have henvs : (envAddresses argv envp).length = envp.length := length_addresses _ _
  have hwords : (blockWords md argv envp).length = argv.length + envp.length + 15 := by
    simp only [blockWords, startWords, List.length_cons, List.length_append, List.length_nil,
      pairWords, auxPairs, List.flatMap_cons, List.flatMap_nil, hargs, henvs]
    omega
  have hheader := length_header argv.length envp.length
  rw [List.length_append, length_reserved, length_zeros] at hheader
  rw [block, List.length_append, List.length_append, length_words (length_leBytes 8), hwords,
    length_zeros, length_stringBlock, blockSize, ← hheader]
  omega

theorem block_decodes (md : ElfLoadedMeta) {argv envp : List (List UInt8)} {mem : Memory}
    (hfits : blockSize argv envp ≤ pageSize) (hnul : ∀ s ∈ argv ++ envp, 0 ∉ s)
    (h : HoldsBytes mem stackLo (block md argv envp)) :
    decode leNat pageSize mem stackLo = some ⟨argv.length, argv, envp, auxValues md⟩ := by
  have hargs : (argAddresses argv envp).length = argv.length := length_addresses _ _
  have henvs : (envAddresses argv envp).length = envp.length := length_addresses _ _
  have hheader := length_header argv.length envp.length
  rw [List.length_append, length_reserved, length_zeros] at hheader
  have hsize : headerSize argv.length envp.length + ((stringBlock envp).length +
      (stringBlock argv).length) = blockSize argv envp := by
    rw [blockSize, ← length_stringBlock, stringBlock_append, List.length_append]
  have hlow : stackLo = 0x401000 := rfl
  have hpage : pageSize = 4096 := rfl
  have hargWord : ∀ x ∈ argAddresses argv envp, leNat (leBytes 8 x) = x := by
    intro x hx
    have hbound := mem_addresses hx
    exact leNat_word (by omega)
  have henvWord : ∀ x ∈ envAddresses argv envp, leNat (leBytes 8 x) = x ∧ x ≠ 0 := by
    intro x hx
    have hbound := mem_addresses hx
    exact ⟨leNat_word (by omega), by omega⟩
  -- the words, the padding, and the strings of the environment and of the arguments
  rw [block, List.append_assoc, holds_append, holds_append, stringBlock_append, holds_append] at h
  obtain ⟨hwords, -, henvBlock, hargBlock⟩ := h
  have hoffset : stackLo + ((blockWords md argv envp).flatMap (leBytes 8)).length +
      (zeros (headerPad argv.length envp.length)).length =
      stackLo + headerSize argv.length envp.length := by
    have hlen := length_block md argv envp
    rw [block, List.length_append, List.length_append, stringBlock_append, List.length_append]
      at hlen
    omega
  rw [hoffset] at henvBlock hargBlock
  have hargv := stringsAt_of_holds hargBlock (fun s hs => hnul s (List.mem_append_left _ hs))
    (show _ ≤ pageSize by omega)
  have henvp := stringsAt_of_holds henvBlock (fun s hs => hnul s (List.mem_append_right _ hs))
    (show _ ≤ pageSize by omega)
  have hstart : HoldsBytes mem stackLo
      ((startWords (argAddresses argv envp) (envAddresses argv envp)
        ((auxPairs md).dropLast ++ [(0, 0)])).flatMap (leBytes 8)) := hwords
  have htags : ∀ p ∈ (auxPairs md).dropLast, leNat (leBytes 8 p.1) ≠ 0 := by
    simp [auxPairs, leNat_leBytes]
  rw [decode_of_holds (length_leBytes 8) hstart (leNat_word (by omega)) (by decide) hargWord
    henvWord (by decide) htags hargv henvp (by omega) (by simp [auxPairs, hpage]), hargs]
  simp [auxValues, auxPairs, leNat_leBytes]

/-! ## The whole -/

/-- Nothing changes but bytes of the stack page. -/
structure OnStackPage (m m' : Mem) : Prop where
  pt : m'.pt = m.pt
  fa : m'.fa = m.fa
  image : m'.image = m.image
  ram : ∀ pa, m'.ram pa ≠ m.ram pa →
    ∃ a, userStackTop - pageSize ≤ a ∧ a < userStackTop ∧ translateAddr m a = some pa

theorem onStackPage_stored {m : Mem} {e : Entry} (he : m.pt.entries (pageOf stackLo) = some e)
    {bs : List UInt8} (hfits : bs.length ≤ pageSize) :
    OnStackPage m (storePhys (e.frame * pageSize) bs m) where
  pt := rfl
  fa := rfl
  image := rfl
  ram pa hne := by
    have hin : e.frame * pageSize ≤ pa ∧ pa < e.frame * pageSize + bs.length := by
      by_contra hout
      exact hne (if_neg hout)
    refine ⟨stackLo + (pa - e.frame * pageSize), Nat.le_add_right _ _, ?_, ?_⟩
    · have htop : stackLo + pageSize = userStackTop := rfl
      omega
    · rw [translateAddr_stack he (by omega)]
      congr 1
      omega

theorem buildExecStack_run (md : ElfLoadedMeta) (argv envp : List (List UInt8)) {m : Mem}
    {e : Entry} (he : m.pt.entries (pageOf stackLo) = some e) : buildExecStack md argv envp m =
      if blockSize argv envp ≤ pageSize
      then .ok stackLo (storePhys (e.frame * pageSize) (block md argv envp) m)
      else .error (.err "stack ovf") m := by
  unfold buildExecStack
  rw [execStackBlock_eq]
  by_cases hfits : blockSize argv envp ≤ pageSize
  · have hwrite : writeUserBytes (stackLo + 0) (block md argv envp) m =
        .ok () (storePhys (e.frame * pageSize + 0) (block md argv envp) m) := by
      apply writeUserBytes_stack he
      rw [length_block]
      omega
    rw [Nat.add_zero, Nat.add_zero] at hwrite
    rw [if_pos hfits, if_pos hfits]
    simp only [← stackLo_eq, bind_run, hwrite, pure_run]
  · rw [if_neg hfits, if_neg hfits]
    rfl

/-- The stack is built if it fits one page, and then a program that reads it by
the rules of the ABI finds its arguments, its environment and its headers. -/
theorem exec_stack_decodes (md : ElfLoadedMeta) (argv envp : List (List UInt8)) (m : Mem)
    (hstack : m.pt.entries (pageOf (userStackTop - pageSize)) ≠ none)
    (hnul : ∀ s ∈ argv ++ envp, 0 ∉ s) :
    ((∃ rsp m', buildExecStack md argv envp m = .ok rsp m') ↔ blockSize argv envp ≤ pageSize) ∧
    ∀ rsp m', buildExecStack md argv envp m = .ok rsp m' →
      rsp % 16 = 0 ∧ OnStackPage m m' ∧ decode leNat pageSize (userByte m') rsp =
        some ⟨argv.length, argv, envp, auxValues md⟩ := by
  obtain ⟨e, he⟩ := Option.ne_none_iff_exists'.mp hstack
  have hrun := buildExecStack_run md argv envp he
  by_cases hfits : blockSize argv envp ≤ pageSize
  · rw [if_pos hfits] at hrun
    refine ⟨iff_of_true ⟨_, _, hrun⟩ hfits, ?_⟩
    intro rsp m' hok
    rw [hrun, EStateM.Result.ok.injEq] at hok
    obtain ⟨rfl, rfl⟩ := hok
    have hlen : (block md argv envp).length ≤ pageSize := by rwa [length_block]
    exact ⟨rfl, onStackPage_stored he hlen, block_decodes md hfits hnul (holds_stored he hlen)⟩
  · rw [if_neg hfits] at hrun
    constructor
    · constructor
      · rintro ⟨rsp, m', hok⟩
        rw [hrun] at hok
        cases hok
      · exact fun h => absurd h hfits
    · intro rsp m' hok
      rw [hrun] at hok
      cases hok

/-- Memory in which only the stack page is mapped. -/
def stackOnly : Mem := setEntry 0x401 (some ⟨7, userDataFlags⟩) (memInit [])

/-- `argv = ["sh", "-c"]` and `envp = ["A=1"]`. -/
theorem exec_stack_decodes_two_args : ∃ rsp m',
    buildExecStack ⟨0x400078, 0x400040, 1, 56, 0x401000, 0x401000⟩ [[115, 104], [45, 99]]
      [[65, 61, 49]] stackOnly = .ok rsp m' ∧ rsp % 16 = 0 ∧
    decode leNat pageSize (userByte m') rsp = some ⟨2, [[115, 104], [45, 99]], [[65, 61, 49]],
      [(3, 0x400040), (4, 56), (5, 1), (6, 4096), (9, 0x400078), (0, 0)]⟩ := by
  have hstack : stackOnly.pt.entries (pageOf (userStackTop - pageSize)) ≠ none := by decide
  obtain ⟨hiff, hdecodes⟩ := exec_stack_decodes ⟨0x400078, 0x400040, 1, 56, 0x401000, 0x401000⟩
    [[115, 104], [45, 99]] [[65, 61, 49]] stackOnly hstack (by decide)
  obtain ⟨rsp, m', hrun⟩ := hiff.mpr (by decide)
  obtain ⟨haligned, -, hdecode⟩ := hdecodes rsp m' hrun
  exact ⟨rsp, m', hrun, haligned, hdecode⟩

end Rockos.ExecStack
