import RpiVm.Env.VmTests

/-!
# Data aborts

`data_abort_vector` tells growth of the stack from accesses that are fatal, and
maps a large page one to one for the former. The page starts 4 KB below the
address that faulted, which suits few addresses.
-/

namespace RpiVm

open CLib Transition

/-! ## The handler -/

/-- The fault status and fault address registers at an abort. -/
structure Fault where
  /-- The data fault status register. -/
  faultval : BitVec 32
  /-- The fault address register. -/
  address : BitVec 32
  deriving DecidableEq, Repr

/-- `WFAULT_STATUS`: the low four bits and, as the fifth, bit 10. -/
def wfaultStatus (faultval : BitVec 32) : BitVec 32 :=
  (faultval &&& 0b1111) ||| ((faultval &&& (0b1#32 <<< 10)) >>> 6)

/-- `fault_status_has_valid_far`. -/
def faultStatusHasValidFar (faultval : BitVec 32) : Bool :=
  match wfaultStatus faultval with
  | 0b10100#32 => false -- TLB lock
  | 0b11010#32 => false -- Coprocessor data abort
  | 0b10110#32 => false -- Imprecise data abort
  | 0b11000#32 => false -- Parity error exception
  | 0b00010#32 => false -- Debug event
  | _ => true

/-- The request that `handle_page_miss` makes: a large page, one to one. -/
def pageMissCall (domain address : BitVec 32) : MapCall :=
  ⟨.lg, address - addressesPer4KB, address - addressesPer4KB, domain, 0⟩

/-- `handle_page_miss`. -/
def handlePageMiss (k : Kernel) (address : BitVec 32) : Except Panic Kernel := do
  assert k.currEnv.isSome "curr_env"
  match k.currEnv with
  | some e =>
    let s ← (pageMissCall (k.envs e).domain address).exec k.st (k.envs e).pt
    pure { k with st := s }
  | none => pure k

/-- `data_abort_vector`; `clean_reboot` does not return. -/
def dataAbortVector (k : Kernel) (f : Fault) : Except Panic Kernel := do
  if faultStatusHasValidFar f.faultval then
    let address := f.address
    (if address == 0 then
      throw (.cleanReboot "Illegal access of 0x0. Aborting...")
    else pure ())
    if address < sysStackAddrFine && address > k.st.heap then
      handlePageMiss k address
    else if address < k.st.heapStart || address > k.st.heap then
      throw (.cleanReboot "Outside of heap <range 0x%x to 0x%x>, fatal error. Quitting...\n")
    else pure k
  else pure k

/-- What the handler does when the fault address register is valid. -/
theorem dataAbortVector_of_far {k : Kernel} {f : Fault}
    (hfar : faultStatusHasValidFar f.faultval = true) :
    dataAbortVector k f =
      if f.address = 0 then throw (.cleanReboot "Illegal access of 0x0. Aborting...")
      else if f.address < sysStackAddrFine ∧ f.address > k.st.heap then
        handlePageMiss k f.address
      else if f.address < k.st.heapStart ∨ f.address > k.st.heap then
        throw (.cleanReboot "Outside of heap <range 0x%x to 0x%x>, fatal error. Quitting...\n")
      else pure k := by
  unfold dataAbortVector
  by_cases hzero : f.address = 0
  · simp only [hfar, hzero, BEq.rfl, if_true]
    rfl
  · have hbeq : (f.address == 0) = false := beq_eq_false_iff_ne.mpr hzero
    simp only [hfar, hzero, hbeq, if_true, Bool.false_eq_true, if_false, Bool.and_eq_true,
      Bool.or_eq_true, decide_eq_true_eq]
    rfl

/-- No address above another is null. -/
theorem ne_zero_of_lt {x y : BitVec 32} (h : x < y) : y ≠ 0 := by
  rintro rfl
  exact absurd h (by simp)

/-- Above the heap and below the top of the stack, the handler treats an address as a
page miss. -/
theorem dataAbortVector_eq {k : Kernel} {f : Fault} {e : BitVec 32}
    (hfar : faultStatusHasValidFar f.faultval = true) (hcurr : k.currEnv = some e)
    (hlo : k.st.heap < f.address) (hhi : f.address < sysStackAddrFine) :
    dataAbortVector k f = (do
      let s ← (pageMissCall (k.envs e).domain f.address).exec k.st (k.envs e).pt
      pure { k with st := s }) := by
  rw [dataAbortVector_of_far hfar, if_neg (ne_zero_of_lt hlo), if_pos ⟨hhi, hlo⟩]
  unfold handlePageMiss
  rw [hcurr]
  rfl

/-! ## Growing the stack -/

/-- The handler returns; the address and all newly mapped ones translate one to
one, with full access, in the domain of the environment; and what translated
before still translates to the same place. -/
def GrowsStack (k : Kernel) (e : BitVec 32) (f : Fault) : Prop :=
  ∃ k', dataAbortVector k f = .ok k' ∧
    (walk k'.st.mem (k.envs e).pt f.address).isSome = true ∧
    (∀ x r, walk k.st.mem (k.envs e).pt x = none → walk k'.st.mem (k.envs e).pt x = some r →
      r.pa = x ∧ r.attrs.ap = 0b11 ∧ r.attrs.apx = 0 ∧
        r.domain = (k.envs e).domain.setWidth 4) ∧
    ∀ x r, walk k.st.mem (k.envs e).pt x = some r →
      ∃ r', walk k'.st.mem (k.envs e).pt x = some r' ∧ r'.pa = r.pa

/-- The addresses for which the stack can grow: the second page of a 64 KB block, a
multiple of 16, in a block where nothing translates, under a first-level entry that is
unused or has a coarse table of the right domain. -/
def StackGrowable (t : Table) (domain address : BitVec 32) : Prop :=
  address.extractLsb' 12 4 = 1 ∧ address.extractLsb' 0 4 = 0 ∧
    (∀ x : BitVec 32, x.extractLsb' 16 16 = address.extractLsb' 16 16 → t.walk x = none) ∧
    (t (firstIndex address) = .fault ∨
      ∃ entries, t (firstIndex address) = .coarse (domain.setWidth 4) entries)

/-- The growth of the stack on table values. -/
def Table.Grows (t t' : Table) (domain address : BitVec 32) : Prop :=
  (t'.walk address).isSome = true ∧
    (∀ x r, t.walk x = none → t'.walk x = some r →
      r.pa = x ∧ r.attrs.ap = 0b11 ∧ r.attrs.apx = 0 ∧ r.domain = domain.setWidth 4) ∧
    ∀ x r, t.walk x = some r → ∃ r', t'.walk x = some r' ∧ r'.pa = r.pa

/-- An entry is one of the sixteen that a large page at `va` fills. -/
def InLarge (va x : BitVec 32) : Prop :=
  firstIndex x = firstIndex va ∧ (secondIndex va).toNat ≤ (secondIndex x).toNat ∧
    (secondIndex x).toNat < (secondIndex va).toNat + 16

variable {t t' : Table} {domain address : BitVec 32}

/-- What a page miss does to a table: sixteen entries, all unused before, translate to
one 64 KB block. -/
theorem pageMissCall_walk {va : BitVec 32} (hva : va = address - addressesPer4KB)
    (h : (pageMissCall domain address).apply t = some t') :
    ∃ d entries, (t (firstIndex va)).asCoarse (domain.setWidth 4) = some (d, entries) ∧
      isAligned va 16 = true ∧ (secondIndex va).toNat ≤ 240 ∧ ∀ x,
      (InLarge va x → t.walk x = none ∧
        t'.walk x = some ⟨va.extractLsb' 16 16 ++ x.extractLsb' 0 16, d, flagAttrs 0⟩) ∧
      (¬ InLarge va x → t'.walk x = t.walk x) := by
  rw [pageMissCall, ← hva] at h
  obtain ⟨d, entries, hcoarse, haligned, _, hidx, hfault, rfl⟩ := MapCall.apply_lg_eq_some.mp h
  have hsame {x : BitVec 32} (hx : firstIndex x = firstIndex va) :
      t.walk x = (entries (secondIndex x)).walk d x ∧
      Table.walk (Function.update t (firstIndex va) (.coarse d (putLg entries (secondIndex va) 16
        (.lg (va.extractLsb' 16 16) (flagAttrs 0))))) x =
      (putLg entries (secondIndex va) 16 (.lg (va.extractLsb' 16 16) (flagAttrs 0))
        (secondIndex x)).walk d x := by
    rw [Table.walk, Table.walk, hx, FirstLevel.asCoarse_walk hcoarse, Function.update_self]
    exact ⟨rfl, rfl⟩
  refine ⟨d, entries, hcoarse, haligned, hidx, fun x => ⟨?_, ?_⟩⟩
  · rintro ⟨hx, hlo, hhi⟩
    rw [(hsame hx).1, (hsame hx).2, hfault _ hlo hhi, putLg, if_pos ⟨hlo, hhi⟩]
    exact ⟨rfl, rfl⟩
  · intro hout
    by_cases hx : firstIndex x = firstIndex va
    · rw [(hsame hx).1, (hsame hx).2, putLg, if_neg fun hin => hout ⟨hx, hin⟩]
    · rw [Table.walk, Function.update_of_ne hx, Table.walk]

/-- A large page maps an address one to one exactly when it is the page's own block. -/
theorem block_append_eq_iff (va x : BitVec 32) :
    va.extractLsb' 16 16 ++ x.extractLsb' 0 16 = x ↔ va.toNat / 2 ^ 16 = x.toNat / 2 ^ 16 := by
  have hva := va.isLt
  have hx := x.isLt
  rw [← BitVec.toNat_inj, toNat_append_eq, BitVec.extractLsb'_toNat, BitVec.extractLsb'_toNat,
    Nat.shiftRight_eq_div_pow, Nat.shiftRight_eq_div_pow]
  omega

/-- The entries under an address as quotients. -/
theorem inLarge_iff (va x : BitVec 32) : InLarge va x ↔
    x.toNat / 2 ^ 20 = va.toNat / 2 ^ 20 ∧ va.toNat / 2 ^ 12 % 256 ≤ x.toNat / 2 ^ 12 % 256 ∧
      x.toNat / 2 ^ 12 % 256 < va.toNat / 2 ^ 12 % 256 + 16 := by
  rw [InLarge, firstIndex_eq_iff, secondIndex_toNat, secondIndex_toNat]

/-- The page starts 4 KB below the address. -/
theorem toNat_sub_addressesPer4KB (address : BitVec 32) : (address - addressesPer4KB).toNat =
    if 0x1000 ≤ address.toNat then address.toNat - 0x1000 else address.toNat + (2 ^ 32 - 0x1000) := by
  have hlt := address.isLt
  rw [BitVec.toNat_sub, show addressesPer4KB.toNat = 0x1000 from rfl]
  split_ifs <;> omega

/-- The position of an address in its 64 KB block and its low four bits. -/
theorem stackGrowable_iff : StackGrowable t domain address ↔
    address.toNat / 2 ^ 12 % 16 = 1 ∧ address.toNat % 16 = 0 ∧
    (∀ x : BitVec 32, x.toNat / 2 ^ 16 = address.toNat / 2 ^ 16 → t.walk x = none) ∧
    (t (firstIndex address) = .fault ∨
      ∃ entries, t (firstIndex address) = .coarse (domain.setWidth 4) entries) := by
  have hblock (x : BitVec 32) : x.extractLsb' 16 16 = address.extractLsb' 16 16 ↔
      x.toNat / 2 ^ 16 = address.toNat / 2 ^ 16 := by
    have hx := x.isLt
    have ha := address.isLt
    rw [← BitVec.toNat_inj, BitVec.extractLsb'_toNat, BitVec.extractLsb'_toNat,
      Nat.shiftRight_eq_div_pow, Nat.shiftRight_eq_div_pow]
    omega
  have hpage : address.extractLsb' 12 4 = 1 ↔ address.toNat / 2 ^ 12 % 16 = 1 := by
    rw [← BitVec.toNat_inj, BitVec.extractLsb'_toNat, Nat.shiftRight_eq_div_pow]
    rfl
  have hlow : address.extractLsb' 0 4 = 0 ↔ address.toNat % 16 = 0 := by
    rw [← BitVec.toNat_inj, BitVec.extractLsb'_toNat, Nat.shiftRight_eq_div_pow, Nat.pow_zero,
      Nat.div_one]
    rfl
  rw [StackGrowable, hpage, hlow]
  simp only [hblock]

/-- A page miss that grows the stack is at a growable address. -/
theorem Table.Grows.stackGrowable (h : (pageMissCall domain address).apply t = some t')
    (hmiss : t.walk address = none) (hgrows : t.Grows t' domain address) :
    StackGrowable t domain address := by
  obtain ⟨d, entries, hcoarse, haligned, hidx, hwalk⟩ := pageMissCall_walk rfl h
  obtain ⟨hmapped, hnew, _⟩ := hgrows
  have hva := toNat_sub_addressesPer4KB address
  generalize address - addressesPer4KB = va at *
  have hA := address.isLt
  have hpow : va.toNat % 16 = 0 := by
    rwa [show (16 : BitVec 32) = BitVec.twoPow 32 4 by decide, isAligned_twoPow va (by decide)] at haligned
  rw [secondIndex_toNat] at hidx
  -- every filled entry is newly mapped, hence in the block of the page
  have hin : ∀ x, InLarge va x → va.toNat / 2 ^ 16 = x.toNat / 2 ^ 16 ∧ t.walk x = none ∧
      d = domain.setWidth 4 := by
    intro x hx
    obtain ⟨hnone, hsome⟩ := (hwalk x).1 hx
    obtain ⟨hpa, _, _, hdomain⟩ := hnew x _ hnone hsome
    exact ⟨(block_append_eq_iff va x).mp hpa, hnone, hdomain⟩
  have haddress : InLarge va address := by
    by_contra hout
    rw [(hwalk address).2 hout, hmiss] at hmapped
    simp at hmapped
  obtain ⟨hblock, _, hd⟩ := hin address haddress
  rw [inLarge_iff] at haddress
  obtain ⟨x, hx⟩ : ∃ x : BitVec 32, x.toNat = va.toNat / 2 ^ 12 * 2 ^ 12 + 15 * 2 ^ 12 :=
    ⟨BitVec.ofNat 32 (va.toNat / 2 ^ 12 * 2 ^ 12 + 15 * 2 ^ 12), by
      rw [BitVec.toNat_ofNat]; omega⟩
  have hlast := (hin x ((inLarge_iff va x).mpr (by omega))).1
  rw [stackGrowable_iff]
  refine ⟨by split_ifs at hva <;> omega, by split_ifs at hva <;> omega, ?_, ?_⟩
  · intro y hy
    refine (hin y ((inLarge_iff va y).mpr ?_)).2.1
    split_ifs at hva <;> omega
  · rw [show firstIndex address = firstIndex va from (firstIndex_eq_iff _ _).mpr haddress.1]
    cases hentry : t (firstIndex va) with
    | fault => exact Or.inl rfl
    | coarse d' entries' =>
      rw [hentry, FirstLevel.asCoarse, Option.some.injEq, Prod.mk.injEq] at hcoarse
      exact Or.inr ⟨entries', by rw [hcoarse.1, hd]⟩
    | sec => simp [hentry, FirstLevel.asCoarse] at hcoarse
    | reserved => simp [hentry, FirstLevel.asCoarse] at hcoarse

/-- At a growable address a page miss grows the stack. -/
theorem StackGrowable.grows (h : StackGrowable t domain address) :
    ∃ t', (pageMissCall domain address).apply t = some t' ∧ t.Grows t' domain address := by
  obtain ⟨hpage, hlow, hfree, hentry⟩ := stackGrowable_iff.mp h
  obtain ⟨va, hva⟩ : ∃ va, va = address - addressesPer4KB := ⟨_, rfl⟩
  have hnat := toNat_sub_addressesPer4KB address
  have hA := address.isLt
  rw [← hva, if_pos (by omega)] at hnat
  have hfirst : firstIndex address = firstIndex va := (firstIndex_eq_iff _ _).mpr (by omega)
  have hinLarge (x : BitVec 32) : InLarge va x ↔ x.toNat / 2 ^ 16 = address.toNat / 2 ^ 16 := by
    have hx := x.isLt
    rw [inLarge_iff]
    omega
  obtain ⟨entries, hcoarse⟩ :
      ∃ entries, (t (firstIndex va)).asCoarse (domain.setWidth 4) =
        some (domain.setWidth 4, entries) := by
    rw [← hfirst]
    rcases hentry with hfault | ⟨entries, hcoarse⟩
    · exact ⟨_, by rw [hfault]; rfl⟩
    · exact ⟨entries, by rw [hcoarse]; rfl⟩
  have haligned : isAligned va 16 = true := by
    rw [show (16 : BitVec 32) = BitVec.twoPow 32 4 by decide, isAligned_twoPow va (by decide)]
    omega
  have hidx : (secondIndex va).toNat ≤ 240 := by
    rw [secondIndex_toNat]
    omega
  have hfault : ∀ j : BitVec 8, (secondIndex va).toNat ≤ j.toNat →
      j.toNat < (secondIndex va).toNat + 16 → entries j = .fault := by
    intro j hlo hhi
    obtain ⟨x, _, hxi, hxj⟩ := exists_indices (firstIndex va) j
    have hnone := hfree x ((hinLarge x).mp ⟨hxi, by rw [hxj]; exact hlo, by rw [hxj]; exact hhi⟩)
    rw [Table.walk, hxi, FirstLevel.asCoarse_walk hcoarse, hxj] at hnone
    exact SecondLevel.eq_fault_of_walk hnone
  obtain ⟨t', ht'⟩ : ∃ t', (pageMissCall domain address).apply t = some t' := by
    simp only [pageMissCall, MapCall.apply, ← hva, hcoarse]
    exact ⟨_, if_pos ⟨haligned, haligned, hidx, hfault⟩⟩
  obtain ⟨d, entries', hcoarse', _, _, hwalk⟩ := pageMissCall_walk hva ht'
  obtain rfl : d = domain.setWidth 4 := by
    rw [hcoarse, Option.some.injEq, Prod.mk.injEq] at hcoarse'
    exact hcoarse'.1.symm
  refine ⟨t', ht', ?_, ?_, ?_⟩
  · rw [((hwalk address).1 ((hinLarge address).mpr rfl)).2]
    rfl
  · intro x r hnone hsome
    have hx : InLarge va x := by
      by_contra hout
      rw [(hwalk x).2 hout, hnone] at hsome
      simp at hsome
    rw [((hwalk x).1 hx).2, Option.some.injEq] at hsome
    rw [← hsome]
    refine ⟨(block_append_eq_iff va x).mpr ?_, rfl, rfl, rfl⟩
    have hxblock := (hinLarge x).mp hx
    omega
  · intro x r hr
    by_cases hx : InLarge va x
    · rw [((hwalk x).1 hx).1] at hr
      simp at hr
    · exact ⟨r, by rw [(hwalk x).2 hx, hr], rfl⟩

/-- A page miss at an address that does not translate grows the stack exactly at
the growable addresses. -/
theorem pageMissCall_grows_iff (hmiss : t.walk address = none) :
    (∃ t', (pageMissCall domain address).apply t = some t' ∧ t.Grows t' domain address) ↔
      StackGrowable t domain address :=
  ⟨fun ⟨_, happly, hgrows⟩ => hgrows.stackGrowable happly hmiss, fun h => h.grows⟩

/-! ## The handler on reachable states -/

/-- Above the heap and below the top of the stack there is room for a coarse table. -/
theorem pageMissCall_heapEnd_lt {s : State} {pt domain address : BitVec 32}
    (hlo : s.heap < address) (hhi : address < sysStackAddrFine) :
    (pageMissCall domain address).heapEnd s pt < 2 ^ 32 := by
  refine (MapCall.heapEnd_le _ _ _).trans_lt ?_
  have hlo' : s.heap.toNat < address.toNat := hlo
  have hhi' : address.toNat < 0x400000 := hhi
  simp only [kmallocAlignedEnd, kmallocEnd, roundUpNat]
  omega

/-- With the table laid out in memory, the handler acts on it as a page miss does. -/
theorem growsStack_iff_of_layout {k : Kernel} {e : BitVec 32} {f : Fault}
    (hlayout : Layout k.st.mem (k.envs e).pt k.st.heap.toNat) (hcurr : k.currEnv = some e)
    (hfar : faultStatusHasValidFar f.faultval = true)
    (hmiss : walk k.st.mem (k.envs e).pt f.address = none) (hlo : k.st.heap < f.address)
    (hhi : f.address < sysStackAddrFine) :
    GrowsStack k e f ↔
      StackGrowable (tableOf k.st.mem (k.envs e).pt) (k.envs e).domain f.address := by
  have hfit : (pageMissCall (k.envs e).domain f.address).heapEnd k.st (k.envs e).pt < 2 ^ 32 :=
    pageMissCall_heapEnd_lt hlo hhi
  rw [walk_eq_tableOf_walk] at hmiss
  rw [← pageMissCall_grows_iff hmiss, GrowsStack, dataAbortVector_eq hfar hcurr hlo hhi]
  simp only [walk_eq_tableOf_walk]
  constructor
  · rintro ⟨k', hok, hgrows⟩
    obtain ⟨s, hexec, hk'⟩ := bind_eq_ok.mp hok
    cases hk'
    exact ⟨_, (MapCall.apply_of_exec hlayout hfit hexec).1, hgrows⟩
  · rintro ⟨t', happly, hgrows⟩
    obtain ⟨s, hexec, _, rfl⟩ := MapCall.refines hlayout hfit happly
    exact ⟨_, bind_eq_ok.mpr ⟨s, hexec, rfl⟩, hgrows⟩

/-- The table of the current environment is laid out in every reachable state. -/
theorem KernelRun.Inv.current_layout {s : KernelRun} {allocs : List (Owner × Region)}
    (h : s.Inv allocs) {e : BitVec 32} (hcurr : s.k.currEnv = some e) :
    Layout s.k.st.mem (s.k.envs e).pt s.k.st.heap.toNat :=
  h.kernel.world.layout _ (h.current e hcurr)

/-- In every reachable state, the handler grows the stack at an address between the
heap and the top of the stack exactly when the address is growable. -/
theorem growsStack_iff {s : KernelRun} (hs : Reachable KernelRun.Step KernelRun.Init s)
    {e : BitVec 32} (hcurr : s.k.currEnv = some e) {f : Fault}
    (hfar : faultStatusHasValidFar f.faultval = true)
    (hmiss : walk s.k.st.mem (s.k.envs e).pt f.address = none) (hlo : s.k.st.heap < f.address)
    (hhi : f.address < sysStackAddrFine) :
    GrowsStack s.k e f ↔
      StackGrowable (tableOf s.k.st.mem (s.k.envs e).pt) (s.k.envs e).domain f.address := by
  obtain ⟨allocs, hinv⟩ := KernelRun.reachable_inv hs
  exact growsStack_iff_of_layout (hinv.current_layout hcurr) hcurr hfar hmiss hlo hhi

/-! ## Below the stack of the committed test -/

/-- A translation fault on a page, for a read. -/
def pageFault (address : BitVec 32) : Fault := ⟨0b00111, address⟩

/-- The megabyte below the stack is unmapped above the heap's pages. -/
theorem VmPart5.walk_eq_none {k : Kernel} {e : BitVec 32} (h : VmPart5 k e) {x : BitVec 32}
    (hx : ∀ c ∈ vmPart5Calls, ¬ c.Covers x) : walk k.st.mem (k.envs e).pt x = none := by
  rw [walk_eq_tableOf_walk]
  refine h.maps.outside x fun c hc => ?_
  obtain ⟨c', hc', rfl⟩ := List.mem_map.mp (List.mem_reverse.mp hc)
  exact hx c' hc'

/-- A machine that was just loaded. -/
theorem Kernel.start_loaded (heap : BitVec 32) : (Kernel.start heap).Loaded :=
  ⟨rfl, rfl, rfl, rfl, rfl⟩

/-- The equivalence for a fault in the second page of a block below the stack. -/
theorem growsStack_iff_block : ∃ (k : Kernel) (e : BitVec 32), VmPart5 k e ∧
    (GrowsStack k e (pageFault 0x2f1000) ↔
      StackGrowable (tableOf k.st.mem (k.envs e).pt) (k.envs e).domain 0x2f1000) := by
  obtain ⟨e, k, _, h⟩ := vmPart5_ok (Kernel.start_loaded 0)
  have hheap := h.heap_lt
  refine ⟨k, e, h, growsStack_iff h.reachable h.currEnv (by decide)
    (h.walk_eq_none (by decide +kernel)) ?_ (by decide)⟩
  rw [BitVec.lt_def]
  exact hheap.trans (by decide)

/-- The word below an unmapped megabyte's end: the page that the handler asks for is
not aligned, and it does not return. -/
theorem growsStack_fails : ∃ (s : KernelRun) (e : BitVec 32),
    Reachable KernelRun.Step KernelRun.Init s ∧ s.k.currEnv = some e ∧
    faultStatusHasValidFar (pageFault 0x2ffffc).faultval = true ∧
    walk s.k.st.mem (s.k.envs e).pt 0x2ffffc = none ∧ s.k.st.heap < 0x2ffffc ∧
    (0x2ffffc : BitVec 32) < sysStackAddrFine ∧ ¬ GrowsStack s.k e (pageFault 0x2ffffc) := by
  obtain ⟨e, k, _, h⟩ := vmPart5_ok (Kernel.start_loaded 0)
  have hmiss : walk k.st.mem (k.envs e).pt 0x2ffffc = none := h.walk_eq_none (by decide +kernel)
  have hlo : k.st.heap < 0x2ffffc := by
    rw [BitVec.lt_def]
    exact h.heap_lt.trans (by decide)
  obtain ⟨allocs, hinv⟩ := KernelRun.reachable_inv h.reachable
  refine ⟨_, e, h.reachable, h.currEnv, by decide, hmiss, hlo, by decide, fun hgrows => ?_⟩
  have hgrowable := (growsStack_iff_of_layout (f := pageFault 0x2ffffc)
    (hinv.current_layout h.currEnv) h.currEnv (by decide) hmiss hlo (by decide)).mp hgrows
  exact absurd hgrowable.1 (by decide)

end RpiVm
