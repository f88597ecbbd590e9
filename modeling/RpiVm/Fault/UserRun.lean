import RpiVm.Fault.UserMode

/-!
# Runs in user mode

To a program in user mode its memory is a set of cells, one for each address that it can
access, and a fault below the stack either brings sixteen pages of new cells or ends the run.
This holds as long as the program keeps off the memory of the kernel.
-/

namespace RpiVm

open CLib Transition

/-! ## Cells -/

/-- The memory and the registers of a program. -/
structure UserMem where
  /-- The byte at each address that the program can access. -/
  cells : BitVec 32 → Option (BitVec 8)
  /-- `r0` to `r12`. -/
  regs : Fin 13 → BitVec 32

instance (va x : BitVec 32) : Decidable (InLarge va x) :=
  inferInstanceAs (Decidable (_ ∧ _ ∧ _))

/-- The program can access none of the sixteen pages from an address on. -/
def UserMem.Free (V : UserMem) (va : BitVec 32) : Prop :=
  ∀ i < 16, V.cells (va + BitVec.ofNat 32 i * addressesPer4KB) = none

instance (V : UserMem) (va : BitVec 32) : Decidable (V.Free va) :=
  inferInstanceAs (Decidable (∀ i < 16, _))

/-- A fault at `v`: sixteen pages from the page below on, when the code takes that address for
the start of a large page and nothing is mapped there. They hold what memory holds in the
64 KB block of the first. -/
def UserMem.grow (V : UserMem) (heap : BitVec 32) (m : Mem) (v : BitVec 32) : Option UserMem :=
  let va := v - addressesPer4KB
  if heap < v ∧ v < sysStackAddrFine ∧ v.toNat % 16 = 0 ∧ (secondIndex va).toNat ≤ 240 ∧
      V.Free va then
    some { V with
      cells := fun x =>
        if InLarge va x then some (m (va.extractLsb' 16 16 ++ x.extractLsb' 0 16)) else V.cells x }
  else none

/-- One instruction on cells, if the program goes on. -/
def UserMem.exec (heap : BitVec 32) (m : Mem) (V : UserMem) : UserInstr → Option UserMem
  | .ldrb rd rn =>
    match V.cells (V.regs rn) with
    | some b => some { V with regs := Function.update V.regs rd (b.setWidth 32) }
    | none => V.grow heap m (V.regs rn)
  | .strb rd rn =>
    match V.cells (V.regs rn) with
    | some _ =>
      some { V with cells := Function.update V.cells (V.regs rn) (some ((V.regs rd).setWidth 8)) }
    | none => V.grow heap m (V.regs rn)
  | .alu f => some { V with regs := f V.regs }

/-- The cells of a program after the set-up. -/
def UserMem.start (m : Mem) (regs : Fin 13 → BitVec 32) : UserMem :=
  ⟨fun v => if kernelMap v = some (v, 0b11) then some (m v) else none, regs⟩

theorem UserMem.start_cells (m : Mem) (regs : Fin 13 → BitVec 32) (v : BitVec 32) :
    (UserMem.start m regs).cells v = if kernelMap v = some (v, 0b11) then some (m v) else none :=
  rfl

/-- The register that an instruction takes an address from. -/
def UserInstr.base : UserInstr → Option (Fin 13)
  | .ldrb _ rn => some rn
  | .strb _ rn => some rn
  | .alu _ => none

/-- An address lies in the first-level table of an environment or in a coarse table. -/
def Kernel.InTables (k : Kernel) (e x : BitVec 32) : Prop :=
  ∃ r, Footprint k.st.mem (k.envs e).pt r ∧ r.Contains x.toNat

/-- The kernel has nothing at an address, which is above all that it allocates, and no device
has. -/
def Kernel.Spares (k : Kernel) (x : BitVec 32) : Prop :=
  k.st.heap.toNat ≤ x.toNat ∧ x.toNat < 0x20000000

/-- No access of a run reaches the memory of the kernel or a device. -/
def KeepsOff (k : Kernel) : List UserInstr → UserMem → Prop
  | [], _ => True
  | i :: is, V =>
    (∀ rn, i.base = some rn → (V.cells (V.regs rn)).isSome = true → k.Spares (V.regs rn)) ∧
      ∀ V', V.exec k.st.heap k.st.mem i = some V' → KeepsOff k is V'

/-! ## The map of the kernel -/

/-- Where the stack can grow. -/
def InWindow (x : BitVec 32) : Prop := 0x240000 ≤ x.toNat ∧ x.toNat < 0x300000

/-- An address maps to itself for the program, to itself for the kernel, or not at all. -/
theorem kernelMap_cases (v : BitVec 32) : kernelMap v = some (v, 0b11) ∧ 0x1000 ≤ v.toNat ∨
    kernelMap v = some (v, 0b01) ∧ v.toNat < 0x1000 ∨ kernelMap v = none := by
  unfold kernelMap
  split_ifs with hlow hfull
  · exact .inr (.inl ⟨rfl, hlow⟩)
  · exact .inl ⟨rfl, Nat.not_lt.mp hlow⟩
  · exact .inr (.inr rfl)

/-- Full access is one to one. -/
theorem eq_of_kernelMap_full {v pa : BitVec 32} (h : kernelMap v = some (pa, 0b11)) : pa = v := by
  obtain ⟨hv, _⟩ | ⟨hv, _⟩ | hv := kernelMap_cases v <;> rw [h] at hv
  · exact (Prod.mk.inj (Option.some.inj hv)).1
  · exact (Prod.mk.inj (Option.some.inj hv)).1
  · cases hv

/-- From the heap to the top of the stack all is mapped but the window. -/
theorem kernelMap_above {v : BitVec 32} (hlo : sysHeapStart.toNat ≤ v.toNat)
    (hhi : v.toNat < sysStackAddrFine.toNat) :
    kernelMap v = some (v, 0b11) ∧ ¬ InWindow v ∨ kernelMap v = none ∧ InWindow v := by
  have hlo' : 0x140000 ≤ v.toNat := hlo
  have hhi' : v.toNat < 0x400000 := hhi
  have hranges : (∃ r ∈ fullAccessRanges, r.Contains v.toNat) ↔ ¬ InWindow v := by
    simp only [fullAccessRanges, List.mem_cons, List.not_mem_nil, or_false, exists_eq_or_imp,
      exists_eq_left, Region.Contains, InWindow]
    simp only [kernelBase, addressesPerMB, addressesPer64KB, swiStackAddrFine, intStackAddrFine,
      sysHeapStart, sysStackAddrFine, BitVec.reduceSub, BitVec.reduceToNat]
    omega
  rw [kernelMap, if_neg (by omega)]
  by_cases hv : InWindow v
  · exact .inr ⟨if_neg fun h => hranges.mp h hv, hv⟩
  · exact .inl ⟨if_pos (hranges.mpr hv), hv⟩

/-- The window is not mapped. -/
theorem kernelMap_window {v : BitVec 32} (hv : InWindow v) : kernelMap v = none := by
  have hlo : sysHeapStart.toNat ≤ v.toNat := le_trans (by decide) hv.1
  have hhi : v.toNat < sysStackAddrFine.toNat := hv.2.trans (by decide)
  obtain ⟨_, hout⟩ | ⟨hnone, _⟩ := kernelMap_above hlo hhi
  · exact absurd hv hout
  · exact hnone

/-- Where a large page puts an address. -/
theorem toNat_block_append (va x : BitVec 32) :
    (va.extractLsb' 16 16 ++ x.extractLsb' 0 16 : BitVec 32).toNat =
      va.toNat / 2 ^ 16 * 2 ^ 16 + x.toNat % 2 ^ 16 := by
  have hlt := va.isLt
  rw [toNat_append_eq, BitVec.extractLsb'_toNat, BitVec.extractLsb'_toNat,
    Nat.shiftRight_eq_div_pow, Nat.shiftRight_eq_div_pow]
  omega

/-- The large pages of the window translate within it. -/
theorem inWindow_of_inLarge {va x : BitVec 32} (hva : InWindow va)
    (hidx : (secondIndex va).toNat ≤ 240) (hin : InLarge va x) :
    InWindow x ∧ InWindow (va.extractLsb' 16 16 ++ x.extractLsb' 0 16) ∧
      (va.extractLsb' 16 16 ++ x.extractLsb' 0 16 : BitVec 32).toNat / 2 ^ 16 =
        va.toNat / 2 ^ 16 := by
  rw [secondIndex_toNat] at hidx
  rw [inLarge_iff] at hin
  unfold InWindow at hva ⊢
  rw [toNat_block_append]
  omega

/-- The status bits of a union. -/
theorem wfaultStatus_or (x y : BitVec 32) :
    wfaultStatus (x ||| y) = wfaultStatus x ||| wfaultStatus y := by
  unfold wfaultStatus
  apply BitVec.eq_of_getLsbD_eq
  intro i _
  simp only [BitVec.getLsbD_or, BitVec.getLsbD_and, BitVec.getLsbD_ushiftRight]
  grind

/-! ## The machine and the cells -/

section

variable {A : AbortScratch} {k : Kernel} {e : BitVec 32} {starts : List (BitVec 32)} {s : UserState}
  {V : UserMem}

/-- The table that the hardware walks. -/
abbrev UserState.table (s : UserState) (k : Kernel) (e : BitVec 32) : Table :=
  tableOf s.k.st.mem (k.envs e).pt

/-- The machine has the cells of a program, with large pages at `starts` since the set-up
`k`. -/
structure Represents (A : AbortScratch) (k : Kernel) (e : BitVec 32) (starts : List (BitVec 32))
    (s : UserState) (V : UserMem) : Prop where
  /-- The registers. -/
  regs : s.regs = V.regs
  /-- Nothing but memory has changed. -/
  frame : s.k = { k with st := { k.st with mem := s.k.st.mem, stores := s.k.st.stores } }
  /-- There are no other tables. -/
  words : ∀ i, firstWord s.k.st.mem (k.envs e).pt i = firstWord k.st.mem (k.envs e).pt i
  /-- All in one domain. -/
  inDomain : (s.table k e).InDomain ((k.envs e).domain.setWidth 4)
  /-- The pages of the large pages. -/
  inside : ∀ va ∈ starts, ∀ x, InLarge va x → (s.table k e).walk x =
    some ⟨va.extractLsb' 16 16 ++ x.extractLsb' 0 16, (k.envs e).domain.setWidth 4, flagAttrs 0⟩
  /-- The other addresses. -/
  outside : ∀ x, (∀ va ∈ starts, ¬ InLarge va x) →
    (s.table k e).walk x = (tableOf k.st.mem (k.envs e).pt).walk x
  /-- Large pages lie in the window. -/
  window : ∀ va ∈ starts, InWindow va ∧ (secondIndex va).toNat ≤ 240
  /-- And in different blocks. -/
  apart : starts.Pairwise fun va vb => va.toNat / 2 ^ 16 ≠ vb.toNat / 2 ^ 16
  /-- A cell is an address with full access. -/
  cells : ∀ x, (V.cells x).isSome ↔ ∃ r, (s.table k e).walk x = some r ∧ r.attrs.ap = 0b11
  /-- Above the heap it holds the byte there. -/
  contents : ∀ x r, k.st.heap.toNat ≤ x.toNat → (s.table k e).walk x = some r →
    r.attrs.ap = 0b11 → V.cells x = some (s.k.st.mem r.pa)
  /-- Blocks without a large page are as they were. -/
  fresh : ∀ x, InWindow x → (∀ va ∈ starts, va.toNat / 2 ^ 16 ≠ x.toNat / 2 ^ 16) →
    s.k.st.mem x = k.st.mem x
  /-- So is, but for the tables and what aborts change, what the kernel keeps and what the program
  cannot access. -/
  kept : ∀ x, ¬ k.InTables e x → ¬ A.Touches x → ¬ (k.Spares x ∧ kernelMap x = some (x, 0b11)) →
    ¬ InWindow x → s.k.st.mem x = k.st.mem x

/-- Where a cell is in memory after the set-up. -/
theorem UserSpace.map_eq (U : UserSpace k e) {x : BitVec 32} {r : Translation}
    (hr : (tableOf k.st.mem (k.envs e).pt).walk x = some r) :
    kernelMap x = some (r.pa, r.attrs.ap) := by
  rw [← U.map x, hr]
  rfl

/-- At the start. -/
theorem Represents.start (U : UserSpace k e) (regs : Fin 13 → BitVec 32) :
    Represents A k e [] ⟨k, regs⟩ (.start k.st.mem regs) := by
  have hfull : ∀ {x r}, (tableOf k.st.mem (k.envs e).pt).walk x = some r → r.attrs.ap = 0b11 →
      kernelMap x = some (x, 0b11) ∧ r.pa = x := by
    intro x r hr hap
    have hmap := U.map_eq hr
    rw [hap] at hmap
    have hpa := eq_of_kernelMap_full hmap
    exact ⟨hpa ▸ hmap, hpa⟩
  refine ⟨rfl, rfl, fun _ => rfl, U.inDomain, by simp, fun _ _ => rfl, by simp, .nil, ?_, ?_,
    fun _ _ _ => rfl, fun _ _ _ _ _ => rfl⟩
  · intro x
    constructor
    · intro hx
      have hmap : kernelMap x = some (x, 0b11) := by
        by_contra hne
        rw [UserMem.start_cells, if_neg hne] at hx
        cases hx
      rw [← U.map x, Option.map_eq_some_iff] at hmap
      obtain ⟨r, hr, hpair⟩ := hmap
      exact ⟨r, hr, (Prod.mk.inj hpair).2⟩
    · rintro ⟨r, hr, hap⟩
      rw [UserMem.start_cells, if_pos (hfull hr hap).1]
      rfl
  · intro x r _ hr hap
    obtain ⟨hmap, hpa⟩ := hfull hr hap
    rw [UserMem.start_cells, if_pos hmap, hpa]

/-- Every cell is where the set-up put it, or in a large page. -/
theorem Represents.cell_cases (h : Represents A k e starts s V) (U : UserSpace k e) {x : BitVec 32}
    {r : Translation} (hr : (s.table k e).walk x = some r) (hap : r.attrs.ap = 0b11) :
    r.pa = x ∧ kernelMap x = some (x, 0b11) ∧ ¬ InWindow x ∨
      ∃ va ∈ starts, InLarge va x ∧ r.pa = va.extractLsb' 16 16 ++ x.extractLsb' 0 16 ∧
        r.pa.toNat / 2 ^ 16 = va.toNat / 2 ^ 16 ∧ InWindow r.pa ∧ InWindow x := by
  by_cases hx : ∃ va ∈ starts, InLarge va x
  · obtain ⟨va, hva, hin⟩ := hx
    rw [h.inside va hva x hin] at hr
    obtain rfl := Option.some.inj hr
    obtain ⟨hx, hpa, hblock⟩ := inWindow_of_inLarge (h.window va hva).1 (h.window va hva).2 hin
    exact .inr ⟨va, hva, hin, rfl, hblock, hpa, hx⟩
  · push Not at hx
    rw [h.outside x hx] at hr
    have hmap := U.map_eq hr
    rw [hap] at hmap
    have hpa := eq_of_kernelMap_full hmap
    rw [hpa] at hmap
    refine .inl ⟨hpa, hmap, fun hwindow => ?_⟩
    cases (kernelMap_window hwindow).symm.trans hmap

/-- Different cells are different bytes of memory. -/
theorem Represents.cell_inj (h : Represents A k e starts s V) (U : UserSpace k e) {x y : BitVec 32}
    {r r' : Translation} (hr : (s.table k e).walk x = some r) (hap : r.attrs.ap = 0b11)
    (hr' : (s.table k e).walk y = some r') (hap' : r'.attrs.ap = 0b11) (hpa : r.pa = r'.pa) :
    x = y := by
  obtain ⟨hx, _, hout⟩ | ⟨va, hva, hin, hx, hblock, hwin, _⟩ := h.cell_cases U hr hap <;>
    obtain ⟨hy, _, hout'⟩ | ⟨vb, hvb, hin', hy, hblock', hwin', _⟩ := h.cell_cases U hr' hap'
  · rw [← hx, ← hy, hpa]
  · rw [← hpa, hx] at hwin'
    exact absurd hwin' hout
  · rw [hpa, hy] at hwin
    exact absurd hwin hout'
  · -- one block holds one large page, and that has each offset once
    have hsame : va = vb := by
      by_contra hne
      have hsymm : Std.Symm fun va vb : BitVec 32 => va.toNat / 2 ^ 16 ≠ vb.toNat / 2 ^ 16 :=
        ⟨fun _ _ hab => hab.symm⟩
      exact h.apart.forall hva hvb hne (by rw [← hblock, ← hblock', hpa])
    subst hsame
    have hlow : x.toNat % 2 ^ 16 = y.toNat % 2 ^ 16 := by
      have heq := congrArg BitVec.toNat (hx.symm.trans (hpa.trans hy))
      rw [toNat_append_eq, toNat_append_eq] at heq
      simpa [BitVec.extractLsb'_toNat] using Nat.add_left_cancel heq
    have hpage := (inLarge_iff va x).mp hin
    have hpage' := (inLarge_iff va y).mp hin'
    exact BitVec.eq_of_toNat_eq (by omega)

/-- The handler takes the address of every fault of a program for valid. -/
theorem userFault_hasValidFar {kind : BitVec 32} (hkind : kind = 0b00101 ∨ kind = 0b01101)
    (isStore : Bool) (va : BitVec 32) :
    faultStatusHasValidFar (s.k.userFault kind isStore va).faultval = true := by
  generalize hfld : firstWord s.k.st.mem s.k.cp15.tableBase (firstIndex va) = fld
  have hdomain : ∀ d : BitVec 4, wfaultStatus (d.setWidth 32 <<< 4) = 0 := by decide
  have hstore : wfaultStatus (if isStore then 1#32 <<< 11 else 0) = 0 := by
    cases isStore <;> decide
  -- the status is the kind, on a section or on a page
  have hstatus : wfaultStatus (s.k.userFault kind isStore va).faultval =
      wfaultStatus (kind ||| if IsCoarse fld then 0b10#32 else 0) := by
    rw [Kernel.userFault, hfld, wfaultStatus_or, wfaultStatus_or, hdomain, hstore]
    exact (BitVec.or_zero).trans (BitVec.or_zero)
  rw [faultStatusHasValidFar, hstatus]
  obtain rfl | rfl := hkind <;> split_ifs <;> rfl

/-- Every translation has the domain of the environment and full access, or none. -/
theorem Represents.attrs (h : Represents A k e starts s V) (U : UserSpace k e) {x : BitVec 32}
    {r : Translation} (hr : (s.table k e).walk x = some r) :
    r.domain = (k.envs e).domain.setWidth 4 ∧ r.attrs.apx = 0 ∧
      (r.attrs.ap = 0b11 ∨ r.attrs.ap = 0b01 ∧ x.toNat < 0x1000) := by
  refine ⟨h.inDomain.walk hr, ?_⟩
  by_cases hx : ∃ va ∈ starts, InLarge va x
  · obtain ⟨va, hva, hin⟩ := hx
    rw [h.inside va hva x hin] at hr
    obtain rfl := Option.some.inj hr
    have hattrs : (flagAttrs 0).apx = 0 ∧ (flagAttrs 0).ap = 0b11 := by decide
    exact ⟨hattrs.1, .inl hattrs.2⟩
  · push Not at hx
    rw [h.outside x hx] at hr
    have hmap := U.map_eq hr
    refine ⟨U.apx x r hr, ?_⟩
    obtain ⟨hx, _⟩ | ⟨hx, hlt⟩ | hx := kernelMap_cases x <;> rw [hmap] at hx
    · exact .inl (Prod.mk.inj (Option.some.inj hx)).2
    · exact .inr ⟨(Prod.mk.inj (Option.some.inj hx)).2, hlt⟩
    · cases hx

/-- The hardware walks the table of the environment. -/
theorem Represents.translate_eq (h : Represents A k e starts s V) (U : UserSpace k e)
    (x : BitVec 32) : s.k.translate x = (s.table k e).walk x := by
  have hcp15 : s.k.cp15 = k.cp15 := by rw [h.frame]
  rw [Kernel.translate, hcp15, U.tableBase, walk_eq_tableOf_walk]

/-- It checks the accesses in the domain of the environment. -/
theorem Represents.client (h : Represents A k e starts s V) (U : UserSpace k e) {x : BitVec 32}
    {r : Translation} (hr : (s.table k e).walk x = some r) :
    s.k.cp15.domainCtrl.extractLsb' (2 * r.domain.toNat) 2 = 0b01#2 := by
  have hcp15 : s.k.cp15 = k.cp15 := by rw [h.frame]
  rw [hcp15, (h.attrs U hr).1, U.client]

/-- An access to a cell. -/
theorem Represents.userAccess_ok (h : Represents A k e starts s V) (U : UserSpace k e)
    {x : BitVec 32} {r : Translation} (hr : (s.table k e).walk x = some r)
    (hap : r.attrs.ap = 0b11) (isStore : Bool) : s.k.userAccess isStore x = .ok r.pa := by
  obtain ⟨_, hapx, _⟩ := h.attrs U hr
  have hallows : r.attrs.allowsUser isStore = true := by
    cases isStore <;> simp [Attrs.allowsUser, hap, hapx]
  rw [Kernel.userAccess, h.translate_eq U, hr]
  simp only [h.client U hr, hallows, if_true]

/-- An access to another address. -/
theorem Represents.userAccess_error (h : Represents A k e starts s V) (U : UserSpace k e)
    {x : BitVec 32} (hx : V.cells x = none) (isStore : Bool) :
    ∃ f, s.k.userAccess isStore x = .error f ∧ f.address = x ∧
      faultStatusHasValidFar f.faultval = true := by
  rw [Kernel.userAccess, h.translate_eq U]
  cases hr : (s.table k e).walk x with
  | none => exact ⟨_, rfl, rfl, userFault_hasValidFar (.inl rfl) _ _⟩
  | some r =>
    obtain ⟨_, _, hap | ⟨hap, hlt⟩⟩ := h.attrs U hr
    · have hsome := (h.cells x).mpr ⟨r, hr, hap⟩
      rw [hx] at hsome
      cases hsome
    · have hallows : r.attrs.allowsUser isStore = false := by
        cases isStore <;> simp [Attrs.allowsUser, hap]
      refine ⟨s.k.userFault 0b01101 isStore x, ?_, rfl, userFault_hasValidFar (.inr rfl) isStore x⟩
      simp only [h.client U hr, hallows, Bool.false_eq_true, if_false]

/-- The tables lie below the end of the heap. -/
theorem UserSpace.not_inTables (U : UserSpace k e) {x : BitVec 32}
    (hx : k.st.heap.toNat ≤ x.toNat) : ¬ k.InTables e x := by
  rintro ⟨r, hr, hin⟩
  have hle : r.base + r.size ≤ k.st.heap.toNat := by
    rcases hr with rfl | ⟨i, hi, rfl⟩
    · exact U.layout.first_le
    · exact U.layout.coarse_le i hi
  unfold Region.Contains at hin
  omega

/-- A cell above the heap is a byte outside the tables. -/
theorem Represents.pa_not_inTables (h : Represents A k e starts s V) (U : UserSpace k e)
    {x : BitVec 32} {r : Translation} (hx : k.st.heap.toNat ≤ x.toNat)
    (hr : (s.table k e).walk x = some r) (hap : r.attrs.ap = 0b11) : ¬ k.InTables e r.pa := by
  apply U.not_inTables
  obtain ⟨hpa, _, _⟩ | ⟨_, _, _, _, _, hwindow, _⟩ := h.cell_cases U hr hap
  · rwa [hpa]
  · have hlt := U.heap_lt.2
    unfold InWindow at hwindow
    omega

/-- A memory that is the same on the tables has the same ones. -/
theorem Represents.tables_congr (h : Represents A k e starts s V) (U : UserSpace k e) {m : Mem}
    (hm : ∀ x, k.InTables e x → m x = s.k.st.mem x) :
    (∀ i, firstWord m (k.envs e).pt i = firstWord k.st.mem (k.envs e).pt i) ∧
      tableOf m (k.envs e).pt = s.table k e := by
  have hagree : ∀ r, Footprint s.k.st.mem (k.envs e).pt r → s.k.st.mem.AgreeOn m r :=
    fun r hr x hx => (hm x ⟨r, (footprint_congr h.words).mp hr, hx⟩).symm
  exact ⟨fun i => (firstWord_congr U.layout.aligned (hagree _ (.inl rfl)) i).symm.trans (h.words i),
    (tableOf_congr U.layout.aligned hagree).symm⟩

/-! ## Loads and stores -/

/-- The registers are not memory. -/
theorem Represents.withRegs (h : Represents A k e starts s V) (regs : Fin 13 → BitVec 32) :
    Represents A k e starts { s with regs := regs } { V with regs := regs } :=
  { h with regs := rfl }

/-- A store to a cell above the heap is a store to the cell. -/
theorem Represents.store (h : Represents A k e starts s V) (U : UserSpace k e) {x : BitVec 32}
    {r : Translation} (hx : k.Spares x) (hr : (s.table k e).walk x = some r)
    (hap : r.attrs.ap = 0b11) (b : BitVec 8) :
    Represents A k e starts
      { s with k := { s.k with st := { s.k.st with mem := s.k.st.mem.store8 r.pa b } } }
      { V with cells := Function.update V.cells x (some b) } := by
  have hpa := h.pa_not_inTables U hx.1 hr hap
  have hother : ∀ y, y ≠ r.pa → s.k.st.mem.store8 r.pa b y = s.k.st.mem y :=
    fun y hy => if_neg hy
  have hsame : ∀ y, k.InTables e y → s.k.st.mem.store8 r.pa b y = s.k.st.mem y :=
    fun y hy => hother y fun heq => hpa (heq ▸ hy)
  obtain ⟨hwords, htable⟩ := h.tables_congr U hsame
  refine ⟨h.regs, ?_, hwords, ?_, ?_, ?_, h.window, h.apart, ?_, ?_, ?_, ?_⟩
  · exact congrArg
      (fun k' : Kernel => { k' with st := { k'.st with mem := s.k.st.mem.store8 r.pa b } }) h.frame
  · simp only [UserState.table, htable]
    exact h.inDomain
  · simp only [UserState.table, htable]
    exact h.inside
  · simp only [UserState.table, htable]
    exact h.outside
  · simp only [UserState.table, htable]
    intro y
    by_cases hy : y = x
    · subst hy
      rw [Function.update_self]
      exact ⟨fun _ => ⟨r, hr, hap⟩, fun _ => rfl⟩
    · rw [Function.update_of_ne hy]
      exact h.cells y
  · simp only [UserState.table, htable]
    intro y r' hy hr' hap'
    by_cases hyx : y = x
    · subst hyx
      obtain rfl := Option.some.inj (hr.symm.trans hr')
      rw [Function.update_self, Mem.store8, if_pos rfl]
    · rw [Function.update_of_ne hyx, hother _ fun heq => hyx (h.cell_inj U hr' hap' hr hap heq)]
      exact h.contents y r' hy hr' hap'
  · intro y hy hfresh
    refine (hother y fun heq => ?_).trans (h.fresh y hy hfresh)
    obtain ⟨hpa, hmap, hout⟩ | ⟨va, hva, _, _, hblock, _⟩ := h.cell_cases U hr hap
    · exact hout (hpa ▸ heq ▸ hy)
    · exact hfresh va hva (by rw [heq, hblock])
  · intro y htables htouches hspares hy
    refine (hother y fun heq => ?_).trans (h.kept y htables htouches hspares hy)
    obtain ⟨hpa, hmap, _⟩ | ⟨_, _, _, _, _, hwindow, _⟩ := h.cell_cases U hr hap
    · rw [hpa] at heq
      exact hspares (heq ▸ ⟨hx, hmap⟩)
    · exact hy (heq ▸ hwindow)

/-! ## Faults -/

/-- Addresses in one page translate with the same attributes. -/
theorem Table.walk_attrs_congr (t : Table) {x y : BitVec 32}
    (hpage : x.toNat / 2 ^ 12 = y.toNat / 2 ^ 12) :
    (t.walk x).map Translation.attrs = (t.walk y).map Translation.attrs := by
  have hfirst : firstIndex x = firstIndex y := (firstIndex_eq_iff _ _).mpr (by omega)
  have hsecond : secondIndex x = secondIndex y := by
    apply BitVec.eq_of_toNat_eq
    rw [secondIndex_toNat, secondIndex_toNat, hpage]
  rw [Table.walk, Table.walk, hfirst]
  cases t (firstIndex y) with
  | fault => rfl
  | coarse d entries =>
    rw [FirstLevel.walk, FirstLevel.walk, hsecond]
    cases entries (secondIndex y) <;> rfl
  | sec => rfl
  | reserved => rfl

/-- A page is all cells or none. -/
theorem Represents.cells_congr (h : Represents A k e starts s V) {x y : BitVec 32}
    (hpage : x.toNat / 2 ^ 12 = y.toNat / 2 ^ 12) (hx : V.cells x = none) : V.cells y = none := by
  cases hy : V.cells y with
  | none => rfl
  | some b =>
    obtain ⟨r, hr, hap⟩ := (h.cells y).mp (by rw [hy]; rfl)
    have hattrs := (s.table k e).walk_attrs_congr hpage
    rw [hr] at hattrs
    obtain ⟨r', hr', heq⟩ := Option.map_eq_some_iff.mp hattrs
    have hsome := (h.cells x).mpr ⟨r', hr', by rw [heq]; exact hap⟩
    rw [hx] at hsome
    cases hsome

/-- Sixteen pages are free if all of their addresses are. -/
theorem Represents.free_iff (h : Represents A k e starts s V) {va : BitVec 32}
    (hidx : (secondIndex va).toNat ≤ 240) :
    V.Free va ↔ ∀ x, InLarge va x → V.cells x = none := by
  rw [secondIndex_toNat] at hidx
  have hpage : ∀ i < 16, (va + BitVec.ofNat 32 i * addressesPer4KB).toNat / 2 ^ 12 =
      va.toNat / 2 ^ 12 + i := by
    intro i hi
    have hlt := va.isLt
    rw [BitVec.toNat_add, BitVec.toNat_mul, BitVec.toNat_ofNat,
      show addressesPer4KB.toNat = 0x1000 from rfl]
    omega
  constructor
  · intro hfree x hx
    rw [inLarge_iff] at hx
    obtain ⟨i, hi⟩ := Nat.exists_eq_add_of_le (show va.toNat / 2 ^ 12 ≤ x.toNat / 2 ^ 12 by omega)
    have hi' : i < 16 := by omega
    exact h.cells_congr ((hpage i hi').trans hi.symm) (hfree i hi')
  · intro hnone i hi
    apply hnone
    have hi' := hpage i hi
    rw [inLarge_iff]
    omega

/-- Between the heap and the top of the stack, what is no cell is a free address of the
window. -/
theorem Represents.window_of_none (h : Represents A k e starts s V) (U : UserSpace k e)
    {x : BitVec 32} (hlo : sysHeapStart.toNat ≤ x.toNat) (hhi : x.toNat < sysStackAddrFine.toNat)
    (hx : V.cells x = none) : InWindow x ∧ (s.table k e).walk x = none := by
  have hwalk : (s.table k e).walk x = none := by
    cases hr : (s.table k e).walk x with
    | none => rfl
    | some r =>
      obtain ⟨_, _, hap | ⟨_, hlt⟩⟩ := h.attrs U hr
      · have hsome := (h.cells x).mpr ⟨r, hr, hap⟩
        rw [hx] at hsome
        cases hsome
      · have hlo' : 0x140000 ≤ x.toNat := hlo
        omega
  refine ⟨?_, hwalk⟩
  have hout : ∀ va ∈ starts, ¬ InLarge va x := by
    intro va hva hin
    cases (h.inside va hva x hin).symm.trans hwalk
  have hmap := U.map x
  rw [← h.outside x hout, hwalk] at hmap
  obtain ⟨hfull, _⟩ | ⟨_, hwindow⟩ := kernelMap_above hlo hhi
  · cases hmap.trans hfull
  · exact hwindow

/-- The window has a coarse table from the start on. -/
theorem Represents.coarse_window (h : Represents A k e starts s V) (U : UserSpace k e)
    {va : BitVec 32} (hva : InWindow va) : ∃ entries,
      s.table k e (firstIndex va) = .coarse ((k.envs e).domain.setWidth 4) entries ∧
        IsCoarse (firstWord s.k.st.mem (k.envs e).pt (firstIndex va)) := by
  unfold InWindow at hva
  -- the heap ends and the window starts in the same section
  have hheap : firstIndex 0x200000 = firstIndex va := by
    rw [firstIndex_eq_iff, show (0x200000 : BitVec 32).toNat = 0x200000 from rfl]
    omega
  have hfree : firstIndex 0x240000 = firstIndex va := by
    rw [firstIndex_eq_iff, show (0x240000 : BitVec 32).toNat = 0x240000 from rfl]
    omega
  have hmapped := U.map 0x200000
  have hunmapped := U.map 0x240000
  rw [show kernelMap 0x200000 = some (0x200000, 0b11) by decide] at hmapped
  rw [show kernelMap 0x240000 = none by decide] at hunmapped
  rw [Table.walk, hheap] at hmapped
  rw [Table.walk, hfree] at hunmapped
  have hcoarse : IsCoarse (firstWord k.st.mem (k.envs e).pt (firstIndex va)) := by
    cases hentry : tableOf k.st.mem (k.envs e).pt (firstIndex va) with
    | fault => simp [hentry, FirstLevel.walk] at hmapped
    | coarse d entries => exact isCoarse_of_tableOf hentry
    | sec base d attrs => simp [hentry, FirstLevel.walk] at hunmapped
    | reserved => simp [hentry, FirstLevel.walk] at hmapped
  rw [← h.words] at hcoarse
  have hentry := tableOf_of_isCoarse hcoarse
  have hdomain := (h.inDomain _).1 _ _ hentry
  rw [hdomain] at hentry
  exact ⟨_, hentry, hcoarse⟩

/-- The page of the window that a page miss maps first. -/
theorem Represents.start_window (h : Represents A k e starts s V) (U : UserSpace k e)
    {v : BitVec 32} (hlo : k.st.heap < v) (hhi : v < sysStackAddrFine) (hv : V.cells v = none)
    (hva : V.cells (v - addressesPer4KB) = none) : InWindow (v - addressesPer4KB) := by
  have hlo' : sysHeapStart.toNat ≤ v.toNat := U.heap_lt.1.trans hlo.le
  obtain ⟨hwindow, _⟩ := h.window_of_none U hlo' hhi hv
  have hsub := toNat_sub_addressesPer4KB v
  have hstart : sysHeapStart.toNat = 0x140000 := rfl
  have hstack : sysStackAddrFine.toNat = 0x400000 := rfl
  unfold InWindow at hwindow
  rw [if_pos (by omega)] at hsub
  exact (h.window_of_none U (by omega) (by omega) hva).1

/-- A page miss is answered exactly when the start of its large page is a multiple of sixteen,
not too near the end of a section, and the sixteen pages are free. -/
theorem Represents.apply_pageMiss_iff (h : Represents A k e starts s V) (U : UserSpace k e)
    {v va : BitVec 32} (hva : va = v - addressesPer4KB) (hlo : k.st.heap < v)
    (hhi : v < sysStackAddrFine) (hv : V.cells v = none) :
    (∃ t, (pageMissCall (k.envs e).domain v).apply (s.table k e) = some t) ↔
      v.toNat % 16 = 0 ∧ (secondIndex va).toNat ≤ 240 ∧ V.Free va := by
  have hmod : isAligned va 16 = true ↔ v.toNat % 16 = 0 := by
    have hsub := toNat_sub_addressesPer4KB v
    rw [← hva] at hsub
    rw [show (16 : BitVec 32) = BitVec.twoPow 32 4 by decide, isAligned_twoPow va (by decide)]
    split_ifs at hsub <;> omega
  have hsecond : ∀ entries, s.table k e (firstIndex va) =
      .coarse ((k.envs e).domain.setWidth 4) entries → ∀ x, firstIndex x = firstIndex va →
        ((s.table k e).walk x = none ↔ entries (secondIndex x) = .fault) := by
    intro entries hentry x hx
    rw [Table.walk, hx, hentry, FirstLevel.walk]
    cases entries (secondIndex x) <;> simp [SecondLevel.walk]
  constructor
  · rintro ⟨t, happly⟩
    obtain ⟨_, _, _, haligned, hidx, hwalk⟩ := pageMissCall_walk hva happly
    refine ⟨hmod.mp haligned, hidx, (h.free_iff hidx).mpr fun x hx => ?_⟩
    cases hcell : V.cells x with
    | none => rfl
    | some b =>
      obtain ⟨r, hr, _⟩ := (h.cells x).mp (by rw [hcell]; rfl)
      cases hr.symm.trans ((hwalk x).1 hx).1
  · rintro ⟨h16, hidx, hfree⟩
    have hfirst : V.cells va = none := by
      have hin : InLarge va va := ⟨rfl, le_rfl, Nat.lt_add_of_pos_right (by decide)⟩
      exact (h.free_iff hidx).mp hfree va hin
    have hwindow := h.start_window U hlo hhi hv (hva ▸ hfirst)
    rw [← hva] at hwindow
    obtain ⟨entries, hentry, _⟩ := h.coarse_window U hwindow
    refine ⟨_, MapCall.apply_lg_eq_some.mpr ⟨_, entries, by rw [← hva, hentry]; rfl,
      hva ▸ hmod.mpr h16, hva ▸ hmod.mpr h16, hva ▸ hidx, ?_, rfl⟩⟩
    rw [← hva]
    intro j hj hj'
    -- the page of the entry
    have hx : ∃ x : BitVec 32, InLarge va x ∧ secondIndex x = j ∧ InWindow x := by
      have hlt := va.isLt
      rw [secondIndex_toNat] at hidx hj hj'
      have hnat :
          (BitVec.ofNat 32 (va.toNat + (j.toNat - va.toNat / 2 ^ 12 % 256) * 2 ^ 12)).toNat =
            va.toNat + (j.toNat - va.toNat / 2 ^ 12 % 256) * 2 ^ 12 := by
        unfold InWindow at hwindow
        rw [BitVec.toNat_ofNat, Nat.mod_eq_of_lt (by omega)]
      refine ⟨BitVec.ofNat 32 (va.toNat + (j.toNat - va.toNat / 2 ^ 12 % 256) * 2 ^ 12), ?_, ?_, ?_⟩
      · rw [inLarge_iff, hnat]
        omega
      · apply BitVec.eq_of_toNat_eq
        rw [secondIndex_toNat, hnat]
        omega
      · unfold InWindow at hwindow ⊢
        rw [hnat]
        omega
    obtain ⟨x, hin, rfl, hx⟩ := hx
    unfold InWindow at hx
    refine (hsecond entries hentry x hin.1).mp (h.window_of_none U ?_ ?_ ?_).2
    · exact le_trans (by decide) hx.1
    · exact hx.2.trans (by decide)
    · exact (h.free_iff hidx).mp hfree x hin

/-- Large pages that do not overlap are in different blocks. -/
theorem block_ne_of_disjoint {va vb : BitVec 32} (ha : InWindow va ∧ (secondIndex va).toNat ≤ 240)
    (hb : InWindow vb ∧ (secondIndex vb).toNat ≤ 240)
    (hdisjoint : ∀ x, InLarge vb x → ¬ InLarge va x) : va.toNat / 2 ^ 16 ≠ vb.toNat / 2 ^ 16 := by
  intro hblock
  have hva := hdisjoint va
  have hvb := hdisjoint vb
  rw [secondIndex_toNat] at ha hb
  rw [inLarge_iff, inLarge_iff] at hva hvb
  unfold InWindow at ha hb
  omega

/-- The table is laid out. -/
theorem Represents.layout (h : Represents A k e starts s V) (U : UserSpace k e) :
    Layout s.k.st.mem (k.envs e).pt s.k.st.heap.toNat := by
  have hheap : s.k.st.heap = k.st.heap := by rw [h.frame]
  obtain ⟨haligned, hfirst, hcoarse, hapart, hdistinct⟩ := U.layout
  rw [hheap]
  refine ⟨haligned, hfirst, ?_, ?_, ?_⟩ <;> simp only [h.words] <;> assumption

/-- A page miss that is answered makes new cells. -/
theorem Represents.grow (h : Represents A k e starts s V) (U : UserSpace k e) {v va : BitVec 32}
    (hva : va = v - addressesPer4KB) (hlo : k.st.heap < v) (hhi : v < sysStackAddrFine)
    (hv : V.cells v = none) (h16 : v.toNat % 16 = 0) (hidx : (secondIndex va).toNat ≤ 240)
    (hfree : V.Free va) : ∃ st,
      (pageMissCall (k.envs e).domain v).exec s.k.st (k.envs e).pt = .ok st ∧
      (∀ x, ¬ k.InTables e x → st.mem x = s.k.st.mem x) ∧
      Represents A k e (va :: starts) { s with k := { s.k with st := st } } { V with
        cells := fun x =>
          if InLarge va x then some (k.st.mem (va.extractLsb' 16 16 ++ x.extractLsb' 0 16))
          else V.cells x } := by
  obtain ⟨t, happly⟩ := (h.apply_pageMiss_iff U hva hlo hhi hv).mpr ⟨h16, hidx, hfree⟩
  have hheap : s.k.st.heap = k.st.heap := by rw [h.frame]
  have hfit : (pageMissCall (k.envs e).domain v).heapEnd s.k.st (k.envs e).pt < 2 ^ 32 :=
    pageMissCall_heapEnd_lt (hheap ▸ hlo) hhi
  obtain ⟨st, hexec, heffect, htable⟩ := MapCall.refines (h.layout U) hfit happly
  obtain ⟨d, entries, hentry, _, _, hwalk⟩ := pageMissCall_walk hva happly
  have hself : InLarge va va := ⟨rfl, le_rfl, Nat.lt_add_of_pos_right (by decide)⟩
  have hcells := (h.free_iff hidx).mp hfree
  have hwindow : InWindow va := by
    have hwindow := h.start_window U hlo hhi hv (hva ▸ hcells va hself)
    rwa [← hva] at hwindow
  obtain ⟨entries', hentry', hcoarse⟩ := h.coarse_window U hwindow
  obtain rfl : d = (k.envs e).domain.setWidth 4 := by
    rw [hentry'] at hentry
    exact (Prod.mk.inj (Option.some.inj hentry)).1.symm
  have hindex : firstIndex (pageMissCall (k.envs e).domain v).va = firstIndex va := by
    rw [hva]
    rfl
  have hwords : ∀ i, firstWord st.mem (k.envs e).pt i = firstWord k.st.mem (k.envs e).pt i := by
    intro i
    by_cases hi : i = firstIndex va
    · rw [hi, ← hindex, heffect.keep (by rw [hindex]; exact hcoarse), h.words]
    · rw [heffect.others i (by rwa [hindex]), h.words]
  have hmem : ∀ y, ¬ k.InTables e y → st.mem y = s.k.st.mem y := by
    intro y hy
    refine heffect.frame ⟨y.toNat, 1⟩ (fun r hr => ?_) y ⟨le_rfl, Nat.lt_succ_self _⟩
    have hout : ¬ r.Contains y.toNat := fun hin => hy ⟨r, (footprint_congr hwords).mp hr, hin⟩
    unfold Region.Contains at hout
    show r.base + r.size ≤ y.toNat ∨ y.toNat + 1 ≤ r.base
    omega
  have hst : st = { s.k.st with mem := st.mem, stores := st.stores } := by
    obtain ⟨hheap', hblocks, _⟩ | ⟨hnot, _⟩ := heffect.alloc
    · have hstart := heffect.heapStart_eq
      cases st
      simp_all
    · rw [hindex] at hnot
      exact absurd hcoarse hnot
  have hout : ∀ {x r}, (s.table k e).walk x = some r → ¬ InLarge va x := by
    intro x r hr hin
    cases hr.symm.trans ((hwalk x).1 hin).1
  have htable' : UserState.table { s with k := { s.k with st := st } } k e = t := htable
  have hattrs : (flagAttrs 0).ap = 0b11 := by decide
  refine ⟨st, hexec, hmem, h.regs, ?_, hwords, ?_, ?_, ?_, ?_, ?_, ?_, ?_, ?_, ?_⟩
  · calc { s.k with st := st }
        = { s.k with st := { s.k.st with mem := st.mem, stores := st.stores } } :=
          congrArg (fun st => { s.k with st := st }) hst
      _ = _ := congrArg (fun k' : Kernel =>
          { k' with st := { k'.st with mem := st.mem, stores := st.stores } }) h.frame
  · rw [htable']
    exact MapCall.apply_inDomain happly h.inDomain rfl
  · rw [htable']
    intro vb hvb x hin
    obtain rfl | hvb := List.mem_cons.mp hvb
    · exact ((hwalk x).1 hin).2
    · rw [(hwalk x).2 (hout (h.inside vb hvb x hin))]
      exact h.inside vb hvb x hin
  · rw [htable']
    intro x hx
    rw [(hwalk x).2 (hx va List.mem_cons_self)]
    exact h.outside x fun vb hvb => hx vb (List.mem_cons_of_mem _ hvb)
  · intro vb hvb
    obtain rfl | hvb := List.mem_cons.mp hvb
    · exact ⟨hwindow, hidx⟩
    · exact h.window vb hvb
  · exact .cons (fun vb hvb => block_ne_of_disjoint ⟨hwindow, hidx⟩ (h.window vb hvb) fun x hin =>
      hout (h.inside vb hvb x hin)) h.apart
  · rw [htable']
    intro x
    by_cases hin : InLarge va x
    · simp only [if_pos hin, ((hwalk x).1 hin).2]
      exact ⟨fun _ => ⟨_, rfl, hattrs⟩, fun _ => rfl⟩
    · simp only [if_neg hin, (hwalk x).2 hin]
      exact h.cells x
  · rw [htable']
    intro x r hx hr hap
    by_cases hin : InLarge va x
    · rw [((hwalk x).1 hin).2] at hr
      obtain rfl := Option.some.inj hr
      -- no large page has the block, so that it is as the set-up left it
      obtain ⟨_, hpa, hblock⟩ := inWindow_of_inLarge hwindow hidx hin
      have hge : k.st.heap.toNat ≤
          (va.extractLsb' 16 16 ++ x.extractLsb' 0 16 : BitVec 32).toNat :=
        U.heap_lt.2.le.trans (le_trans (by decide) hpa.1)
      simp only [if_pos hin]
      rw [hmem _ (U.not_inTables hge), h.fresh _ hpa fun vb hvb => ?_]
      rw [hblock]
      exact (block_ne_of_disjoint ⟨hwindow, hidx⟩ (h.window vb hvb) fun y hin =>
        hout (h.inside vb hvb y hin)).symm
    · rw [(hwalk x).2 hin] at hr
      simp only [if_neg hin]
      rw [h.contents x r hx hr hap, hmem _ (h.pa_not_inTables U hx hr hap)]
  · intro x hx hfresh
    have hge := U.heap_lt.2
    rw [hmem x (U.not_inTables (by unfold InWindow at hx; omega))]
    exact h.fresh x hx fun vb hvb => hfresh vb (List.mem_cons_of_mem _ hvb)
  · intro x htables htouches hspares hx
    rw [hmem x htables]
    exact h.kept x htables htouches hspares hx

/-- When the cells can grow. -/
theorem UserMem.grow_eq_some {V V' : UserMem} {heap v : BitVec 32} {m : Mem} :
    V.grow heap m v = some V' ↔
      (heap < v ∧ v < sysStackAddrFine ∧ v.toNat % 16 = 0 ∧
        (secondIndex (v - addressesPer4KB)).toNat ≤ 240 ∧ V.Free (v - addressesPer4KB)) ∧
      { V with
        cells := fun x =>
          if InLarge (v - addressesPer4KB) x then
            some (m ((v - addressesPer4KB).extractLsb' 16 16 ++ x.extractLsb' 0 16))
          else V.cells x } = V' := by
  rw [UserMem.grow, Option.ite_none_right_eq_some, Option.some.injEq]

/-- The handler makes new cells and returns, or it does not return. -/
theorem Represents.dataAbortVector (h : Represents A k e starts s V) (U : UserSpace k e) {f : Fault}
    (hfar : faultStatusHasValidFar f.faultval = true) (hv : V.cells f.address = none) :
    (∀ V', V.grow k.st.heap k.st.mem f.address = some V' →
      ∃ starts' k', RpiVm.dataAbortVector s.k f = .ok k' ∧
        (∀ x, ¬ k.InTables e x → k'.st.mem x = s.k.st.mem x) ∧
        Represents A k e starts' { s with k := k' } V') ∧
    (V.grow k.st.heap k.st.mem f.address = none → ∃ p, RpiVm.dataAbortVector s.k f = .error p) := by
  have hheap : s.k.st.heap = k.st.heap := by rw [h.frame]
  have hheapStart : s.k.st.heapStart = sysHeapStart :=
    (by rw [h.frame] : s.k.st.heapStart = k.st.heapStart).trans U.heapStart
  have hcurr : s.k.currEnv = some e :=
    (by rw [h.frame] : s.k.currEnv = k.currEnv).trans U.currEnv
  have henv : s.k.envs e = k.envs e := by rw [h.frame]
  by_cases hmiss : f.address < sysStackAddrFine ∧ f.address > s.k.st.heap
  · obtain ⟨hhi, hlo⟩ := hmiss
    rw [dataAbortVector_eq hfar hcurr hlo hhi, henv]
    rw [hheap] at hlo
    constructor
    · intro V' hgrow
      obtain ⟨⟨_, _, h16, hidx, hfree⟩, rfl⟩ := UserMem.grow_eq_some.mp hgrow
      obtain ⟨st, hexec, hmem, hrep⟩ := h.grow U rfl hlo hhi hv h16 hidx hfree
      rw [hexec]
      exact ⟨_, _, rfl, hmem, hrep⟩
    · intro hnone
      cases hexec : (pageMissCall (k.envs e).domain f.address).exec s.k.st (k.envs e).pt with
      | error p => exact ⟨p, rfl⟩
      | ok st =>
        have hfit :
            (pageMissCall (k.envs e).domain f.address).heapEnd s.k.st (k.envs e).pt < 2 ^ 32 :=
          pageMissCall_heapEnd_lt (hheap ▸ hlo) hhi
        have happly := (MapCall.apply_of_exec (h.layout U) hfit hexec).1
        obtain ⟨h16, hidx, hfree⟩ := (h.apply_pageMiss_iff U rfl hlo hhi hv).mp ⟨_, happly⟩
        cases hnone.symm.trans (UserMem.grow_eq_some.mpr ⟨⟨hlo, hhi, h16, hidx, hfree⟩, rfl⟩)
  · have hfatal : f.address < s.k.st.heapStart ∨ f.address > s.k.st.heap := by
      -- the heap itself is mapped
      by_contra hin
      rw [not_or, BitVec.not_lt, gt_iff_lt, BitVec.not_lt, hheap, hheapStart] at hin
      obtain ⟨hlo, hhi⟩ := hin
      have hlt : f.address.toNat < 0x200000 := lt_of_le_of_lt hhi U.heap_lt.2
      obtain ⟨hwindow, _⟩ := h.window_of_none U hlo (hlt.trans (by decide)) hv
      unfold InWindow at hwindow
      omega
    rw [dataAbortVector_of_far hfar, if_neg hmiss, if_pos hfatal]
    constructor
    · intro V' hgrow
      obtain ⟨⟨hlo, hhi, _⟩, _⟩ := UserMem.grow_eq_some.mp hgrow
      exact absurd ⟨hhi, hheap ▸ hlo⟩ hmiss
    · intro _
      split_ifs
      · exact ⟨_, rfl⟩
      · exact ⟨_, rfl⟩

/-- The tables are on the heap. -/
theorem UserSpace.le_of_inTables (U : UserSpace k e) {x : BitVec 32} (hx : k.InTables e x) :
    sysHeapStart.toNat ≤ x.toNat := by
  obtain ⟨r, hr, hin⟩ := hx
  exact (U.footprint_ge r hr).trans hin.1

/-- They are no memory that aborts change. -/
theorem UserSpace.not_touches (U : UserSpace k e) {x : BitVec 32} (hx : k.InTables e x) :
    ¬ A.Touches x := fun htouches => absurd htouches.lt (not_lt.mpr (U.le_of_inTables hx))

/-- What aborts change besides the tables is no cell. -/
theorem Represents.withMem (h : Represents A k e starts s V) (U : UserSpace k e) {m : Mem}
    (hm : ∀ x, ¬ A.Touches x → m x = s.k.st.mem x) :
    Represents A k e starts { s with k := s.k.withMem m } V := by
  obtain ⟨hwords, htable⟩ := h.tables_congr U fun x hx => hm x (U.not_touches hx)
  have htable' : UserState.table { s with k := s.k.withMem m } k e = s.table k e := htable
  have hlow : ∀ x : BitVec 32, sysHeapStart.toNat ≤ x.toNat → m x = s.k.st.mem x := fun x hx =>
    hm x fun htouches => absurd htouches.lt (not_lt.mpr hx)
  have hwindow : ∀ {x}, InWindow x → sysHeapStart.toNat ≤ x.toNat := fun hx =>
    le_trans (by decide) hx.1
  refine ⟨h.regs, ?_, hwords, ?_, ?_, ?_, h.window, h.apart, ?_, ?_, fun x hx hfresh => ?_,
    fun x htables htouches hspares hx => ?_⟩
  · exact congrArg (fun k' : Kernel => k'.withMem m) h.frame
  · rw [htable']
    exact h.inDomain
  · rw [htable']
    exact h.inside
  · rw [htable']
    exact h.outside
  · rw [htable']
    exact h.cells
  · rw [htable']
    intro x r hx hr hap
    rw [h.contents x r hx hr hap]
    refine congrArg some (hlow r.pa ?_).symm
    obtain ⟨hpa, -, -⟩ | ⟨-, -, -, -, -, hpa, -⟩ := h.cell_cases U hr hap
    · rw [hpa]
      exact U.heap_lt.1.trans hx
    · exact hwindow hpa
  · exact (hlow x (hwindow hx)).trans (h.fresh x hx hfresh)
  · exact (hm x htouches).trans (h.kept x htables htouches hspares hx)

/-- A fault makes new cells and goes on with the registers as they were, or it ends the run. -/
theorem Represents.dataAbort (h : Represents A k e starts s V) (U : UserSpace k e) {f : Fault}
    (hfar : faultStatusHasValidFar f.faultval = true) (hv : V.cells f.address = none) :
    (∀ V', V.grow k.st.heap k.st.mem f.address = some V' →
      ∃ starts' s', s.dataAbort A f = .ok s' ∧ Represents A k e starts' s' V') ∧
    (V.grow k.st.heap k.st.mem f.address = none → ∃ p, s.dataAbort A f = .error p) := by
  have hpush := h.withMem U fun x hx =>
    AbortScratch.storeWords_pushed (A := A) hx s.k.st.mem s.regs (A.lr s f)
  obtain ⟨hsome, hnone⟩ := hpush.dataAbortVector U hfar hv
  rw [UserState.dataAbort]
  refine ⟨fun V' hgrow => ?_, fun hgrow => ?_⟩
  · obtain ⟨starts', k', hok, hmem, hrep⟩ := hsome V' hgrow
    have hleft := hrep.withMem U
      (m := fun x => if A.Overwrites x then A.left s f x else k'.st.mem x)
      fun x hx => if_neg fun hover => hx hover.touches
    -- the registers are popped as they were pushed
    have hlow : ∀ x : BitVec 32, x.toNat < sysHeapStart.toNat → k'.st.mem x = _ := fun x hx =>
      hmem x fun htables => absurd hx (not_lt.mpr (U.le_of_inTables htables))
    have hpop : (fun i : Fin 13 => Mem.load32
        (fun x => if A.Overwrites x then A.left s f x else k'.st.mem x)
        (pushedRegs + BitVec.ofNat 32 (4 * i))) = s.regs := funext fun i =>
      (A.load32_overwrites hlow (A.left s f) i).trans (load32_pushed s.k.st.mem s.regs (A.lr s f) i)
    refine ⟨starts', ⟨_, s.regs⟩, ?_, hleft⟩
    exact (ok_bind hok _).trans (congrArg (fun regs => Except.ok (UserState.mk _ regs)) hpop)
  · obtain ⟨p, hp⟩ := hnone hgrow
    rw [hp]
    exact ⟨p, rfl⟩

/-! ## Runs -/

/-- One instruction on the machine is one on the cells. -/
theorem Represents.exec (h : Represents A k e starts s V) (U : UserSpace k e) {i : UserInstr}
    (hoff : ∀ rn, i.base = some rn → (V.cells (V.regs rn)).isSome = true → k.Spares (V.regs rn)) :
    (∀ V', V.exec k.st.heap k.st.mem i = some V' →
      ∃ starts' s', s.exec A i = .ok s' ∧ Represents A k e starts' s' V') ∧
    (V.exec k.st.heap k.st.mem i = none → ∃ p, s.exec A i = .error p) := by
  cases i with
  | ldrb rd rn =>
    rw [UserState.exec, UserMem.exec, h.regs]
    cases hcell : V.cells (V.regs rn) with
    | some b =>
      have hsome : (V.cells (V.regs rn)).isSome = true := by rw [hcell]; rfl
      obtain ⟨r, hr, hap⟩ := (h.cells _).mp hsome
      rw [h.userAccess_ok U hr hap]
      have hbyte := h.contents _ r (hoff rn rfl hsome).1 hr hap
      obtain rfl := Option.some.inj (hcell.symm.trans hbyte)
      refine ⟨?_, by simp⟩
      rintro _ ⟨⟩
      exact ⟨starts, _, rfl, h.withRegs _⟩
    | none =>
      obtain ⟨f, hf, haddress, hfar⟩ := h.userAccess_error U hcell false
      rw [hf, ← haddress]
      exact h.dataAbort U hfar (by rwa [haddress])
  | strb rd rn =>
    rw [UserState.exec, UserMem.exec, h.regs]
    cases hcell : V.cells (V.regs rn) with
    | some b =>
      have hsome : (V.cells (V.regs rn)).isSome = true := by rw [hcell]; rfl
      obtain ⟨r, hr, hap⟩ := (h.cells _).mp hsome
      rw [h.userAccess_ok U hr hap]
      refine ⟨?_, by simp⟩
      rintro _ ⟨⟩
      have hstore := h.store U (hoff rn rfl hsome) hr hap ((V.regs rd).setWidth 8)
      rw [h.regs] at hstore
      exact ⟨starts, _, rfl, hstore⟩
    | none =>
      obtain ⟨f, hf, haddress, hfar⟩ := h.userAccess_error U hcell true
      rw [hf, ← haddress]
      exact h.dataAbort U hfar (by rwa [haddress])
  | alu f =>
    refine ⟨?_, by simp [UserMem.exec]⟩
    rintro _ ⟨⟩
    rw [← h.regs]
    exact ⟨starts, _, rfl, h.withRegs _⟩

/-- So is a run. -/
theorem Represents.run (h : Represents A k e starts s V) (U : UserSpace k e) {is : List UserInstr}
    (hoff : KeepsOff k is V) :
    (∀ V', is.foldlM (UserMem.exec k.st.heap k.st.mem) V = some V' →
      ∃ starts' s', userRun A is s = .ok s' ∧ Represents A k e starts' s' V') ∧
    (is.foldlM (UserMem.exec k.st.heap k.st.mem) V = none → ∃ p, userRun A is s = .error p) := by
  induction is generalizing starts s V with
  | nil =>
    refine ⟨?_, by simp⟩
    rintro _ ⟨⟩
    exact ⟨starts, s, rfl, h⟩
  | cons i is ih =>
    obtain ⟨hoff, hrest⟩ := hoff
    obtain ⟨hsome, hnone⟩ := h.exec U hoff
    rw [userRun, List.foldlM_cons, List.foldlM_cons]
    cases hexec : V.exec k.st.heap k.st.mem i with
    | none =>
      obtain ⟨p, hp⟩ := hnone hexec
      rw [hp]
      exact ⟨by simp, fun _ => ⟨p, rfl⟩⟩
    | some V₁ =>
      obtain ⟨starts₁, s₁, hs₁, h₁⟩ := hsome V₁ hexec
      rw [hs₁]
      exact ih h₁ (hrest V₁ hexec)

end

/-- For every program that keeps off the memory of the kernel and the devices, the run on the
machine is the run on the cells: it goes on exactly when the cells do, with the same registers
and the same bytes, and nothing else in memory changes but the page tables, the stack of the abort
handler and the buffer of `printk`. -/
theorem user_run {k₀ k : Kernel} {e : BitVec 32} (hload : k₀.Loaded)
    (hsetup : vmPart5 k₀ = .ok (e, k)) (A : AbortScratch) (is : List UserInstr)
    (regs : Fin 13 → BitVec 32)
    (hoff : KeepsOff k is (.start k.st.mem regs)) :
    (∀ V, is.foldlM (UserMem.exec k.st.heap k.st.mem) (.start k.st.mem regs) = some V →
      ∃ s, userRun A is ⟨k, regs⟩ = .ok s ∧ s.regs = V.regs ∧
        (∀ x b, k.st.heap.toNat ≤ x.toNat → V.cells x = some b →
          ∃ pa, s.k.userAccess false x = .ok pa ∧ s.k.st.mem pa = b) ∧
        ∀ x, ¬ k.InTables e x → ¬ A.Touches x → ¬ (k.Spares x ∧ kernelMap x = some (x, 0b11)) →
          ¬ InWindow x → s.k.st.mem x = k.st.mem x) ∧
    (is.foldlM (UserMem.exec k.st.heap k.st.mem) (.start k.st.mem regs) = none →
      ∃ p, userRun A is ⟨k, regs⟩ = .error p) := by
  have U := UserSpace.of_vmPart5 hload hsetup
  obtain ⟨hsome, hnone⟩ := (Represents.start (A := A) U regs).run U hoff
  refine ⟨fun V hV => ?_, hnone⟩
  obtain ⟨starts, s, hs, h⟩ := hsome V hV
  refine ⟨s, hs, h.regs, ?_, h.kept⟩
  intro x b hx hb
  obtain ⟨r, hr, hap⟩ := (h.cells x).mp (by rw [hb]; rfl)
  have hbyte := h.contents x r hx hr hap
  exact ⟨r.pa, h.userAccess_ok U hr hap false, Option.some.inj (hbyte.symm.trans hb)⟩

/-- The first access of a program to its stack misses, and the next ones reach the new page. -/
theorem user_run_miss : ∃ A k e s, vmPart5 (Kernel.start 0) = .ok (e, k) ∧
    userRun A [.strb 0 1, .strb 0 1, .ldrb 2 1] ⟨k, fun _ => 0x2f1050⟩ = .ok s ∧
      s.regs 2 = 0x50 := by
  let A : AbortScratch := ⟨fun _ _ => 0, 0x20000, by decide, fun _ _ _ => 0⟩
  obtain ⟨e, k, hok, _⟩ := vmPart5_ok (Kernel.start_loaded 0)
  have U := UserSpace.of_vmPart5 (Kernel.start_loaded 0) hok
  let V : UserMem := .start k.st.mem fun _ => 0x2f1050
  let va : BitVec 32 := 0x2f1050 - addressesPer4KB
  let cells : BitVec 32 → Option (BitVec 8) := fun x =>
    if InLarge va x then some (k.st.mem (va.extractLsb' 16 16 ++ x.extractLsb' 0 16)) else V.cells x
  let V₁ : UserMem := ⟨cells, V.regs⟩
  let V₂ : UserMem := ⟨Function.update cells 0x2f1050 (some 0x50), V.regs⟩
  let V₃ : UserMem := ⟨V₂.cells, Function.update V.regs 2 0x50⟩
  have hmiss : V.cells 0x2f1050 = none := by
    show (UserMem.start _ _).cells _ = _
    rw [UserMem.start_cells, if_neg (by decide)]
  have hgrow : V.grow k.st.heap k.st.mem 0x2f1050 = some V₁ := by
    have hlt : k.st.heap < 0x2f1050 := U.heap_lt.2.trans (by decide)
    have hfree : V.Free va := by
      have hnone : ∀ i < 16, kernelMap (0x2f0050 + BitVec.ofNat 32 i * addressesPer4KB) = none := by
        decide +kernel
      intro i hi
      show (UserMem.start _ _).cells _ = _
      rw [UserMem.start_cells, show va = 0x2f0050 by decide, hnone i hi]
      rfl
    exact UserMem.grow_eq_some.mpr ⟨⟨hlt, by decide, by decide, by decide, hfree⟩, rfl⟩
  have hin : InLarge va 0x2f1050 := by decide
  obtain ⟨b, hcell⟩ : ∃ b, V₁.cells 0x2f1050 = some b := ⟨_, if_pos hin⟩
  have hcell' : V₂.cells 0x2f1050 = some 0x50 :=
    Function.update_self (β := fun _ => Option (BitVec 8)) 0x2f1050 (some 0x50) cells
  have hfirst : V.exec k.st.heap k.st.mem (.strb 0 1) = some V₁ := by
    rw [UserMem.exec, show V.cells (V.regs 1) = none from hmiss]
    exact hgrow
  have hsecond : V₁.exec k.st.heap k.st.mem (.strb 0 1) = some V₂ := by
    have hregs : ∀ r, V₁.regs r = 0x2f1050 := fun _ => rfl
    have hbyte : (0x2f1050 : BitVec 32).setWidth 8 = 0x50#8 := by decide
    simp only [UserMem.exec, hregs, hcell, hbyte]
    rfl
  have hthird : V₂.exec k.st.heap k.st.mem (.ldrb 2 1) = some V₃ := by
    rw [UserMem.exec, show V₂.cells (V₂.regs 1) = _ from hcell']
    rfl
  have hspares : k.Spares 0x2f1050 := ⟨U.heap_lt.2.le.trans (by decide), by decide⟩
  have hoff : KeepsOff k [.strb 0 1, .strb 0 1, .ldrb 2 1] V := by
    refine ⟨?_, fun W₁ h₁ => ⟨?_, fun W₂ h₂ => ⟨?_, fun W₃ _ => trivial⟩⟩⟩
    · rintro _ ⟨⟩ _
      exact hspares
    · obtain rfl := Option.some.inj (hfirst.symm.trans h₁)
      rintro _ ⟨⟩ _
      exact hspares
    · obtain rfl := Option.some.inj (hfirst.symm.trans h₁)
      obtain rfl := Option.some.inj (hsecond.symm.trans h₂)
      rintro _ ⟨⟩ _
      exact hspares
  obtain ⟨hsome, _⟩ := user_run (Kernel.start_loaded 0) hok A [.strb 0 1, .strb 0 1, .ldrb 2 1]
    (fun _ => 0x2f1050) hoff
  obtain ⟨s, hs, hregs, _⟩ := hsome V₃ (by
    simp only [List.foldlM_cons, List.foldlM_nil]
    show V.exec k.st.heap k.st.mem (.strb 0 1) >>= _ = _
    rw [hfirst, Option.bind_eq_bind, Option.bind_some, hsecond, Option.bind_some, hthird]
    rfl)
  refine ⟨A, k, e, s, hok, hs, ?_⟩
  rw [hregs]
  rfl

end RpiVm
