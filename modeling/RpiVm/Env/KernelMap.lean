import RpiVm.Env.VmTests

/-!
# The map of the kernel

What the mapping calls of `VM_PART5` amount to over the whole address space: a few
ranges map to themselves, and everything between them faults. The calls share three
coarse tables.
-/

namespace RpiVm

open CLib Transition

/-- The ranges that user mode can access: the code of the kernel, the two stacks of
interrupt handlers, the heap, the stack of the system, and the peripherals. -/
def fullAccessRanges : List Region :=
  [⟨kernelBase.toNat, addressesPerMB.toNat⟩,
    ⟨(swiStackAddrFine - addressesPer64KB).toNat, addressesPer64KB.toNat⟩,
    ⟨(intStackAddrFine - addressesPer64KB).toNat, addressesPer64KB.toNat⟩,
    ⟨sysHeapStart.toNat, addressesPerMB.toNat⟩,
    ⟨(sysStackAddrFine - addressesPerMB).toNat, addressesPerMB.toNat⟩,
    ⟨0x20000000, addressesPerMB.toNat⟩,
    ⟨0x20200000, addressesPerMB.toNat⟩]

instance (r : Region) (x : ℕ) : Decidable (r.Contains x) := by
  unfold Region.Contains; infer_instance

/-- Where the kernel's map takes an address, and with which `AP` bits. -/
def kernelMap (v : BitVec 32) : Option (BitVec 32 × BitVec 2) :=
  if v.toNat < 0x1000 then some (v, 0b01)
  else if ∃ r ∈ fullAccessRanges, r.Contains v.toNat then some (v, 0b11)
  else none

/-- Where a walk takes an address, and with which `AP` bits. -/
def accessAt (m : Mem) (pt v : BitVec 32) : Option (BitVec 32 × BitVec 2) :=
  (walk m pt v).map fun r => (r.pa, r.attrs.ap)

/-! ## The ranges of the calls -/

/-- Requests for adjacent pages cover the range from the first to the last. -/
theorem exists_covers_iff (kind : PageKind) (base step : BitVec 32) (n : ℕ)
    (flags : BitVec 32) (hstep : step.toNat = kind.size)
    (hfit : base.toNat + n * kind.size ≤ 2 ^ 32) (v : BitVec 32) :
    (∃ i < n, (identityCall kind (base + BitVec.ofNat 32 i * step) flags).Covers v) ↔
      Region.Contains ⟨base.toNat, n * kind.size⟩ v.toNat := by
  have hpos : 0 < kind.size := by cases kind <;> decide
  have hva : ∀ i < n, (base + BitVec.ofNat 32 i * step).toNat = base.toNat + i * kind.size := by
    intro i hi
    have hnext : i * kind.size + kind.size ≤ n * kind.size := by
      rw [← Nat.succ_mul]
      exact Nat.mul_le_mul_right _ hi
    have hi' : i ≤ i * kind.size := Nat.le_mul_of_pos_right i hpos
    rw [BitVec.toNat_add, BitVec.toNat_mul, BitVec.toNat_ofNat, hstep,
      Nat.mod_eq_of_lt (a := i) (by omega), Nat.mod_eq_of_lt (a := i * kind.size) (by omega),
      Nat.mod_eq_of_lt (by omega)]
  constructor
  · rintro ⟨i, hi, hlo, hhi⟩
    have hnext : i * kind.size + kind.size ≤ n * kind.size := by
      rw [← Nat.succ_mul]
      exact Nat.mul_le_mul_right _ hi
    simp only [identityCall, hva i hi] at hlo hhi
    exact ⟨by simp only; omega, by simp only; omega⟩
  · rintro ⟨hlo, hhi⟩
    simp only at hlo hhi
    have hi : (v.toNat - base.toNat) / kind.size < n :=
      (Nat.div_lt_iff_lt_mul hpos).mpr (by omega)
    have hdiv := Nat.div_add_mod (v.toNat - base.toNat) kind.size
    have hmod := Nat.mod_lt (v.toNat - base.toNat) hpos
    rw [Nat.mul_comm] at hdiv
    refine ⟨_, hi, ?_, ?_⟩
    · simp only [identityCall, hva _ hi]
      omega
    · simp only [identityCall, hva _ hi]
      omega

/-- The calls cover the interrupt table and the ranges with full access. -/
theorem vmPart5Calls_covers_iff (v : BitVec 32) : (∃ c ∈ vmPart5Calls, c.Covers v) ↔
    v.toNat < 0x1000 ∨ ∃ r ∈ fullAccessRanges, r.Contains v.toNat := by
  have hcode := exists_covers_iff .sm kernelBase addressesPer4KB 256 0 rfl
    (by decide) v
  have hheap := exists_covers_iff .lg sysHeapStart addressesPer64KB 16 0 rfl
    (by decide) v
  have hone : ∀ kind a flags, (identityCall kind a flags).Covers v ↔
      Region.Contains ⟨a.toNat, kind.size⟩ v.toNat := fun _ _ _ => Iff.rfl
  have hlist : (∃ c ∈ vmPart5Calls, c.Covers v) ↔
      (identityCall .sm 0x0 fNoUsrAccess).Covers v ∨
      (∃ i < 256, (identityCall .sm (kernelBase + BitVec.ofNat 32 i * addressesPer4KB) 0).Covers v) ∨
      (identityCall .lg (swiStackAddrFine - addressesPer64KB) 0).Covers v ∨
      (identityCall .lg (intStackAddrFine - addressesPer64KB) 0).Covers v ∨
      (∃ i < 16, (identityCall .lg (sysHeapStart + BitVec.ofNat 32 i * addressesPer64KB) 0).Covers v) ∨
      (identityCall .sec (sysStackAddrFine - addressesPerMB) 0).Covers v ∨
      (identityCall .sec 0x20000000 0).Covers v ∨ (identityCall .sec 0x20200000 0).Covers v := by
    simp only [vmPart5Calls, List.mem_append, List.mem_cons, List.mem_map, List.mem_range,
      List.not_mem_nil, or_false, List.cons_append, or_and_right, exists_or, exists_eq_left,
      exists_exists_and_eq_and, or_assoc]
  have hfirst : Region.Contains ⟨(0x0 : BitVec 32).toNat, PageKind.sm.size⟩ v.toNat ↔
      v.toNat < 0x1000 := by
    have hsize : PageKind.sm.size = 0x1000 := rfl
    simp [Region.Contains, hsize]
  rw [hlist, hcode, hheap]
  simp only [hone, hfirst, fullAccessRanges, List.mem_cons, List.not_mem_nil, or_false,
    or_and_right, exists_or, exists_eq_left]
  exact Iff.rfl

/-- Every call maps an address to itself. -/
theorem vmPart5Calls_identity : ∀ c ∈ vmPart5Calls, c.pa = c.va := by decide +kernel

/-- Only the interrupt table, which is one small page, is kept from user mode. -/
theorem vmPart5Calls_flags : ∀ c ∈ vmPart5Calls,
    c.va = 0 ∧ c.kind = .sm ∧ (flagAttrs c.flags).ap = 0b01 ∨
      0x1000 ≤ c.va.toNat ∧ (flagAttrs c.flags).ap = 0b11 := by decide +kernel

/-- The calls need three coarse tables. -/
theorem vmPart5Calls_coarseTables (d : BitVec 32) :
    coarseTables [] (vmPart5Calls.map (MapCall.withDomain d)) = 3 := by
  have hdomain : ∀ used cs,
      coarseTables used (cs.map (MapCall.withDomain d)) = coarseTables used cs := by
    intro used cs
    induction cs generalizing used with
    | nil => rfl
    | cons c cs ih => exact congrArg (_ + ·) (ih _)
  rw [hdomain]
  decide +kernel

/-! ## The table they leave -/

/-- A table with the calls' ranges takes every address where the kernel's map does. -/
theorem Table.Maps.kernelMap {t : Table} {d : BitVec 32}
    (h : t.Maps (vmPart5Calls.map (MapCall.withDomain d)).reverse) (v : BitVec 32) :
    (t.walk v).map (fun r => (r.pa, r.attrs.ap)) = RpiVm.kernelMap v := by
  have hcovered := vmPart5Calls_covers_iff v
  by_cases hv : ∃ c ∈ vmPart5Calls, c.Covers v
  · obtain ⟨c, hc, hlo, hhi⟩ := hv
    have ho : (v - c.va).toNat = v.toNat - c.va.toNat := BitVec.toNat_sub_of_le hlo
    have hsum : c.va + (v - c.va) = v := by rw [BitVec.add_comm, BitVec.sub_add_cancel]
    obtain ⟨r, hr, hpa, hattrs, _⟩ := h.inside (c.withDomain d)
      (List.mem_reverse.mpr (List.mem_map_of_mem hc)) (v - c.va) (by
        rw [ho]
        exact Nat.sub_lt_left_of_lt_add hlo hhi)
    have hva : (c.withDomain d).va = c.va := rfl
    have hpa' : (c.withDomain d).pa = c.va := vmPart5Calls_identity c hc
    have hflags : (c.withDomain d).flags = c.flags := rfl
    rw [hva, hsum] at hr
    rw [hpa', hsum] at hpa
    rw [hflags] at hattrs
    rw [hr, Option.map_some, hpa, hattrs, RpiVm.kernelMap]
    rcases vmPart5Calls_flags c hc with ⟨hzero, hkind, hap⟩ | ⟨hbase, hap⟩
    · rw [hzero, hkind] at hhi
      have hlt : v.toNat < 0x1000 := hhi
      rw [if_pos hlt, hap]
    · have hge : ¬ v.toNat < 0x1000 := by omega
      rw [if_neg hge, if_pos ((hcovered.mp ⟨c, hc, hlo, hhi⟩).resolve_left hge), hap]
  · have hnone := h.outside v (by
      intro c hc
      obtain ⟨c₀, hc₀, rfl⟩ := List.mem_map.mp (List.mem_reverse.mp hc)
      exact fun hx => hv ⟨c₀, hc₀, hx⟩)
    rw [hcovered, not_or] at hv
    rw [hnone, RpiVm.kernelMap, if_neg hv.1, if_neg hv.2]
    rfl

/-- In every reachable world, the mapping calls of `VM_PART5` on an empty table all return
while the heap has room for three coarse tables, and leave the kernel's map. -/
theorem vmPart5Map_kernelMap {w : World} (hw : Reachable World.Step World.Init w) {env : Env}
    (hpt : env.pt ∈ w.tables) (hfresh : tableOf w.st.mem env.pt = Table.empty)
    (hheap : roundUpNat w.st.heap.toNat 1024 + 3 * 1024 < 2 ^ 32) :
    ∃ s, vmPart5Map w.st env = .ok s ∧ ∀ v, accessAt s.mem env.pt v = kernelMap v := by
  obtain ⟨hproper, hapart⟩ :=
    proper_withDomain env.domain vmPart5Calls_proper vmPart5Calls_apart
  have hmaps : (tableOf w.st.mem env.pt).Maps [] := by
    rw [hfresh]
    exact Table.Maps.empty
  have hend := heapAfter_le w.st.heap.toNat [] (vmPart5Calls.map (MapCall.withDomain env.domain))
  rw [vmPart5Calls_coarseTables] at hend
  obtain ⟨w', hrun, _, hmaps', _⟩ := (World.reachable_inv hw).run_maps_heapAfter hpt hmaps hproper
    (fun _ _ c' hc' => absurd hc' List.not_mem_nil) hapart (hend.trans_lt (by omega))
  rw [List.append_nil] at hmaps'
  refine ⟨w'.st, World.foldlM_of_run hrun, fun v => ?_⟩
  rw [accessAt, walk_eq_tableOf_walk]
  exact hmaps'.kernelMap v

/-- The map on a first table. -/
theorem vmPart5Map_kernelMap_first : ∃ (w : World) (s : State),
    vmPart5Map w.st ⟨1, 1, 1, 0b100, 0x140000#32⟩ = .ok s ∧
      ∀ v, accessAt s.mem 0x140000#32 v = kernelMap v := by
  obtain ⟨w, hw, htables, hempty, hheap⟩ := World.exists_first_table
  let e : Env := ⟨1, 1, 1, 0b100, 0x140000#32⟩
  have hmem : e.pt ∈ w.tables := by simp [e, htables]
  obtain ⟨s, hs⟩ := vmPart5Map_kernelMap (World.reachable_of_aligned hw) hmem hempty
    (by rw [hheap]; decide)
  exact ⟨w, s, hs⟩

/-- The set-up of `VM_PART5` leaves the hardware with the kernel's map. -/
theorem VmPart5.translate_eq {k : Kernel} {e : BitVec 32} (h : VmPart5 k e) (v : BitVec 32) :
    (k.translate v).map (fun r => (r.pa, r.attrs.ap)) = kernelMap v := by
  rw [Kernel.translate, h.tableBase, walk_eq_tableOf_walk]
  exact h.maps.kernelMap v

end RpiVm
