import RpiVm.Env.KernelMap
import RpiVm.Fault.DataAbort

/-!
# Bad accesses that are resumed

After `data_abort_vector` returns, the program goes on behind the access that faulted. The
handler reboots or maps the address everywhere outside the heap but at its end: the range
tests are strict on both sides there.
-/

namespace RpiVm

open CLib Transition

/-- If the handler returns, the address is mapped in the current environment. -/
def ResumesMapped (k : Kernel) (f : Fault) : Prop :=
  ∀ k', dataAbortVector k f = .ok k' → ∃ e, k'.currEnv = some e ∧
    (walk k'.st.mem (k'.envs e).pt f.address).isSome = true

/-- The address is mapped in the current environment. -/
def Kernel.Mapped (k : Kernel) (address : BitVec 32) : Prop :=
  ∃ e, k.currEnv = some e ∧ (walk k.st.mem (k.envs e).pt address).isSome = true

/-- The table of the current environment is laid out below the end of the heap. -/
def Kernel.LaidOut (k : Kernel) : Prop :=
  ∀ e, k.currEnv = some e → Layout k.st.mem (k.envs e).pt k.st.heap.toNat

/-- In every reachable state the table of the current environment is laid out. -/
theorem KernelRun.laidOut_of_reachable {s : KernelRun}
    (hs : Reachable KernelRun.Step KernelRun.Init s) : s.k.LaidOut := by
  obtain ⟨allocs, hinv⟩ := KernelRun.reachable_inv hs
  exact fun e hcurr => hinv.current_layout hcurr

/-! ## Page misses -/

/-- A page miss that returns has mapped the address. -/
theorem pageMissCall_maps {t t' : Table} {domain address : BitVec 32}
    (h : (pageMissCall domain address).apply t = some t') : (t'.walk address).isSome = true := by
  obtain ⟨d, entries, _, _, hidx, hwalk⟩ := pageMissCall_walk rfl h
  have hva := toNat_sub_addressesPer4KB address
  have hlt := address.isLt
  rw [secondIndex_toNat] at hidx
  -- the page starts at most at the 240th entry, and the address lies in its second one
  have hin : InLarge (address - addressesPer4KB) address := by
    rw [inLarge_iff]
    split_ifs at hva <;> omega
  rw [((hwalk address).1 hin).2]
  rfl

/-- `handle_page_miss` leaves the environments and maps the address, if it returns. -/
theorem handlePageMiss_maps {k k' : Kernel} {address : BitVec 32} (hlayout : k.LaidOut)
    (hlo : k.st.heap < address) (hhi : address < sysStackAddrFine)
    (hok : handlePageMiss k address = .ok k') : k'.Mapped address := by
  obtain ⟨_, _, hok⟩ := bind_eq_ok.mp hok
  cases hcurr : k.currEnv with
  | none => simp_all
  | some e =>
    rw [hcurr] at hok
    obtain ⟨s, hexec, hk'⟩ := bind_eq_ok.mp hok
    obtain rfl := Except.ok.inj hk'
    have hfit : (pageMissCall (k.envs e).domain address).heapEnd k.st (k.envs e).pt < 2 ^ 32 :=
      pageMissCall_heapEnd_lt hlo hhi
    have happly := (MapCall.apply_of_exec (hlayout e hcurr) hfit hexec).1
    refine ⟨e, rfl, ?_⟩
    rw [walk_eq_tableOf_walk]
    exact pageMissCall_maps happly

/-! ## The handler -/

/-- The addresses outside the heap that the range tests let through: the end of the heap. -/
def SlipsThrough (k : Kernel) (address : BitVec 32) : Prop :=
  address = k.st.heap ∧ address ≠ 0 ∧ k.st.heapStart ≤ address

/-- For every heap, fault and table, the handler never resumes an access outside the heap that
is still unmapped exactly when an access to the end of the heap finds it mapped. -/
theorem resumesMapped_iff {k : Kernel} {f : Fault} (hlayout : k.LaidOut)
    (hfar : faultStatusHasValidFar f.faultval = true)
    (hout : f.address < k.st.heapStart ∨ k.st.heap ≤ f.address) :
    ResumesMapped k f ↔ (SlipsThrough k f.address → k.Mapped f.address) := by
  rw [ResumesMapped, dataAbortVector_of_far hfar]
  split_ifs with hzero hmiss hfatal
  · exact iff_of_true (fun k' hok => by cases hok) fun h => absurd hzero h.2.1
  · refine iff_of_true (fun k' hok => handlePageMiss_maps hlayout hmiss.2 hmiss.1 hok) ?_
    rintro ⟨heq, _, _⟩
    exact absurd (heq ▸ hmiss.2) (BitVec.lt_irrefl _)
  · refine iff_of_true (fun k' hok => by cases hok) ?_
    rintro ⟨heq, _, hstart⟩
    rcases hfatal with hlt | hgt
    · exact absurd hlt (BitVec.not_lt.mpr hstart)
    · exact absurd (heq ▸ hgt) (BitVec.lt_irrefl _)
  · -- in none of the ranges, outside the heap: this is its end
    rw [not_or] at hfatal
    have hslips : SlipsThrough k f.address :=
      ⟨BitVec.le_antisymm (BitVec.not_lt.mp hfatal.2) (hout.resolve_left hfatal.1), hzero,
        BitVec.not_lt.mp hfatal.1⟩
    constructor
    · intro h _
      exact h k rfl
    · rintro h k' hok
      obtain rfl : k = k' := Except.ok.inj hok
      exact h hslips

/-! ## A full heap -/

/-- The table of the committed test with a heap that fills its megabyte: it ends where
nothing is mapped. -/
theorem exists_full_heap : ∃ (k : Kernel) (e : BitVec 32), k.LaidOut ∧ k.currEnv = some e ∧
    k.st.heapStart = sysHeapStart ∧ k.st.heap.toNat / 8 = 0x240000 / 8 ∧
    ∀ v, (walk k.st.mem (k.envs e).pt v).map (fun r => (r.pa, r.attrs.ap)) = kernelMap v := by
  obtain ⟨e, k, _, h⟩ := vmPart5_ok (Kernel.start_loaded 0)
  have hlt := h.heap_lt
  let sz : BitVec 32 := 0x240000 - k.st.heap
  have hsz : sz.toNat = 0x240000 - k.st.heap.toNat := by
    have hge : k.st.heap ≤ 0x240000 := by
      rw [BitVec.le_def]
      exact hlt.le.trans (by decide)
    exact BitVec.toNat_sub_of_le hge
  have hfit : kmallocEnd k.st.heap.toNat sz.toNat < 2 ^ 32 := by
    unfold kmallocEnd roundUpNat
    omega
  have halloc := (kmalloc_allocated hfit).2
  have hlaid := KernelRun.laidOut_of_reachable h.reachable
  let k' : Kernel := { k with st := { (kmalloc k.st sz).2 with heapStart := sysHeapStart } }
  refine ⟨k', e, fun e' he' => ((hlaid e' he').allocated halloc).1, h.currEnv, rfl, ?_, ?_⟩
  · have hend : k'.st.heap.toNat = k.st.heap.toNat + roundUpNat sz.toNat 8 := halloc.heap_eq
    rw [hend]
    unfold roundUpNat
    omega
  · intro v
    have hsame : tableOf k'.st.mem (k.envs e).pt = tableOf k.st.mem (k.envs e).pt :=
      ((hlaid e h.currEnv).allocated halloc).2
    rw [walk_eq_tableOf_walk]
    show Option.map _ ((tableOf k'.st.mem (k.envs e).pt).walk v) = _
    rw [hsame]
    exact h.maps.kernelMap v

/-- The address of a translation fault on a page is valid. -/
theorem pageFault_hasValidFar (address : BitVec 32) :
    faultStatusHasValidFar (pageFault address).faultval = true := by
  have hstatus : faultStatusHasValidFar 0b00111 = true := by decide
  exact hstatus

/-- Behind a full heap the kernel maps nothing. -/
theorem kernelMap_eq_none_of_full {v : BitVec 32} (hv : v.toNat / 8 = 0x240000 / 8) :
    kernelMap v = none := by
  have hranges : ∀ r ∈ fullAccessRanges, r.base + r.size ≤ 0x240000 ∨ 0x240008 ≤ r.base := by
    decide
  have hlow : ¬ v.toNat < 0x1000 := by omega
  rw [kernelMap, if_neg hlow, if_neg]
  rintro ⟨r, hr, hin⟩
  have hr' := hranges r hr
  unfold Region.Contains at hin
  omega

/-- Just past a full heap the handler returns with nothing done. -/
theorem full_heap_overrun_resumed : ∃ (k : Kernel) (e : BitVec 32), k.LaidOut ∧
    k.currEnv = some e ∧ k.st.heapStart = sysHeapStart ∧
    walk k.st.mem (k.envs e).pt k.st.heap = none ∧
    dataAbortVector k (pageFault k.st.heap) = .ok k ∧
    ¬ ResumesMapped k (pageFault k.st.heap) := by
  obtain ⟨k, e, hlaid, hcurr, hstart, hheap, hmap⟩ := exists_full_heap
  have hnone : walk k.st.mem (k.envs e).pt k.st.heap = none := by
    have hnone := hmap k.st.heap
    rw [kernelMap_eq_none_of_full hheap] at hnone
    exact Option.map_eq_none_iff.mp hnone
  have hzero : k.st.heap ≠ 0 := by
    intro heq
    rw [heq] at hheap
    exact absurd hheap (by decide)
  have hle : ¬ k.st.heap < k.st.heapStart := by
    rw [hstart, BitVec.lt_def]
    have hval : sysHeapStart.toNat = 0x140000 := rfl
    omega
  have hirrefl := BitVec.lt_irrefl k.st.heap
  have hok : dataAbortVector k (pageFault k.st.heap) = .ok k := by
    have haddress : (pageFault k.st.heap).address = k.st.heap := rfl
    rw [dataAbortVector_of_far (pageFault_hasValidFar _), haddress, if_neg hzero,
      if_neg fun h => hirrefl h.2, if_neg fun h => h.elim hle hirrefl]
    rfl
  refine ⟨k, e, hlaid, hcurr, hstart, hnone, hok, fun h => ?_⟩
  obtain ⟨e', hcurr', hsome⟩ := h k hok
  obtain rfl : e = e' := Option.some.inj (hcurr.symm.trans hcurr')
  rw [show (pageFault k.st.heap).address = k.st.heap from rfl, hnone] at hsome
  exact absurd hsome (by simp)

/-- The equivalence just past a full heap. -/
theorem resumesMapped_iff_full : ∃ k : Kernel, k.LaidOut ∧
    (ResumesMapped k (pageFault k.st.heap) ↔
      (SlipsThrough k k.st.heap → k.Mapped k.st.heap)) := by
  obtain ⟨k, e, hlaid, _⟩ := exists_full_heap
  exact ⟨k, hlaid, resumesMapped_iff hlaid (pageFault_hasValidFar _) (Or.inr (BitVec.le_refl _))⟩

end RpiVm
