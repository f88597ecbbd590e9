import RpiVm.Kmalloc
import RpiVm.Mmu.Descriptor

/-!
# Modifying page tables

The functions of `mmu.c` that allocate first-level and coarse tables and map
sections, small pages and large pages. The C code assigns the bit-fields of a
descriptor one after the other; here the resulting word is stored once.
-/

namespace RpiVm

open CLib

/-! ## Table bookkeeping -/

/-- `mmu_pt_alloc`. Its first condition is the assignment `sz = 4096`. -/
def mmuPtAlloc (s : State) (_sz : BitVec 32) : Except Panic (BitVec 32 × State) := do
  let sz : BitVec 32 := 4096
  demand (sz != 0) "sz = 4096" "we only handling a single page table right now"
  let (pt, s) ← kmallocAligned s (4096 * 4) (1#32 <<< 14)
  demand (isAligned pt 14) "is_aligned((unsigned)pt, 14)" "must be 14-bit aligned!"
  pure (pt, s)

/-- `mk_coarse_page_table`: the first-level descriptor of a fresh coarse table. -/
def mkCoarsePageTable (s : State) (domain : BitVec 32) : Except Panic (BitVec 32 × State) := do
  let (pt, s) ← kmallocAligned s (256 * 4) (1#32 <<< 10)
  let f := coarseWord pt domain
  assert (CoarsePtDesc.tag.get f == fldCoarsePtTag) "f.tag == FLD_COARSE_PT_TAG"
  pure (f, s)

/-- `get_first_level_table_idx`. -/
def getFirstLevelTableIdx (va : BitVec 32) : BitVec 32 := va >>> 20

/-- `get_second_level_table_idx`. -/
def getSecondLevelTableIdx (va : BitVec 32) : BitVec 32 := (va >>> 12) &&& 0xFF

/-- `mmu_first_level_lookup`. -/
def mmuFirstLevelLookup (pt va : BitVec 32) : BitVec 32 := pt + 4 * getFirstLevelTableIdx va

/-- `mmu_second_level_lookup`. -/
def mmuSecondLevelLookup (s : State) (pde va : BitVec 32) : BitVec 32 :=
  let cpt := (CoarsePtDesc.base.get (s.mem.load32 pde)).setWidth 32 <<< 10
  cpt + 4 * getSecondLevelTableIdx va

/-! ## Mapping -/

/-- `section_check_valid`. -/
def sectionCheckValid (f : BitVec 32) : Except Panic Unit := do
  assert (SecDesc.sbz1.get f == 0) "f->_sbz1 == 0"
  assert (SecDesc.tag.get f == 0b10) "f->tag == 0b10"
  assert (SecDesc.S.get f == 0) "f->S == 0"
  assert (SecDesc.IMP.get f == 0) "f->IMP == 0"
  assert (SecDesc.C.get f == 0) "f->C == 0"
  assert (SecDesc.B.get f == 0) "f->B == 0"
  assert (SecDesc.super.get f == 0) "f->super == 0"

/-- `section_print`: besides printing, it checks the descriptor. -/
def sectionPrint (f : BitVec 32) : Except Panic Unit := sectionCheckValid f

/-- `mmu_map_section`, compiled with or without `DEBUG_PRINT_DESCRIPTORS`. -/
def mmuMapSectionWith (debugPrint : Bool) (s : State) (pt va pa domain flags : BitVec 32) :
    Except Panic (BitVec 32 × State) := do
  assert (isAligned va 20) "is_aligned(va, 20)"
  assert (isAligned pa 20) "is_aligned(pa, 20)"
  let pde := mmuFirstLevelLookup pt va
  demand (SecDesc.tag.get (s.mem.load32 pde) == 0) "!pde->tag" "already set"
  let s := s.store32 pde (sectionWord pa domain flags)
  (if debugPrint then sectionPrint (s.mem.load32 pde) else pure ())
  pure (pde, s)

/-- `mmu_map_section` as committed: `DEBUG_PRINT_DESCRIPTORS` is 1. -/
def mmuMapSection : State → BitVec 32 → BitVec 32 → BitVec 32 → BitVec 32 → BitVec 32 →
    Except Panic (BitVec 32 × State) := mmuMapSectionWith true

/-- The lines that `mmu_map_sm_page` and `mmu_map_lg_page` share: an unused
first-level entry gets a coarse table. -/
def ensureCoarse (s : State) (pde domain : BitVec 32) : Except Panic State := do
  let tag := CoarsePtDesc.tag.get (s.mem.load32 pde)
  assert (tag == fldFaultTag || tag == fldCoarsePtTag)
    "pde->tag == FLD_FAULT_TAG || pde->tag == FLD_COARSE_PT_TAG"
  if tag == fldFaultTag then
    let (f, s) ← mkCoarsePageTable s domain
    pure (s.store32 pde f)
  else pure s

/-- `mmu_map_sm_page`. The occupied test reads the one-bit tag of a small page. -/
def mmuMapSmPage (s : State) (pt va pa domain flags : BitVec 32) :
    Except Panic (BitVec 32 × State) := do
  assert (isAligned va 12) "is_aligned(va, 12)"
  assert (isAligned pa 12) "is_aligned(pa, 12)"
  let pde := mmuFirstLevelLookup pt va
  let s ← ensureCoarse s pde domain
  let pte := mmuSecondLevelLookup s pde va
  assert ((SmPageDesc.tag.get (s.mem.load32 pte)).setWidth 2 == fldFaultTag)
    "pte->tag == FLD_FAULT_TAG"
  pure (pte, s.store32 pte (smPageWord pa flags))

/-- `MAX_LARGE_PAGE_IDX`. -/
def maxLargePageIdx : BitVec 32 := 240

/-- The address of `pte[i]`. -/
def pteAt (pte : BitVec 32) (i : ℕ) : BitVec 32 := pte + 4 * BitVec.ofNat 32 i

/-- The second loop of `mmu_map_lg_page`: the first `n` of the replicated entries. -/
def storeLgPages (s : State) (pte w : BitVec 32) (n : ℕ) : State :=
  (List.range n).foldl (fun s i => s.store32 (pteAt pte i) w) s

/-- `mmu_map_lg_page`. -/
def mmuMapLgPage (s : State) (pt va pa domain flags : BitVec 32) :
    Except Panic (BitVec 32 × State) := do
  assert (isAligned va 16) "is_aligned(va, 16)"
  assert (isAligned pa 16) "is_aligned(pa, 16)"
  assert (getSecondLevelTableIdx va ≤ maxLargePageIdx)
    "get_second_level_table_idx(va) <= MAX_LARGE_PAGE_IDX"
  let pde := mmuFirstLevelLookup pt va
  let s ← ensureCoarse s pde domain
  let pte := mmuSecondLevelLookup s pde va
  assert ((List.range 16).all fun i =>
      LgPageDesc.tag.get (s.mem.load32 (pteAt pte i)) == fldFaultTag)
    "pte[i].tag == FLD_FAULT_TAG"
  pure (pte, storeLgPages s pte (lgPageWord pa flags) 16)

/-! ## Mapping requests -/

/-- What a mapping function maps. -/
inductive PageKind where
  /-- `mmu_map_section`. -/
  | sec
  /-- `mmu_map_sm_page`. -/
  | sm
  /-- `mmu_map_lg_page`. -/
  | lg
  deriving DecidableEq, Repr

/-- The size of what is mapped: 1 MB, 4 KB or 64 KB. -/
def PageKind.size : PageKind → ℕ
  | .sec => 2 ^ 20
  | .sm => 2 ^ 12
  | .lg => 2 ^ 16

/-- The arguments of a mapping function, after the table. -/
structure MapCall where
  /-- Which of the three functions. -/
  kind : PageKind
  /-- Virtual address. -/
  va : BitVec 32
  /-- Physical address. -/
  pa : BitVec 32
  /-- Domain. -/
  domain : BitVec 32
  /-- Flag word. -/
  flags : BitVec 32
  deriving DecidableEq, Repr

/-- Running a mapping function on a table. -/
def MapCall.exec (c : MapCall) (s : State) (pt : BitVec 32) : Except Panic State :=
  Prod.snd <$> match c.kind with
    | .sec => mmuMapSection s pt c.va c.pa c.domain c.flags
    | .sm => mmuMapSmPage s pt c.va c.pa c.domain c.flags
    | .lg => mmuMapLgPage s pt c.va c.pa c.domain c.flags

/-- Both addresses are multiples of the page size. -/
def MapCall.Aligned (c : MapCall) : Prop :=
  c.va.toNat % c.kind.size = 0 ∧ c.pa.toNat % c.kind.size = 0

instance (c : MapCall) : Decidable c.Aligned := by unfold MapCall.Aligned; infer_instance

end RpiVm
