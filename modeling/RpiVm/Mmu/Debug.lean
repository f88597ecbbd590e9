import RpiVm.Printk
import RpiVm.Mmu.Mapping

/-!
# Printing descriptors

`mmu.c` prints every descriptor that it writes when `DEBUG_PRINT_DESCRIPTORS` is 1. The
functions are restated here with what they print. Printing a coarse table or a page
always returns; printing a section checks the descriptor, and panics on attributes that
the flags can ask for.
-/

namespace RpiVm

open CLib Transition

namespace Debug

/-! ## The print functions -/

/-- Texts one after the other. -/
def printAll : List (Except Panic (List Char)) → Except Panic (List Char)
  | [] => pure []
  | p :: ps => do
    let t ← p
    let rest ← printAll ps
    pure (t ++ rest)

/-- The macro `print_field`. -/
def printField {n : ℕ} (field : BitField n) (name : String) (x : BitVec 32) :
    Except Panic (List Char) := do
  let v := (field.get x).setWidth 32
  let t ← printk "\t0b%b\t= %s\n" [.word v, .str name]
  if 8 < v then do
    let t' ← printk "\t0x%x\n" [.word v]
    pure (t ++ t')
  else pure t

/-- What `section_print` prints before its check. -/
def sectionFields (f x : BitVec 32) : Except Panic (List Char) :=
  printAll
    [printk "******* <PTE>\n" [],
      printk "PTE (section, fld) @ 0x%x = [binary] %b\n" [.word f, .word x],
      printField SecDesc.secBaseAddr "sec_base_addr" x,
      printk "\t  --> va=0x%8x\n" [.word ((SecDesc.secBaseAddr.get x).setWidth 32 <<< 20)],
      printk "\t           76543210\n" [],
      printField SecDesc.nG "nG" x,
      printField SecDesc.S "S" x,
      printField SecDesc.APX "APX" x,
      printField SecDesc.TEX "TEX" x,
      printField SecDesc.AP "AP" x,
      printField SecDesc.IMP "IMP" x,
      printField SecDesc.domain "domain" x,
      printField SecDesc.XN "XN" x,
      printField SecDesc.C "C" x,
      printField SecDesc.B "B" x,
      printField SecDesc.tag "tag" x]

/-- `section_print`, for the descriptor `x` at `f`. -/
def sectionPrint (f x : BitVec 32) : Except Panic (List Char) := do
  let t ← sectionFields f x
  sectionCheckValid x
  let t' ← printk "******* <END>\n" []
  pure (t ++ t')

/-- `coarse_table_print`, for the descriptor `x` at `fld`. -/
def coarseTablePrint (fld x : BitVec 32) : Except Panic (List Char) :=
  printAll
    [printk "******* <PDE>\n" [],
      printk "PDE (coarse page table, fld) @ 0x%x = [binary] %b\n" [.word fld, .word x],
      printField CoarsePtDesc.base "base" x,
      printk "\t  --> va=0x%8x\n" [.word ((CoarsePtDesc.base.get x).setWidth 32 <<< 10)],
      printk "\t           76543210\n" [],
      printField CoarsePtDesc.IMP "IMP" x,
      printField CoarsePtDesc.domain "domain" x,
      printField CoarsePtDesc.tag "tag" x,
      printk "******* <END>\n" []]

/-- `sm_page_desc_print`, for the descriptor `x` at `pte`. -/
def smPageDescPrint (pte x : BitVec 32) : Except Panic (List Char) :=
  printAll
    [printk "******* <PTE>\n" [],
      printk "PTE (sm. page) @ 0x%x = [binary] %b\n" [.word pte, .word x],
      printField SmPageDesc.base "base" x,
      printk "\t  --> va=0x%8x\n" [.word ((SmPageDesc.base.get x).setWidth 32 <<< 12)],
      printk "\t      bit: 76543210\n" [],
      printField SmPageDesc.nG "nG" x,
      printField SmPageDesc.S "S" x,
      printField SmPageDesc.APX "APX" x,
      printField SmPageDesc.TEX "TEX" x,
      printField SmPageDesc.AP "AP" x,
      printField SmPageDesc.C "C" x,
      printField SmPageDesc.B "B" x,
      printField SmPageDesc.tag "tag" x,
      printField SmPageDesc.XN "XN" x,
      printk "******* <END>\n" []]

/-- `lg_page_desc_print`, for the descriptor `x` at `pte`. -/
def lgPageDescPrint (pte x : BitVec 32) : Except Panic (List Char) :=
  printAll
    [printk "******* <PTE>\n" [],
      printk "PTE (lg. page) @ 0x%x = [binary] %b\n" [.word pte, .word x],
      printField LgPageDesc.base "base" x,
      printk "translates to --> va=0x%8x\n" [.word ((LgPageDesc.base.get x).setWidth 32 <<< 16)],
      printk "                  bit: 76543210\n" [],
      printField LgPageDesc.XN "XN" x,
      printField LgPageDesc.TEX "TEX" x,
      printField LgPageDesc.nG "nG" x,
      printField LgPageDesc.S "S" x,
      printField LgPageDesc.APX "APX" x,
      printField LgPageDesc.AP "AP" x,
      printField LgPageDesc.C "C" x,
      printField LgPageDesc.B "B" x,
      printField LgPageDesc.tag "tag" x,
      printk "******* <END>\n" []]

/-! ## The mapping functions with their output -/

/-- Code between `#if DEBUG_PRINT_DESCRIPTORS == 1` and `#endif`. -/
def whenDebug (debugPrint : Bool) (print : Except Panic (List Char)) :
    Except Panic (List Char) :=
  if debugPrint then print else pure []

/-- `mmu_map_section`. -/
def mmuMapSection (debugPrint : Bool) (s : State) (pt va pa domain flags : BitVec 32) :
    Except Panic (BitVec 32 × State) := do
  assert (isAligned va 20) "is_aligned(va, 20)"
  assert (isAligned pa 20) "is_aligned(pa, 20)"
  let pde := mmuFirstLevelLookup pt va
  demand (SecDesc.tag.get (s.mem.load32 pde) == 0) "!pde->tag" "already set"
  let s := s.store32 pde (sectionWord pa domain flags)
  let _ ← whenDebug debugPrint (sectionPrint pde (s.mem.load32 pde))
  pure (pde, s)

/-- The lines that `mmu_map_sm_page` and `mmu_map_lg_page` share. -/
def ensureCoarse (debugPrint : Bool) (s : State) (pde domain : BitVec 32) :
    Except Panic State := do
  let tag := CoarsePtDesc.tag.get (s.mem.load32 pde)
  assert (tag == fldFaultTag || tag == fldCoarsePtTag)
    "pde->tag == FLD_FAULT_TAG || pde->tag == FLD_COARSE_PT_TAG"
  if tag == fldFaultTag then
    let (f, s) ← mkCoarsePageTable s domain
    let s := s.store32 pde f
    let _ ← whenDebug debugPrint (coarseTablePrint pde (s.mem.load32 pde))
    pure s
  else pure s

/-- `mmu_map_sm_page`. -/
def mmuMapSmPage (debugPrint : Bool) (s : State) (pt va pa domain flags : BitVec 32) :
    Except Panic (BitVec 32 × State) := do
  assert (isAligned va 12) "is_aligned(va, 12)"
  assert (isAligned pa 12) "is_aligned(pa, 12)"
  let pde := mmuFirstLevelLookup pt va
  let s ← ensureCoarse debugPrint s pde domain
  let pte := mmuSecondLevelLookup s pde va
  assert ((SmPageDesc.tag.get (s.mem.load32 pte)).setWidth 2 == fldFaultTag)
    "pte->tag == FLD_FAULT_TAG"
  let s := s.store32 pte (smPageWord pa flags)
  let _ ← whenDebug debugPrint (printk "flags: %b\n" [.word flags])
  let _ ← whenDebug debugPrint (smPageDescPrint pte (s.mem.load32 pte))
  pure (pte, s)

/-- `mmu_map_lg_page`. -/
def mmuMapLgPage (debugPrint : Bool) (s : State) (pt va pa domain flags : BitVec 32) :
    Except Panic (BitVec 32 × State) := do
  assert (isAligned va 16) "is_aligned(va, 16)"
  assert (isAligned pa 16) "is_aligned(pa, 16)"
  assert (getSecondLevelTableIdx va ≤ maxLargePageIdx)
    "get_second_level_table_idx(va) <= MAX_LARGE_PAGE_IDX"
  let pde := mmuFirstLevelLookup pt va
  let s ← ensureCoarse debugPrint s pde domain
  let pte := mmuSecondLevelLookup s pde va
  assert ((List.range 16).all fun i =>
      LgPageDesc.tag.get (s.mem.load32 (pteAt pte i)) == fldFaultTag)
    "pte[i].tag == FLD_FAULT_TAG"
  let s := storeLgPages s pte (lgPageWord pa flags) 16
  let _ ← whenDebug debugPrint (printk "flags: %b\n" [.word flags])
  let _ ← whenDebug debugPrint (lgPageDescPrint pte (s.mem.load32 pte))
  pure (pte, s)

/-! ## What printing can do -/

/-- A call that returns whatever it prints. -/
def Returns (x : Except Panic (List Char)) : Prop := ∃ t, x = .ok t

/-- Texts that all return, return one after the other. -/
theorem printAll_returns {ps : List (Except Panic (List Char))} (h : ∀ p ∈ ps, Returns p) :
    Returns (printAll ps) := by
  induction ps with
  | nil => exact ⟨[], rfl⟩
  | cons p ps ih =>
    obtain ⟨t, ht⟩ := h p List.mem_cons_self
    obtain ⟨rest, hrest⟩ := ih fun q hq => h q (List.mem_cons_of_mem _ hq)
    exact ⟨t ++ rest, bind_eq_ok.mpr ⟨t, ht, bind_eq_ok.mpr ⟨rest, hrest, rfl⟩⟩⟩

/-- Printing a field returns. -/
theorem printField_returns {n : ℕ} (field : BitField n) (name : String) (x : BitVec 32) :
    Returns (printField field name x) := by
  obtain ⟨t, ht⟩ : Returns (printk "\t0b%b\t= %s\n"
      [.word ((field.get x).setWidth 32), .str name]) := printk_returns rfl
  obtain ⟨t', ht'⟩ : Returns (printk "\t0x%x\n" [.word ((field.get x).setWidth 32)]) :=
    printk_returns rfl
  unfold printField
  by_cases hv : 8 < (field.get x).setWidth 32
  · refine ⟨t ++ t', bind_eq_ok.mpr ⟨t, ht, ?_⟩⟩
    rw [if_pos hv]
    exact bind_eq_ok.mpr ⟨t', ht', rfl⟩
  · refine ⟨t, bind_eq_ok.mpr ⟨t, ht, ?_⟩⟩
    rw [if_neg hv]
    rfl

/-- Printing a coarse table returns. -/
theorem coarseTablePrint_returns (fld x : BitVec 32) : Returns (coarseTablePrint fld x) := by
  refine printAll_returns ?_
  simp only [List.forall_mem_cons, printField_returns, true_and]
  refine ⟨?_, ?_, ?_, ?_, ?_, List.forall_mem_nil _⟩
  all_goals exact printk_returns rfl

/-- Printing a small page returns. -/
theorem smPageDescPrint_returns (pte x : BitVec 32) : Returns (smPageDescPrint pte x) := by
  refine printAll_returns ?_
  simp only [List.forall_mem_cons, printField_returns, true_and]
  refine ⟨?_, ?_, ?_, ?_, ?_, List.forall_mem_nil _⟩
  all_goals exact printk_returns rfl

/-- Printing a large page returns. -/
theorem lgPageDescPrint_returns (pte x : BitVec 32) : Returns (lgPageDescPrint pte x) := by
  refine printAll_returns ?_
  simp only [List.forall_mem_cons, printField_returns, true_and]
  refine ⟨?_, ?_, ?_, ?_, ?_, List.forall_mem_nil _⟩
  all_goals exact printk_returns rfl

/-- Printing the fields of a section returns. -/
theorem sectionFields_returns (f x : BitVec 32) : Returns (sectionFields f x) := by
  refine printAll_returns ?_
  simp only [List.forall_mem_cons, printField_returns, true_and]
  refine ⟨?_, ?_, ?_, ?_, List.forall_mem_nil _⟩
  all_goals exact printk_returns rfl

/-- What returns can be left out. -/
theorem Returns.bind {α : Type} {x : Except Panic (List Char)} (h : Returns x)
    (next : Except Panic α) : (do let _ ← x; next) = next := by
  obtain ⟨t, rfl⟩ := h
  rfl

/-- Text that would return can be left out, printed or not. -/
theorem Returns.whenDebug_bind {α : Type} {x : Except Panic (List Char)} (h : Returns x)
    (debugPrint : Bool) (next : Except Panic α) :
    (do let _ ← whenDebug debugPrint x; next) = next := by
  cases debugPrint with
  | false => rfl
  | true => exact h.bind next

/-- Printing a section amounts to checking it. -/
theorem sectionPrint_bind {α : Type} (f x : BitVec 32) (next : Except Panic α) :
    (do let _ ← sectionPrint f x; next) = (do RpiVm.sectionPrint x; next) := by
  unfold sectionPrint RpiVm.sectionPrint
  obtain ⟨t, ht⟩ := sectionFields_returns f x
  obtain ⟨t', ht'⟩ : Returns (printk "******* <END>\n" []) := printk_returns rfl
  rw [ht, ht']
  cases sectionCheckValid x <;> rfl

/-- With its output, `mmu_map_section` does what it does with the check alone. -/
theorem mmuMapSection_eq (debugPrint : Bool) (s : State) (pt va pa domain flags : BitVec 32) :
    mmuMapSection debugPrint s pt va pa domain flags =
      mmuMapSectionWith debugPrint s pt va pa domain flags := by
  unfold mmuMapSection mmuMapSectionWith
  cases debugPrint with
  | false => rfl
  | true =>
    simp only [whenDebug, if_true]
    simp only [sectionPrint_bind]

/-- The output of the shared lines changes nothing. -/
theorem ensureCoarse_eq (debugPrint : Bool) (s : State) (pde domain : BitVec 32) :
    ensureCoarse debugPrint s pde domain = RpiVm.ensureCoarse s pde domain := by
  unfold ensureCoarse RpiVm.ensureCoarse
  simp only [(coarseTablePrint_returns _ _).whenDebug_bind]

/-- The output of `mmu_map_sm_page` changes nothing. -/
theorem mmuMapSmPage_eq (debugPrint : Bool) (s : State) (pt va pa domain flags : BitVec 32) :
    mmuMapSmPage debugPrint s pt va pa domain flags =
      RpiVm.mmuMapSmPage s pt va pa domain flags := by
  have hflags : Returns (printk "flags: %b\n" [.word flags]) := printk_returns rfl
  unfold mmuMapSmPage RpiVm.mmuMapSmPage
  simp only [ensureCoarse_eq, hflags.whenDebug_bind, (smPageDescPrint_returns _ _).whenDebug_bind]

/-- The output of `mmu_map_lg_page` changes nothing. -/
theorem mmuMapLgPage_eq (debugPrint : Bool) (s : State) (pt va pa domain flags : BitVec 32) :
    mmuMapLgPage debugPrint s pt va pa domain flags =
      RpiVm.mmuMapLgPage s pt va pa domain flags := by
  have hflags : Returns (printk "flags: %b\n" [.word flags]) := printk_returns rfl
  unfold mmuMapLgPage RpiVm.mmuMapLgPage
  simp only [ensureCoarse_eq, hflags.whenDebug_bind, (lgPageDescPrint_returns _ _).whenDebug_bind]

end Debug

/-! ## The two builds -/

/-- Running a mapping function, compiled with or without `DEBUG_PRINT_DESCRIPTORS`. -/
def MapCall.execWith (debugPrint : Bool) (c : MapCall) (s : State) (pt : BitVec 32) :
    Except Panic State :=
  Prod.snd <$> match c.kind with
    | .sec => Debug.mmuMapSection debugPrint s pt c.va c.pa c.domain c.flags
    | .sm => Debug.mmuMapSmPage debugPrint s pt c.va c.pa c.domain c.flags
    | .lg => Debug.mmuMapLgPage debugPrint s pt c.va c.pa c.domain c.flags

/-- The committed build is the one of the other modules. -/
theorem MapCall.execWith_true (c : MapCall) (s : State) (pt : BitVec 32) :
    c.execWith true s pt = c.exec s pt := by
  unfold MapCall.execWith MapCall.exec
  cases c.kind with
  | sec => simp only [Debug.mmuMapSection_eq, mmuMapSection]
  | sm => simp only [Debug.mmuMapSmPage_eq]
  | lg => simp only [Debug.mmuMapLgPage_eq]

/-- A call does the same in both builds: it returns in both or in neither, and leaves the
same memory and heap. -/
def MapCall.SameInBothBuilds (c : MapCall) (s : State) (pt : BitVec 32) : Prop :=
  ∀ s', c.execWith true s pt = .ok s' ↔ c.execWith false s pt = .ok s'

/-- The assertions of `mmu_map_section` before it prints. -/
def MapCall.SectionAccepted (c : MapCall) (s : State) (pt : BitVec 32) : Prop :=
  isAligned c.va 20 = true ∧ isAligned c.pa 20 = true ∧
    SecDesc.tag.get (s.mem.load32 (mmuFirstLevelLookup pt c.va)) = 0

/-- None of the flags that a printed section may not have. -/
def plainFlags (flags : BitVec 32) : Prop :=
  flags &&& fShared = 0 ∧ flags &&& fCacheable = 0 ∧ flags &&& fBufferable = 0

instance (flags : BitVec 32) : Decidable (plainFlags flags) := by
  unfold plainFlags; infer_instance

/-- A flag reads as zero exactly when its bit is clear. -/
theorem setWidth_flag_eq_zero_iff (flags : BitVec 32) {k : ℕ} (hk : k < 32) :
    ((flags &&& BitVec.twoPow 32 k) >>> k).setWidth 1 = 0 ↔ flags &&& BitVec.twoPow 32 k = 0 := by
  have hset : ∀ j : Fin 32, (BitVec.twoPow 32 j >>> (j : ℕ)).setWidth 1 ≠ 0 ∧
      BitVec.twoPow 32 j ≠ 0 := by decide
  rw [BitVec.and_twoPow]
  split
  · exact iff_of_false (hset ⟨k, hk⟩).1 (hset ⟨k, hk⟩).2
  · simp

/-- The check on a printed section asks for plain flags. -/
theorem flagsPrintable_iff (flags : BitVec 32) : flagsPrintable flags = true ↔ plainFlags flags := by
  have hs : fShared = BitVec.twoPow 32 7 := by decide
  have hc : fCacheable = BitVec.twoPow 32 3 := by decide
  have hb : fBufferable = BitVec.twoPow 32 4 := by decide
  simp only [flagsPrintable, flagAttrs, fgetS, fgetC, fgetB, plainFlags, Bool.and_eq_true,
    beq_iff_eq, and_assoc]
  rw [hs, hc, hb, setWidth_flag_eq_zero_iff flags (by decide),
    setWidth_flag_eq_zero_iff flags (by decide), setWidth_flag_eq_zero_iff flags (by decide)]

/-- In the build that prints, a section call returns if it is accepted with plain flags. -/
theorem Debug.mmuMapSection_eq_ok {debugPrint : Bool} {c : MapCall} {s : State}
    {pt : BitVec 32} {p : BitVec 32 × State} :
    Debug.mmuMapSection debugPrint s pt c.va c.pa c.domain c.flags = .ok p ↔
      c.SectionAccepted s pt ∧ (debugPrint = true → plainFlags c.flags) ∧
      p = (mmuFirstLevelLookup pt c.va, s.store32 (mmuFirstLevelLookup pt c.va)
        (sectionWord c.pa c.domain c.flags)) := by
  have hcheck : ∀ u : Unit, sectionCheckValid (sectionWord c.pa c.domain c.flags) = .ok u ↔
      plainFlags c.flags := fun _ =>
    (sectionCheckValid_sectionWord _ _ _).trans (flagsPrintable_iff _)
  rw [Debug.mmuMapSection_eq, mmuMapSectionWith]
  simp only [bind_eq_ok, assert_eq_ok, demand_eq_ok, pure_eq_ok, beq_iff_eq, exists_const,
    MapCall.SectionAccepted, and_assoc, State.store32, Mem.load32_store32_same, RpiVm.sectionPrint]
  cases debugPrint with
  | false => simp [eq_comm (a := p)]
  | true => simp [hcheck, eq_comm (a := p)]

/-- A call does the same in both builds exactly when it maps a page, fails an assertion
before it prints, or has plain flags. -/
theorem MapCall.sameInBothBuilds_iff (c : MapCall) (s : State) (pt : BitVec 32) :
    c.SameInBothBuilds s pt ↔
      c.kind ≠ .sec ∨ ¬ c.SectionAccepted s pt ∨ plainFlags c.flags := by
  unfold MapCall.SameInBothBuilds MapCall.execWith
  cases c.kind with
  | sm => simp [Debug.mmuMapSmPage_eq]
  | lg => simp [Debug.mmuMapLgPage_eq]
  | sec =>
    simp only [map_snd_eq_ok, Debug.mmuMapSection_eq_ok]
    constructor
    · intro h
      by_contra hnot
      simp only [ne_eq, not_true_eq_false, false_or, not_or, not_not] at hnot
      obtain ⟨r, _, hplain, _⟩ := (h _).mpr ⟨_, hnot.1, by simp, rfl⟩
      exact hnot.2 (hplain trivial)
    · rintro (hkind | hrejected | hplain) s'
      · exact absurd rfl hkind
      · exact iff_of_false (fun ⟨_, h, _⟩ => hrejected h) fun ⟨_, h, _⟩ => hrejected h
      · simp [hplain]

/-- A cacheable section in a first table is mapped without the print and panics with it. -/
theorem MapCall.cacheable_section_differs : ∃ (w : World) (s : State),
    Reachable World.Step World.Init w ∧ 0x140000#32 ∈ w.tables ∧
    (MapCall.mk .sec 0x100000#32 0x200000#32 1 fCacheable).execWith false w.st 0x140000#32 = .ok s ∧
    ∀ s', (MapCall.mk .sec 0x100000#32 0x200000#32 1 fCacheable).execWith true w.st 0x140000#32 ≠
      .ok s' := by
  obtain ⟨w, hw, htables, hempty, _⟩ := World.exists_first_table
  let c : MapCall := ⟨.sec, 0x100000#32, 0x200000#32, 1, fCacheable⟩
  have hfault : (firstWord w.st.mem 0x140000#32 (firstIndex c.va)).extractLsb' 0 2 = 0#2 :=
    (tableOf_eq_fault_iff _ _ _).mp (by rw [hempty]; rfl)
  have haccepted : c.SectionAccepted w.st 0x140000#32 := by
    refine ⟨by decide, by decide, ?_⟩
    rw [mmuFirstLevelLookup_eq, tag_get_firstWord]
    exact hfault
  refine ⟨w, _, World.reachable_of_aligned hw, by simp [htables], map_snd_eq_ok.mpr
    ⟨_, Debug.mmuMapSection_eq_ok (c := c).mpr ⟨haccepted, by simp, rfl⟩⟩, ?_⟩
  intro s' hs'
  obtain ⟨r, hr⟩ := map_snd_eq_ok.mp hs'
  have hplain := (Debug.mmuMapSection_eq_ok (c := c).mp hr).2.1 rfl
  exact absurd hplain (by decide)

end RpiVm
