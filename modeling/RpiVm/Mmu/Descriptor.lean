import RpiVm.Lib.BitField
import RpiVm.Lib.Panic
import RpiVm.Mmu.Walk

/-!
# Descriptors and flags

The bit-field structures of `mmu.h`, the functions that extract a mapping's
attributes from the flag word, and the descriptors that the mapping functions
write. Each descriptor is shown to decode, with the bit positions of the walk,
to exactly what was asked for.
-/

namespace RpiVm

open CLib

/-! ## Constants -/

def apFullAccess : BitVec 32 := 0b11
def texDefault : BitVec 32 := 0b000
def fldFaultTag : BitVec 2 := 0b00
def fldCoarsePtTag : BitVec 2 := 0b01
def fldSectionTag : BitVec 2 := 0b10
def sldLgPageTag : BitVec 2 := 0b01
def sldSmPageBit1 : BitVec 1 := 0b1
def fNoUsrAccess : BitVec 32 := 0b101
def fCacheable : BitVec 32 := 1#32 <<< 3
def fBufferable : BitVec 32 := 1#32 <<< 4
def fSetApx : BitVec 32 := 1#32 <<< 5
def fNotGlobal : BitVec 32 := 1#32 <<< 6
def fShared : BitVec 32 := 1#32 <<< 7
def fExecNever : BitVec 32 := 1#32 <<< 8

/-! ## Extracting flags -/

/-- `FGET_AP`: full access when no access flag was set through bit 2. -/
def fgetAP (flags : BitVec 32) : BitVec 32 :=
  if flags &&& 0b100 ≠ 0 then flags &&& 0b11 else apFullAccess

def fgetC (flags : BitVec 32) : BitVec 32 := (flags &&& fCacheable) >>> 3
def fgetB (flags : BitVec 32) : BitVec 32 := (flags &&& fBufferable) >>> 4
def fgetAPX (flags : BitVec 32) : BitVec 32 := (flags &&& fSetApx) >>> 5
def fgetNG (flags : BitVec 32) : BitVec 32 := (flags &&& fNotGlobal) >>> 6
def fgetS (flags : BitVec 32) : BitVec 32 := (flags &&& fShared) >>> 7
def fgetXN (flags : BitVec 32) : BitVec 32 := (flags &&& fExecNever) >>> 8

/-- The attributes a flag word asks for, with the default memory type. -/
def flagAttrs (flags : BitVec 32) : Attrs where
  ap := (fgetAP flags).setWidth 2
  apx := (fgetAPX flags).setWidth 1
  c := (fgetC flags).setWidth 1
  b := (fgetB flags).setWidth 1
  ng := (fgetNG flags).setWidth 1
  s := (fgetS flags).setWidth 1
  xn := (fgetXN flags).setWidth 1
  tex := 0

/-!
## Bit-field structures

`sec_desc_t`, `coarse_pt_desc_t` (whose tag and domain `fld_t` shares),
`lg_page_desc_t` and `sm_page_desc_t`. The tag of a small page is one bit, the
upper one of the hardware's two.
-/

namespace SecDesc

@[simp] def tag : BitField 2 := ⟨0⟩
@[simp] def B : BitField 1 := ⟨2⟩
@[simp] def C : BitField 1 := ⟨3⟩
@[simp] def XN : BitField 1 := ⟨4⟩
@[simp] def domain : BitField 4 := ⟨5⟩
@[simp] def IMP : BitField 1 := ⟨9⟩
@[simp] def AP : BitField 2 := ⟨10⟩
@[simp] def TEX : BitField 3 := ⟨12⟩
@[simp] def APX : BitField 1 := ⟨15⟩
@[simp] def S : BitField 1 := ⟨16⟩
@[simp] def nG : BitField 1 := ⟨17⟩
@[simp] def super : BitField 1 := ⟨18⟩
@[simp] def sbz1 : BitField 1 := ⟨19⟩
@[simp] def secBaseAddr : BitField 12 := ⟨20⟩

end SecDesc

namespace CoarsePtDesc

@[simp] def tag : BitField 2 := ⟨0⟩
@[simp] def domain : BitField 4 := ⟨5⟩
@[simp] def IMP : BitField 1 := ⟨9⟩
@[simp] def base : BitField 22 := ⟨10⟩

end CoarsePtDesc

namespace LgPageDesc

@[simp] def tag : BitField 2 := ⟨0⟩
@[simp] def B : BitField 1 := ⟨2⟩
@[simp] def C : BitField 1 := ⟨3⟩
@[simp] def AP : BitField 2 := ⟨4⟩
@[simp] def APX : BitField 1 := ⟨9⟩
@[simp] def S : BitField 1 := ⟨10⟩
@[simp] def nG : BitField 1 := ⟨11⟩
@[simp] def TEX : BitField 3 := ⟨12⟩
@[simp] def XN : BitField 1 := ⟨15⟩
@[simp] def base : BitField 16 := ⟨16⟩

end LgPageDesc

namespace SmPageDesc

@[simp] def XN : BitField 1 := ⟨0⟩
@[simp] def tag : BitField 1 := ⟨1⟩
@[simp] def B : BitField 1 := ⟨2⟩
@[simp] def C : BitField 1 := ⟨3⟩
@[simp] def AP : BitField 2 := ⟨4⟩
@[simp] def TEX : BitField 3 := ⟨6⟩
@[simp] def APX : BitField 1 := ⟨9⟩
@[simp] def S : BitField 1 := ⟨10⟩
@[simp] def nG : BitField 1 := ⟨11⟩
@[simp] def base : BitField 20 := ⟨12⟩

end SmPageDesc

/-! ## Making descriptors -/

/-- `mk_section`. -/
def mkSection : BitVec 32 := SecDesc.tag.set 0 (fldSectionTag.setWidth 32)

/-- `mk_sm_page`. -/
def mkSmPage : BitVec 32 := SmPageDesc.tag.set 0 (sldSmPageBit1.setWidth 32)

/-- `mk_lg_page`. -/
def mkLgPage : BitVec 32 := LgPageDesc.tag.set 0 (sldLgPageTag.setWidth 32)

/-- The word that the assignments of `mmu_map_section` leave in `*pde`. -/
def sectionWord (pa domain flags : BitVec 32) : BitVec 32 :=
  let pde := mkSection
  let pde := SecDesc.nG.set pde (fgetNG flags)
  let pde := SecDesc.S.set pde (fgetS flags)
  let pde := SecDesc.APX.set pde (fgetAPX flags)
  let pde := SecDesc.TEX.set pde texDefault
  let pde := SecDesc.AP.set pde (fgetAP flags)
  let pde := SecDesc.domain.set pde domain
  let pde := SecDesc.XN.set pde (fgetXN flags)
  let pde := SecDesc.C.set pde (fgetC flags)
  let pde := SecDesc.B.set pde (fgetB flags)
  SecDesc.secBaseAddr.set pde (pa >>> 20)

/-- The word that the assignments of `mmu_map_sm_page` leave in `*pte`. -/
def smPageWord (pa flags : BitVec 32) : BitVec 32 :=
  let pte := mkSmPage
  let pte := SmPageDesc.nG.set pte (fgetNG flags)
  let pte := SmPageDesc.S.set pte (fgetS flags)
  let pte := SmPageDesc.APX.set pte (fgetAPX flags)
  let pte := SmPageDesc.TEX.set pte texDefault
  let pte := SmPageDesc.AP.set pte (fgetAP flags)
  let pte := SmPageDesc.XN.set pte (fgetXN flags)
  let pte := SmPageDesc.C.set pte (fgetC flags)
  let pte := SmPageDesc.B.set pte (fgetB flags)
  SmPageDesc.base.set pte (pa >>> 12)

/-- The word that the assignments of `mmu_map_lg_page` leave in each `pte[i]`. -/
def lgPageWord (pa flags : BitVec 32) : BitVec 32 :=
  let pte := mkLgPage
  let pte := LgPageDesc.XN.set pte (fgetXN flags)
  let pte := LgPageDesc.TEX.set pte texDefault
  let pte := LgPageDesc.nG.set pte (fgetNG flags)
  let pte := LgPageDesc.S.set pte (fgetS flags)
  let pte := LgPageDesc.APX.set pte (fgetAPX flags)
  let pte := LgPageDesc.AP.set pte (fgetAP flags)
  let pte := LgPageDesc.C.set pte (fgetC flags)
  let pte := LgPageDesc.B.set pte (fgetB flags)
  LgPageDesc.base.set pte (pa >>> 16)

/-- The word that `mk_coarse_page_table` returns for a table at `pt`. -/
def coarseWord (pt domain : BitVec 32) : BitVec 32 :=
  let entry := CoarsePtDesc.tag.set 0 (fldCoarsePtTag.setWidth 32)
  let entry := CoarsePtDesc.base.set entry (pt >>> 10)
  CoarsePtDesc.domain.set entry domain

/-! ## What the walk reads back -/

/-- The bits above a shift. -/
theorem setWidth_ushiftRight_eq_extractLsb' (x : BitVec 32) {k n : ℕ} :
    (x >>> k).setWidth n = x.extractLsb' k n := by
  apply BitVec.eq_of_getLsbD_eq
  intro i hi
  simp [hi]

/-- A section descriptor has the section tag. -/
theorem sectionWord_tag (pa domain flags : BitVec 32) :
    (sectionWord pa domain flags).extractLsb' 0 2 = 0b10#2 := by
  simp [sectionWord, mkSection, fldSectionTag]

/-- A section descriptor carries the top twelve bits of the physical address. -/
theorem sectionWord_base (pa domain flags : BitVec 32) :
    (sectionWord pa domain flags).extractLsb' 20 12 = pa.extractLsb' 20 12 := by
  simp [sectionWord, setWidth_ushiftRight_eq_extractLsb']

/-- A section descriptor carries the domain, cut to four bits. -/
theorem sectionWord_domain (pa domain flags : BitVec 32) :
    (sectionWord pa domain flags).extractLsb' 5 4 = domain.setWidth 4 := by
  simp [sectionWord]

/-- The attributes of a section descriptor are those of the flags. -/
theorem sectionAttrs_sectionWord (pa domain flags : BitVec 32) :
    sectionAttrs (sectionWord pa domain flags) = flagAttrs flags := by
  simp [sectionAttrs, flagAttrs, sectionWord, texDefault]

/-- A large page descriptor has the large page tag. -/
theorem lgPageWord_tag (pa flags : BitVec 32) :
    (lgPageWord pa flags).extractLsb' 0 2 = 0b01#2 := by
  simp [lgPageWord, mkLgPage, sldLgPageTag]

/-- A large page descriptor carries the top sixteen bits of the physical address. -/
theorem lgPageWord_base (pa flags : BitVec 32) :
    (lgPageWord pa flags).extractLsb' 16 16 = pa.extractLsb' 16 16 := by
  simp [lgPageWord, setWidth_ushiftRight_eq_extractLsb']

/-- The attributes of a large page descriptor are those of the flags. -/
theorem largeAttrs_lgPageWord (pa flags : BitVec 32) :
    largeAttrs (lgPageWord pa flags) = flagAttrs flags := by
  simp [largeAttrs, flagAttrs, lgPageWord, texDefault]

/-- A small page descriptor has bit 1 set. -/
theorem smPageWord_tag (pa flags : BitVec 32) :
    (smPageWord pa flags).extractLsb' 1 1 = 1#1 := by
  simp [smPageWord, mkSmPage, sldSmPageBit1]

/-- A small page descriptor carries the top twenty bits of the physical address. -/
theorem smPageWord_base (pa flags : BitVec 32) :
    (smPageWord pa flags).extractLsb' 12 20 = pa.extractLsb' 12 20 := by
  simp [smPageWord, setWidth_ushiftRight_eq_extractLsb']

/-- The attributes of a small page descriptor are those of the flags. -/
theorem smallAttrs_smPageWord (pa flags : BitVec 32) :
    smallAttrs (smPageWord pa flags) = flagAttrs flags := by
  simp [smallAttrs, flagAttrs, smPageWord, texDefault]

/-- A coarse table descriptor has the coarse tag. -/
theorem coarseWord_tag (pt domain : BitVec 32) :
    (coarseWord pt domain).extractLsb' 0 2 = 0b01#2 := by
  simp [coarseWord, fldCoarsePtTag]

/-- A coarse table descriptor carries the domain, cut to four bits. -/
theorem coarseWord_domain (pt domain : BitVec 32) :
    (coarseWord pt domain).extractLsb' 5 4 = domain.setWidth 4 := by
  simp [coarseWord]

/-- A coarse table descriptor points back to a table aligned to 1 KB. -/
theorem coarseBase_coarseWord {pt : BitVec 32} (domain : BitVec 32) (h : pt.toNat % 1024 = 0) :
    coarseBase (coarseWord pt domain) = pt := by
  have hbase : (coarseWord pt domain).extractLsb' 10 22 = pt.extractLsb' 10 22 := by
    simp [coarseWord, setWidth_ushiftRight_eq_extractLsb']
  rw [coarseBase, hbase]
  apply BitVec.eq_of_toNat_eq
  simp only [BitVec.toNat_append, BitVec.extractLsb'_toNat, BitVec.toNat_ofNat,
    Nat.shiftRight_eq_div_pow, Nat.shiftLeft_eq, Nat.zero_mod, Nat.or_zero]
  omega

/-- The two views of a second-level tag: bit 1 of a small page excludes the
large page tag. -/
theorem tag_ne_large_of_bit1 {w : BitVec 32} (h : w.extractLsb' 1 1 = 1#1) :
    w.extractLsb' 0 2 ≠ 0b01#2 := by
  intro htag
  have h1 := congrArg (fun v : BitVec 1 => v.getLsbD 0) h
  have h2 := congrArg (fun v : BitVec 2 => v.getLsbD 1) htag
  simp at h1 h2
  simp [h1] at h2

end RpiVm
