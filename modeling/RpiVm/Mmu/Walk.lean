import RpiVm.Lib.Memory

/-!
# The hardware table walk

The ARMv6 walk (subpages disabled, `XP = 1`) over a page table in memory, with
the bit positions of the descriptions at the head of `mmu.h`. It shares no
definition with the code that writes descriptors.
-/

namespace RpiVm

open CLib

/-- The permission and memory attributes of a translation. -/
structure Attrs where
  /-- `AP[1:0]`, access permissions. -/
  ap : BitVec 2
  /-- `APX`, the extra permission bit. -/
  apx : BitVec 1
  /-- `C`, cacheable. -/
  c : BitVec 1
  /-- `B`, bufferable. -/
  b : BitVec 1
  /-- `nG`, not global. -/
  ng : BitVec 1
  /-- `S`, shared. -/
  s : BitVec 1
  /-- `XN`, execute never. -/
  xn : BitVec 1
  /-- `TEX`, memory type. -/
  tex : BitVec 3
  deriving DecidableEq, Repr

/-- What a walk yields for an address that translates. -/
structure Translation where
  /-- The physical address. -/
  pa : BitVec 32
  /-- The domain, from the first-level descriptor. -/
  domain : BitVec 4
  /-- The attributes of the section or page. -/
  attrs : Attrs
  deriving DecidableEq, Repr

/-- The attributes in a section descriptor. -/
def sectionAttrs (w : BitVec 32) : Attrs where
  ap := w.extractLsb' 10 2
  apx := w.extractLsb' 15 1
  c := w.extractLsb' 3 1
  b := w.extractLsb' 2 1
  ng := w.extractLsb' 17 1
  s := w.extractLsb' 16 1
  xn := w.extractLsb' 4 1
  tex := w.extractLsb' 12 3

/-- The attributes in a large page descriptor. -/
def largeAttrs (w : BitVec 32) : Attrs where
  ap := w.extractLsb' 4 2
  apx := w.extractLsb' 9 1
  c := w.extractLsb' 3 1
  b := w.extractLsb' 2 1
  ng := w.extractLsb' 11 1
  s := w.extractLsb' 10 1
  xn := w.extractLsb' 15 1
  tex := w.extractLsb' 12 3

/-- The attributes in a small page descriptor. -/
def smallAttrs (w : BitVec 32) : Attrs where
  ap := w.extractLsb' 4 2
  apx := w.extractLsb' 9 1
  c := w.extractLsb' 3 1
  b := w.extractLsb' 2 1
  ng := w.extractLsb' 11 1
  s := w.extractLsb' 10 1
  xn := w.extractLsb' 0 1
  tex := w.extractLsb' 6 3

/-- `va[31:20]`, the first-level index. -/
def firstIndex (va : BitVec 32) : BitVec 12 := va.extractLsb' 20 12

/-- `va[19:12]`, the second-level index. -/
def secondIndex (va : BitVec 32) : BitVec 8 := va.extractLsb' 12 8

/-- The address of a first-level descriptor. -/
def firstAddr (ttb : BitVec 32) (i : BitVec 12) : BitVec 32 := ttb + 4 * i.setWidth 32

/-- The coarse table that a first-level descriptor points to. -/
def coarseBase (fld : BitVec 32) : BitVec 32 := fld.extractLsb' 10 22 ++ 0#10

/-- The address of a second-level descriptor. -/
def secondAddr (base : BitVec 32) (j : BitVec 8) : BitVec 32 := base + 4 * j.setWidth 32

/-- The second-level step: `bits[1:0] = 0b01` is a large page, `bit[1] = 1` a
small page, and `0b00` faults. -/
def secondWalk (sld : BitVec 32) (domain : BitVec 4) (va : BitVec 32) : Option Translation :=
  if sld.extractLsb' 0 2 = 0b01#2 then
    some ⟨sld.extractLsb' 16 16 ++ va.extractLsb' 0 16, domain, largeAttrs sld⟩
  else if sld.extractLsb' 1 1 = 1#1 then
    some ⟨sld.extractLsb' 12 20 ++ va.extractLsb' 0 12, domain, smallAttrs sld⟩
  else none

/-- The walk of a virtual address from a table base; `none` is a translation fault. -/
def walk (m : Mem) (ttb va : BitVec 32) : Option Translation :=
  let fld := m.load32 (firstAddr ttb (firstIndex va))
  if fld.extractLsb' 0 2 = 0b10#2 then
    some ⟨fld.extractLsb' 20 12 ++ va.extractLsb' 0 20, fld.extractLsb' 5 4, sectionAttrs fld⟩
  else if fld.extractLsb' 0 2 = 0b01#2 then
    secondWalk (m.load32 (secondAddr (coarseBase fld) (secondIndex va))) (fld.extractLsb' 5 4) va
  else none

end RpiVm
