import RpiVm.Mmu.Map

/-!
# Page tables as values

The purpose of a page table, without addresses of tables or bits of
descriptors: a first-level entry is unused, a section, or a coarse table of 256
second-level entries. The mapping functions are restated here as updates of
such a value.
-/

namespace RpiVm

open CLib

/-- A second-level entry. -/
inductive SecondLevel where
  /-- Unused. -/
  | fault
  /-- One of the sixteen entries of a large page. -/
  | lg (base : BitVec 16) (attrs : Attrs)
  /-- A small page. -/
  | sm (base : BitVec 20) (attrs : Attrs)
  deriving DecidableEq, Repr

/-- A first-level entry. -/
inductive FirstLevel where
  /-- Unused. -/
  | fault
  /-- A coarse table. -/
  | coarse (domain : BitVec 4) (entries : BitVec 8 → SecondLevel)
  /-- A section. -/
  | sec (base : BitVec 12) (domain : BitVec 4) (attrs : Attrs)
  /-- The reserved tag. -/
  | reserved

/-- The contents of a first-level table and of its coarse tables. -/
abbrev Table := BitVec 12 → FirstLevel

namespace Table

/-- A table without mappings. -/
def empty : Table := fun _ => .fault

end Table

/-- The translation by a second-level entry. -/
def SecondLevel.walk (e : SecondLevel) (domain : BitVec 4) (va : BitVec 32) : Option Translation :=
  match e with
  | .fault => none
  | .lg base attrs => some ⟨base ++ va.extractLsb' 0 16, domain, attrs⟩
  | .sm base attrs => some ⟨base ++ va.extractLsb' 0 12, domain, attrs⟩

/-- The translation of a virtual address by a first-level entry. -/
def FirstLevel.walk (e : FirstLevel) (va : BitVec 32) : Option Translation :=
  match e with
  | .fault => none
  | .coarse domain entries => (entries (secondIndex va)).walk domain va
  | .sec base domain attrs => some ⟨base ++ va.extractLsb' 0 20, domain, attrs⟩
  | .reserved => none

/-- The translation of a virtual address by a table. -/
def Table.walk (t : Table) (va : BitVec 32) : Option Translation := (t (firstIndex va)).walk va

/-- The domain and entries of the coarse table that a page mapping uses: the
one that is there, or a fresh one with the requested domain. -/
def FirstLevel.asCoarse (domain : BitVec 4) :
    FirstLevel → Option (BitVec 4 × (BitVec 8 → SecondLevel))
  | .fault => some (domain, fun _ => .fault)
  | .coarse d entries => some (d, entries)
  | .sec _ _ _ => none
  | .reserved => none

/-- A section request is accepted by the check on the printed descriptor. -/
def flagsPrintable (flags : BitVec 32) : Bool :=
  (flagAttrs flags).s == 0 && (flagAttrs flags).c == 0 && (flagAttrs flags).b == 0

/-- A small page mapping ignores the large pages it finds. -/
def SecondLevel.isSm : SecondLevel → Bool
  | .sm _ _ => true
  | _ => false

/-- The entries of a coarse table once a large page starts at index `j`. -/
def putLg (entries : BitVec 8 → SecondLevel) (j : BitVec 8) (n : ℕ) (e : SecondLevel) :
    BitVec 8 → SecondLevel :=
  fun k => if j.toNat ≤ k.toNat ∧ k.toNat < j.toNat + n then e else entries k

/-- A mapping request on a table value; `none` when an assertion fails. -/
def MapCall.apply (c : MapCall) (t : Table) : Option Table :=
  let i := firstIndex c.va
  let j := secondIndex c.va
  match c.kind with
  | .sec =>
    match t i with
    | .fault =>
      if isAligned c.va 20 ∧ isAligned c.pa 20 ∧ flagsPrintable c.flags then
        some (Function.update t i
          (.sec (c.pa.extractLsb' 20 12) (c.domain.setWidth 4) (flagAttrs c.flags)))
      else none
    | _ => none
  | .sm =>
    match (t i).asCoarse (c.domain.setWidth 4) with
    | some (d, entries) =>
      if isAligned c.va 12 ∧ isAligned c.pa 12 ∧ (entries j).isSm = false then
        some (Function.update t i (.coarse d
          (putLg entries j 1 (.sm (c.pa.extractLsb' 12 20) (flagAttrs c.flags)))))
      else none
    | none => none
  | .lg =>
    match (t i).asCoarse (c.domain.setWidth 4) with
    | some (d, entries) =>
      if isAligned c.va 16 ∧ isAligned c.pa 16 ∧ j.toNat ≤ 240 ∧
          (∀ k : BitVec 8, j.toNat ≤ k.toNat → k.toNat < j.toNat + 16 → entries k = .fault) then
        some (Function.update t i (.coarse d
          (putLg entries j 16 (.lg (c.pa.extractLsb' 16 16) (flagAttrs c.flags)))))
      else none
    | none => none

/-! ## Defined updates -/

namespace MapCall

variable {va pa domain flags : BitVec 32} {t t' : Table}

/-- A section is mapped in an unused entry. -/
theorem apply_sec_eq_some :
    (MapCall.mk .sec va pa domain flags).apply t = some t' ↔
      t (firstIndex va) = .fault ∧ isAligned va 20 ∧ isAligned pa 20 ∧ flagsPrintable flags ∧
      Function.update t (firstIndex va)
        (.sec (pa.extractLsb' 20 12) (domain.setWidth 4) (flagAttrs flags)) = t' := by
  cases hentry : t (firstIndex va) with
  | fault => simp only [apply, hentry, Option.ite_none_right_eq_some, Option.some.injEq, and_assoc,
      true_and]
  | coarse d entries => simp [apply, hentry]
  | sec base d a => simp [apply, hentry]
  | reserved => simp [apply, hentry]

/-- A small page is mapped in a coarse table, not over another. -/
theorem apply_sm_eq_some :
    (MapCall.mk .sm va pa domain flags).apply t = some t' ↔
      ∃ d entries, (t (firstIndex va)).asCoarse (domain.setWidth 4) = some (d, entries) ∧
        isAligned va 12 ∧ isAligned pa 12 ∧ (entries (secondIndex va)).isSm = false ∧
        Function.update t (firstIndex va) (.coarse d (putLg entries (secondIndex va) 1
          (.sm (pa.extractLsb' 12 20) (flagAttrs flags)))) = t' := by
  cases hcoarse : (t (firstIndex va)).asCoarse (domain.setWidth 4) with
  | none => simp [apply, hcoarse]
  | some p => simp [apply, hcoarse, Prod.ext_iff, and_assoc]

/-- A large page is mapped in sixteen unused entries of a coarse table. -/
theorem apply_lg_eq_some :
    (MapCall.mk .lg va pa domain flags).apply t = some t' ↔
      ∃ d entries, (t (firstIndex va)).asCoarse (domain.setWidth 4) = some (d, entries) ∧
        isAligned va 16 ∧ isAligned pa 16 ∧ (secondIndex va).toNat ≤ 240 ∧
        (∀ k : BitVec 8, (secondIndex va).toNat ≤ k.toNat →
          k.toNat < (secondIndex va).toNat + 16 → entries k = .fault) ∧
        Function.update t (firstIndex va) (.coarse d (putLg entries (secondIndex va) 16
          (.lg (pa.extractLsb' 16 16) (flagAttrs flags)))) = t' := by
  cases hcoarse : (t (firstIndex va)).asCoarse (domain.setWidth 4) with
  | none => simp [apply, hcoarse]
  | some p => simp [apply, hcoarse, Prod.ext_iff, and_assoc]

end MapCall

end RpiVm
