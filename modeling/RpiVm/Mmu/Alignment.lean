import RpiVm.Mmu.Mapping

/-!
# What the alignment assertions let through

`is_aligned` takes a size, and the mapping functions pass it a number of bits. The
assertions test the few bits below, so a request passes them with addresses that are
no multiples of the page size, and the descriptor drops the rest of these bits.
-/

namespace RpiVm

open CLib Transition

/-- The bits that `is_aligned` tests when it is given 20, 12 or 16. -/
def PageKind.testedBits : PageKind → BitVec 32
  | .sec => 0b10011
  | .sm => 0b1011
  | .lg => 0b1111

/-- Both addresses pass the alignment assertions of the mapping function. -/
def MapCall.PassesAsserts (c : MapCall) : Prop :=
  c.va &&& c.kind.testedBits = 0 ∧ c.pa &&& c.kind.testedBits = 0

instance (c : MapCall) : Decidable c.PassesAsserts := by
  unfold MapCall.PassesAsserts; infer_instance

/-- The checks of a mapping function on the table and on the flags pass. -/
def MapCall.HasRoom (c : MapCall) (t : Table) : Prop :=
  let j := secondIndex c.va
  match c.kind with
  | .sec => t (firstIndex c.va) = .fault ∧ flagsPrintable c.flags = true
  | .sm => ∃ d entries, (t (firstIndex c.va)).asCoarse (c.domain.setWidth 4) = some (d, entries) ∧
      (entries j).isSm = false
  | .lg => ∃ d entries, (t (firstIndex c.va)).asCoarse (c.domain.setWidth 4) = some (d, entries) ∧
      j.toNat ≤ 240 ∧
      ∀ k : BitVec 8, j.toNat ≤ k.toNat → k.toNat < j.toNat + 16 → entries k = .fault

/-- What `is_aligned` tests of an address, for each of the three constants. -/
theorem isAligned_iff_testedBits (x : BitVec 32) :
    (isAligned x 20#32 = true ↔ x &&& PageKind.sec.testedBits = 0#32) ∧
      (isAligned x 12#32 = true ↔ x &&& PageKind.sm.testedBits = 0#32) ∧
      (isAligned x 16#32 = true ↔ x &&& PageKind.lg.testedBits = 0#32) :=
  ⟨beq_iff_eq, beq_iff_eq, beq_iff_eq⟩

/-- A table update is defined exactly when the assertions on the addresses and those
on the table and the flags pass. -/
theorem MapCall.apply_isSome_iff (c : MapCall) (t : Table) :
    (c.apply t).isSome = true ↔ c.PassesAsserts ∧ c.HasRoom t := by
  obtain ⟨hva₂₀, hva₁₂, hva₁₆⟩ := isAligned_iff_testedBits c.va
  obtain ⟨hpa₂₀, hpa₁₂, hpa₁₆⟩ := isAligned_iff_testedBits c.pa
  unfold MapCall.PassesAsserts MapCall.HasRoom MapCall.apply
  cases hk : c.kind with
  | sec =>
    cases ht : t (firstIndex c.va) <;> simp [ht, hva₂₀, hpa₂₀, and_assoc]
  | sm =>
    cases hcoarse : (t (firstIndex c.va)).asCoarse (c.domain.setWidth 4) with
    | none => simp [hcoarse]
    | some p => simp [hcoarse, hva₁₂, hpa₁₂, and_assoc, Prod.ext_iff]
  | lg =>
    cases hcoarse : (t (firstIndex c.va)).asCoarse (c.domain.setWidth 4) with
    | none => simp [hcoarse]
    | some p => simp [hcoarse, hva₁₆, hpa₁₆, and_assoc, Prod.ext_iff]

/-- A mapping call on a table of the world returns exactly when its assertions pass. -/
theorem World.Inv.map_returns_iff {w : World} (h : w.Inv) {pt : BitVec 32} (hpt : pt ∈ w.tables)
    {c : MapCall} (hfit : c.heapEnd w.st pt < 2 ^ 32) :
    (∃ s, c.exec w.st pt = .ok s) ↔ c.PassesAsserts ∧ c.HasRoom (tableOf w.st.mem pt) := by
  rw [← c.apply_isSome_iff, Option.isSome_iff_exists]
  constructor
  · rintro ⟨s, hs⟩
    exact ⟨_, (MapCall.apply_of_exec (h.layout pt hpt) hfit hs).1⟩
  · rintro ⟨t, ht⟩
    obtain ⟨s, hs, _⟩ := MapCall.refines (h.layout pt hpt) hfit ht
    exact ⟨s, hs⟩

/-- An aligned call that returns has installed a descriptor that maps its first address. -/
theorem World.Inv.map_walk_base {w : World} (h : w.Inv) {pt : BitVec 32} (hpt : pt ∈ w.tables)
    {c : MapCall} (hfit : c.heapEnd w.st pt < 2 ^ 32) (hc : c.Aligned) {s : State}
    (hs : c.exec w.st pt = .ok s) : (walk s.mem pt c.va).map Translation.pa = some c.pa := by
  obtain ⟨happly, _⟩ := MapCall.apply_of_exec (h.layout pt hpt) hfit hs
  have hpos : (0 : BitVec 32).toNat < c.kind.size := by
    cases c.kind <;> decide
  obtain ⟨r, hr, hpa, _⟩ := c.apply_walk_inside happly hc hpos
  have hzero : ∀ x : BitVec 32, x + 0 = x := fun x => BitVec.add_zero x
  rw [hzero] at hr hpa
  rw [walk_eq_tableOf_walk, hr, Option.map_some, hpa]

/-- In every reachable world, a mapping call enforces alignment exactly when its
addresses are aligned, fail the bits tested, or the call fails another assertion. -/
theorem World.enforcesAlignment_iff {w : World} (hw : Reachable World.Step World.Init w)
    {pt : BitVec 32} (hpt : pt ∈ w.tables) {c : MapCall} (hfit : c.heapEnd w.st pt < 2 ^ 32) :
    (∀ s, c.exec w.st pt = .ok s →
        c.Aligned ∧ (walk s.mem pt c.va).map Translation.pa = some c.pa) ↔
      c.Aligned ∨ ¬ c.PassesAsserts ∨ ¬ c.HasRoom (tableOf w.st.mem pt) := by
  have hinv := World.reachable_inv hw
  have hreturns := hinv.map_returns_iff hpt hfit
  constructor
  · intro h
    by_cases hpass : c.PassesAsserts ∧ c.HasRoom (tableOf w.st.mem pt)
    · obtain ⟨s, hs⟩ := hreturns.mpr hpass
      exact .inl (h s hs).1
    · exact .inr (not_and_or.mp hpass)
  · intro h s hs
    have hpass := hreturns.mp ⟨s, hs⟩
    rcases h with hc | hva | hroom
    · exact ⟨hc, hinv.map_walk_base hpt hfit hc hs⟩
    · exact absurd hpass.1 hva
    · exact absurd hpass.2 hroom

/-- The equivalence for a misaligned section in a first table. -/
theorem World.enforcesAlignment_iff_first : ∃ w : World, ∃ c : MapCall,
    (∀ s, c.exec w.st 0x140000#32 = .ok s →
        c.Aligned ∧ (walk s.mem 0x140000#32 c.va).map Translation.pa = some c.pa) ↔
      c.Aligned ∨ ¬ c.PassesAsserts ∨ ¬ c.HasRoom (tableOf w.st.mem 0x140000#32) := by
  obtain ⟨w, hw, htables, hempty, hheap⟩ := World.exists_first_table
  exact ⟨w, ⟨.sec, 0x100000#32, 0x280000#32, 1, 0⟩,
    World.enforcesAlignment_iff (World.reachable_of_aligned hw) (by simp [htables])
      ((MapCall.heapEnd_le _ _ _).trans_lt (by rw [hheap]; decide))⟩

/-- A section request for `0x280000` returns and maps `0x200000`. -/
theorem World.section_drops_low_bits : ∃ (w : World) (s : State),
    Reachable World.Step World.Init w ∧ 0x140000#32 ∈ w.tables ∧
    (MapCall.mk .sec 0x100000#32 0x280000#32 1 0).exec w.st 0x140000#32 = .ok s ∧
    ¬ (MapCall.mk .sec 0x100000#32 0x280000#32 1 0).Aligned ∧
    (walk s.mem 0x140000#32 0x100000#32).map Translation.pa = some 0x200000#32 := by
  let c : MapCall := ⟨.sec, 0x100000#32, 0x280000#32, 1, 0⟩
  obtain ⟨w, hw, htables, hempty, hheap⟩ := World.exists_first_table
  have hmem : 0x140000#32 ∈ w.tables := by simp [htables]
  have hinv := World.reachable_inv (World.reachable_of_aligned hw)
  have hfit : c.heapEnd w.st 0x140000#32 < 2 ^ 32 :=
    (MapCall.heapEnd_le _ _ _).trans_lt (by rw [hheap]; decide)
  have hroom : c.HasRoom (tableOf w.st.mem 0x140000#32) := by
    rw [hempty]
    exact ⟨rfl, by decide⟩
  obtain ⟨s, hs⟩ := (hinv.map_returns_iff hmem hfit).mpr ⟨by decide, hroom⟩
  refine ⟨w, s, World.reachable_of_aligned hw, hmem, hs, by decide, ?_⟩
  obtain ⟨happly, _⟩ := MapCall.apply_of_exec (hinv.layout _ hmem) hfit hs
  rcases c.apply_cases happly with ⟨_, _, htable⟩ | ⟨hkind, _⟩
  · have hfirst : firstIndex 0x100000#32 = firstIndex c.va := rfl
    rw [walk_eq_tableOf_walk, htable, Table.walk, hfirst, Function.update_self]
    exact congrArg some (by decide)
  · exact absurd rfl hkind

end RpiVm
