import RpiVm.Mmu.Mapping

/-!
# The domain of a page

The hardware takes the domain of a page from the first-level entry, and the code
writes it there only when it makes the coarse table. Later pages in the megabyte
get the domain of the first, whatever they ask for.
-/

namespace RpiVm

open CLib Transition

/-- The domain that a walk yields. -/
def domainAt (m : Mem) (pt x : BitVec 32) : Option (BitVec 4) :=
  (walk m pt x).map Translation.domain

/-- The domain that a table value yields. -/
def Table.domainAt (t : Table) (x : BitVec 32) : Option (BitVec 4) :=
  (t.walk x).map Translation.domain

theorem domainAt_eq (m : Mem) (pt x : BitVec 32) :
    domainAt m pt x = (tableOf m pt).domainAt x := by
  rw [domainAt, Table.domainAt, walk_eq_tableOf_walk]

/-- A second-level entry translates with the domain of its table. -/
theorem SecondLevel.walk_domain {e : SecondLevel} {d : BitVec 4} {x : BitVec 32} {r : Translation}
    (h : e.walk d x = some r) : r.domain = d := by
  cases e with
  | fault => simp [SecondLevel.walk] at h
  | lg base attrs =>
    simp only [SecondLevel.walk, Option.some.injEq] at h
    rw [← h]
  | sm base attrs =>
    simp only [SecondLevel.walk, Option.some.injEq] at h
    rw [← h]

/-- A page that is put in a coarse table translates. -/
theorem MapCall.pageEntry_walk (c : MapCall) (d : BitVec 4) (x : BitVec 32) :
    ((c.pageEntry.1).walk d x).map Translation.domain = some d := by
  unfold MapCall.pageEntry
  split <;> rfl

/-- Every address of a new page carries the domain of its coarse table. -/
theorem MapCall.apply_domain {c : MapCall} {t t' : Table} (h : c.apply t = some t')
    (haligned : c.Aligned) (hkind : c.kind ≠ .sec) {d : BitVec 4}
    {entries : BitVec 8 → SecondLevel}
    (hcoarse : (t (firstIndex c.va)).asCoarse (c.domain.setWidth 4) = some (d, entries))
    {x : BitVec 32} (hx : c.Covers x) : t'.domainAt x = some d := by
  rcases c.apply_cases h with ⟨hsec, _⟩ | ⟨_, d', entries', hcoarse', _, hlg, rfl⟩
  · exact absurd hsec hkind
  · obtain ⟨rfl, rfl⟩ := Prod.mk.inj (Option.some.inj (hcoarse.symm.trans hcoarse'))
    obtain ⟨hidx, hlo, hhi⟩ := (haligned.covers_iff hkind (fun hk => (hlg hk).1) x).mp hx
    rw [Table.domainAt, Table.walk, hidx, Function.update_self, FirstLevel.walk, putLg,
      if_pos ⟨hlo, hhi⟩]
    exact c.pageEntry_walk d x

/-- An update changes the domain of no address that translates. -/
theorem MapCall.apply_keeps_domain {c : MapCall} {t t' : Table} (h : c.apply t = some t')
    {x : BitVec 32} {r : Translation} (hr : t.walk x = some r) :
    t'.domainAt x = some r.domain := by
  by_cases hidx : firstIndex x = firstIndex c.va
  · rcases c.apply_cases h with ⟨_, hfault, _⟩ | ⟨_, d, entries, hcoarse, _, _, rfl⟩
    · rw [Table.walk, hidx, hfault] at hr
      simp [FirstLevel.walk] at hr
    · rw [Table.walk, hidx, FirstLevel.asCoarse_walk hcoarse] at hr
      rw [Table.domainAt, Table.walk, hidx, Function.update_self, FirstLevel.walk, putLg,
        SecondLevel.walk_domain hr]
      split
      · exact c.pageEntry_walk d x
      · rw [hr, Option.map_some, SecondLevel.walk_domain hr]
  · have hsame : t'.walk x = t.walk x := by
      rcases c.apply_cases h with ⟨_, _, rfl⟩ | ⟨_, _, _, _, _, _, rfl⟩
      · rw [Table.walk, Function.update_of_ne hidx, Table.walk]
      · rw [Table.walk, Function.update_of_ne hidx, Table.walk]
    rw [Table.domainAt, hsame, hr, Option.map_some]

/-- The domain that a first-level entry lends to its pages is the one asked for. -/
def MapCall.DomainFree (c : MapCall) (t : Table) : Prop :=
  ∀ d entries, t (firstIndex c.va) = .coarse d entries → d = c.domain.setWidth 4

/-- The coarse table of a page has the domain asked for exactly when the entry was
unused or had that domain. -/
theorem MapCall.asCoarse_domain_iff {c : MapCall} {t : Table} {d : BitVec 4}
    {entries : BitVec 8 → SecondLevel}
    (h : (t (firstIndex c.va)).asCoarse (c.domain.setWidth 4) = some (d, entries)) :
    d = c.domain.setWidth 4 ↔ c.DomainFree t := by
  unfold MapCall.DomainFree
  cases hentry : t (firstIndex c.va) with
  | fault =>
    rw [hentry] at h
    have hd := (Prod.mk.inj (Option.some.inj h)).1
    simp [hd]
  | coarse d' entries' =>
    rw [hentry] at h
    have hd := (Prod.mk.inj (Option.some.inj h)).1
    simp [hd]
  | sec => simp [hentry, FirstLevel.asCoarse] at h
  | reserved => simp [hentry, FirstLevel.asCoarse] at h

/-- Every address of a new page carries the domain asked for exactly when the entry
was unused or had that domain. -/
theorem MapCall.apply_domain_iff {c : MapCall} {t t' : Table} (h : c.apply t = some t')
    (haligned : c.Aligned) (hkind : c.kind ≠ .sec) :
    (∀ x, c.Covers x → t'.domainAt x = some (c.domain.setWidth 4)) ↔ c.DomainFree t := by
  rcases c.apply_cases h with ⟨hsec, _⟩ | ⟨_, d, entries, hcoarse, _⟩
  · exact absurd hsec hkind
  · rw [← MapCall.asCoarse_domain_iff hcoarse]
    constructor
    · intro hall
      have hva : c.Covers c.va := ⟨le_rfl, Nat.lt_add_of_pos_right (by cases c.kind <;> decide)⟩
      have hd := c.apply_domain h haligned hkind hcoarse hva
      exact Option.some.inj (hd.symm.trans (hall c.va hva))
    · rintro rfl x hx
      exact c.apply_domain h haligned hkind hcoarse hx

/-! ## Runs -/

/-- A page mapping with an aligned request for one of the sixteen domains gives the
page that domain and leaves the domains of all other pages of all tables. -/
def World.DomainTakesEffect (w : World) (op : Op) (w' : World) : Prop :=
  ∀ pt c, op = .map pt c → c.kind ≠ .sec → c.Aligned → c.domain.toNat < 16 →
    (∀ x, c.Covers x → domainAt w'.st.mem pt x = some (c.domain.setWidth 4)) ∧
    ∀ pt' ∈ w.tables, ∀ x r, walk w.st.mem pt' x = some r →
      domainAt w'.st.mem pt' x = some r.domain

/-- The first-level entry of a page mapping is unused or has the domain asked for. -/
def Op.DomainFree (w : World) (op : Op) : Prop :=
  ∀ pt c, op = .map pt c → c.kind ≠ .sec → c.Aligned → c.domain.toNat < 16 →
    c.DomainFree (tableOf w.st.mem pt)

/-- A mapping call changes the domain of no address that translates, in any table. -/
theorem World.Step.keeps_domain {w w' : World} (h : w.Inv) {pt : BitVec 32} {c : MapCall}
    (hstep : w.Step (.map pt c) w') {pt' : BitVec 32} (hpt' : pt' ∈ w.tables) {x : BitVec 32}
    {r : Translation} (hr : walk w.st.mem pt' x = some r) :
    domainAt w'.st.mem pt' x = some r.domain := by
  rw [walk_eq_tableOf_walk] at hr
  rw [domainAt_eq]
  by_cases hpt : pt' = pt
  · subst hpt
    exact c.apply_keeps_domain (hstep.map_effect h).1 hr
  · have hop : ∀ c', Op.map pt c ≠ .map pt' c' := by
      intro c' heq
      exact hpt (Op.map.inj heq).1.symm
    rw [hstep.tableOf_eq h hpt' hop, Table.domainAt, hr, Option.map_some]

/-- One operation gives its page the domain asked for exactly when the entry is free for it. -/
theorem World.Step.domain_iff {w w' : World} {op : Op} (h : w.Inv) (hstep : w.Step op w') :
    w.DomainTakesEffect op w' ↔ op.DomainFree w := by
  constructor
  · rintro heffect pt c rfl hkind hc hd
    have hnew := (heffect pt c rfl hkind hc hd).1
    simp only [domainAt_eq] at hnew
    exact (c.apply_domain_iff (hstep.map_effect h).1 hc hkind).mp hnew
  · rintro hfree pt c rfl hkind hc hd
    refine ⟨?_, fun pt' hpt' x r hr => hstep.keeps_domain h hpt' hr⟩
    simp only [domainAt_eq]
    exact (c.apply_domain_iff (hstep.map_effect h).1 hc hkind).mpr (hfree pt c rfl hkind hc hd)

/-- In a run, every page mapping gives its page the domain asked for exactly when each
finds its first-level entry unused or with that domain. -/
theorem World.domainTakesEffect_iff {w : World} (hw : w.Init) (ops : List Op) :
    EveryStep World.Step World.DomainTakesEffect w ops ↔
      EveryStep World.Step (fun w op _ => op.DomainFree w) w ops :=
  everyStep_congr (fun _ _ _ hreach hstep => hstep.domain_iff (World.reachable_inv hreach))
    (Reachable.init hw) ops

/-- The equivalence for two pages in one megabyte. -/
theorem World.domainTakesEffect_iff_start :
    let ops : List Op := [.ptAlloc 4096, .map 0x140000#32 ⟨.sm, 0x100000#32, 0x100000#32, 1, 0⟩,
      .map 0x140000#32 ⟨.sm, 0x101000#32, 0x101000#32, 2, 0⟩]
    EveryStep World.Step World.DomainTakesEffect (.start 0x140000#32) ops ↔
      EveryStep World.Step (fun w op _ => op.DomainFree w) (.start 0x140000#32) ops :=
  World.domainTakesEffect_iff (World.start_init _) _

/-- The second page of a megabyte asks for domain 2 and gets domain 1. -/
theorem World.second_page_keeps_domain : ∃ w w' : World, Reachable World.Step World.Init w ∧
    w.Step (.map 0x140000#32 ⟨.sm, 0x101000#32, 0x101000#32, 2, 0⟩) w' ∧
    domainAt w'.st.mem 0x140000#32 0x101000#32 = some 1 := by
  let first : MapCall := ⟨.sm, 0x100000#32, 0x100000#32, 1, 0⟩
  let second : MapCall := ⟨.sm, 0x101000#32, 0x101000#32, 2, 0⟩
  obtain ⟨w, hw, htables, htable⟩ :=
    World.exists_first_page (c := first) (by decide) (by decide)
  have hinv := World.reachable_inv (World.reachable_of_aligned hw)
  have hentry : tableOf w.st.mem 0x140000#32 (firstIndex second.va) =
      .coarse 1 (putLg (fun _ => .fault) (secondIndex first.va) 1 first.pageEntry.1) := by
    rcases first.apply_cases htable with ⟨hsec, _⟩ | ⟨_, d, entries, hcoarse, _, _, heq⟩
    · exact absurd hsec (by decide)
    · obtain ⟨rfl, rfl⟩ := Prod.mk.inj (Option.some.inj hcoarse)
      have hidx : firstIndex second.va = firstIndex first.va := by decide
      rw [heq, hidx, Function.update_self]
      rfl
  have hsecond : second.Aligned := by decide
  obtain ⟨t, ht⟩ := Option.isSome_iff_exists.mp
    (hsecond.apply_isSome_sm rfl hentry (by rw [putLg, if_neg (by decide)]; rfl))
  obtain ⟨w', hstep, htable'⟩ := hinv.map_step (by simp [htables])
    (MapCall.heapEnd_lt_of_used (by rw [hentry]; simp)) ht
  refine ⟨w, w', World.reachable_of_aligned hw, hstep, ?_⟩
  rw [domainAt_eq, htable']
  exact second.apply_domain ht hsecond (by decide) (by rw [hentry]; rfl)
    ⟨le_rfl, by decide⟩

end RpiVm
