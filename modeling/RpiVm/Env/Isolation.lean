import RpiVm.Lib.Run
import RpiVm.Env.Kernel

/-!
# Isolation of environments

Three pools hand out slots, domains and ASIDs. For each, the list of free
identifiers together with those that live environments hold is a permutation of
the initial range; `env_alloc` and `env_free` keep this, so that no identifier
is held twice.
-/

namespace RpiVm

open CLib Transition

/-! ## Ranges of identifiers -/

/-- The `n` integers from `lb` on. -/
def idRange (lb n : ℕ) : List (BitVec 32) := (List.range' lb n).map (BitVec.ofNat 32)

/-- Membership in a range that does not wrap around. -/
theorem mem_idRange {lb n : ℕ} (hn : lb + n ≤ 2 ^ 32) {x : BitVec 32} :
    x ∈ idRange lb n ↔ lb ≤ x.toNat ∧ x.toNat < lb + n := by
  simp only [idRange, List.mem_map, List.mem_range'_1]
  constructor
  · rintro ⟨i, hi, rfl⟩
    rw [BitVec.toNat_ofNat, Nat.mod_eq_of_lt (by omega)]
    exact hi
  · intro h
    exact ⟨x.toNat, h, by simp⟩

/-- A range that does not wrap around has no repetition. -/
theorem idRange_nodup {lb n : ℕ} (hn : lb + n ≤ 2 ^ 32) : (idRange lb n).Nodup := by
  refine List.Nodup.map_on ?_ List.nodup_range'
  intro i hi j hj heq
  rw [List.mem_range'_1] at hi hj
  have htoNat := congrArg BitVec.toNat heq
  rw [BitVec.toNat_ofNat, BitVec.toNat_ofNat, Nat.mod_eq_of_lt (by omega),
    Nat.mod_eq_of_lt (by omega)] at htoNat
  exact htoNat

/-! ## Pools -/

/-- A vector in a world and the identifiers taken from it make up a range. -/
structure Pool (b : Bvec) (w : World) (ids held : List (BitVec 32)) : Prop where
  /-- The free list and the identifiers held are the range. -/
  perm : ∃ l, b.Holds w.st.mem l ∧ (l ++ held).Perm ids
  /-- The array has room for the whole range. -/
  nTot_eq : b.nTot.toNat = ids.length
  /-- The array lies in a block of its own. -/
  block : ∃ r, (Owner.client, r) ∈ w.allocs ∧ b.region.Within r

variable {b : Bvec} {w w' : World} {ids held : List (BitVec 32)}

/-- A pool depends only on its array. -/
theorem Pool.congr (h : Pool b w ids held) (hagree : Mem.AgreeOn w.st.mem w'.st.mem b.region)
    (hallocs : ∀ p ∈ w.allocs, p ∈ w'.allocs) : Pool b w' ids held := by
  obtain ⟨⟨l, hl, hperm⟩, hn, r, hr, hin⟩ := h
  exact ⟨⟨l, hl.congr hagree, hperm⟩, hn, r, hallocs _ hr, hin⟩

/-- The order of the identifiers held does not matter. -/
theorem Pool.perm_held (h : Pool b w ids held) {held' : List (BitVec 32)}
    (hheld : held.Perm held') : Pool b w ids held' := by
  obtain ⟨⟨l, hl, hperm⟩, hn, hblock⟩ := h
  exact ⟨⟨l, hl, (hheld.symm.append_left l).trans hperm⟩, hn, hblock⟩

/-- The array of a pool lies below the end of the heap. -/
theorem Pool.region_le (h : Pool b w ids held) (hinv : w.Inv) :
    b.region.base + b.region.size ≤ w.st.heap.toNat := by
  obtain ⟨_, _, r, hr, hin⟩ := h
  have hle := hinv.block_le _ hr
  unfold Region.Within at hin
  simp only at hle
  omega

/-- While not all identifiers are held, a pool hands out one that is not. -/
theorem Pool.alloc (h : Pool b w ids held) (hnodup : ids.Nodup)
    (hlen : held.length < ids.length) :
    ∃ x b', bvecAlloc w.st b = .ok (x, b') ∧ b'.region = b.region ∧ x ∈ ids ∧ x ∉ held ∧
      Pool b' w ids (x :: held) := by
  obtain ⟨⟨l, hl, hperm⟩, hn, r, hr, hin⟩ := h
  have hsum := hperm.length_eq
  rw [List.length_append] at hsum
  rcases List.eq_nil_or_concat l with rfl | ⟨l', x, rfl⟩
  · rw [List.length_nil] at hsum
    omega
  · rw [List.concat_eq_append] at hl hperm
    obtain ⟨b', hok, hl', hregion⟩ := bvecAlloc_concat hl
    rw [List.append_assoc, List.singleton_append] at hperm
    have hnd := hperm.nodup_iff.mpr hnodup
    have hx : x ∉ held := (List.nodup_cons.mp (List.nodup_append.mp hnd).2.1).1
    have hnTot : b'.nTot.toNat = b.nTot.toNat := by
      have := congrArg Region.size hregion
      simp only [Bvec.region] at this
      omega
    exact ⟨x, b', hok, hregion, hperm.subset (by simp), hx, ⟨l', hl', hperm⟩, hnTot.trans hn, r, hr,
      by rw [hregion]; exact hin⟩

/-- A pool takes back an identifier that is held. -/
theorem Pool.free (h : Pool b w ids held) (hinv : w.Inv) (hnodup : ids.Nodup) {x : BitVec 32}
    (hx : x ∈ held) :
    ∃ b' s, bvecFree w.st b x = .ok (b', s) ∧ b'.region = b.region ∧
      World.Inv { w with st := s } ∧ s.heap = w.st.heap ∧
      (∀ r, b.region.Disjoint r → Mem.AgreeOn s.mem w.st.mem r) ∧
      (∀ pt ∈ w.tables, tableOf s.mem pt = tableOf w.st.mem pt) ∧
      Pool b' { w with st := s } ids (held.erase x) := by
  obtain ⟨⟨l, hl, hperm⟩, hn, r, hr, hin⟩ := h
  have hnd := hperm.nodup_iff.mpr hnodup
  have hxl : x ∉ l := fun hmem => (List.nodup_append.mp hnd).2.2 x hmem x hx rfl
  have hroom : l.length < b.nTot.toNat := by
    have hsum := hperm.length_eq
    have hpos := List.length_pos_of_mem hx
    rw [List.length_append] at hsum
    omega
  obtain ⟨b', hok, hl', helm, htot⟩ := bvecFree_concat hl hxl hroom
  have hregion : b'.region = b.region := by rw [Bvec.region, helm, htot, Bvec.region]
  have hword := hl.wordAt_within hroom
  have hblock : (Mem.wordAt (b.elmAddr l.length)).Within r := by
    unfold Region.Within at *
    omega
  refine ⟨b', _, hok, hregion, hinv.clientStore hr hblock, rfl, ?_, ?_, ⟨_, hl', ?_⟩, ?_, r, hr, ?_⟩
  · intro r' hr'
    exact Mem.store32_agreeOn (hl.elmAddr_add_le hroom) (hr'.mono hword ⟨le_rfl, le_rfl⟩)
  · intro pt hpt
    exact (tableOf_congr (hinv.layout pt hpt).aligned fun _ hf =>
      (hinv.clientStore_agreeOn hr hblock hpt hf).symm).symm
  · rw [List.append_assoc, List.singleton_append]
    exact ((List.perm_cons_erase hx).symm.append_left l).trans hperm
  · rw [htot]
    exact hn
  · rw [hregion]
    exact hin

/-! ## The invariant -/

/-- The identifiers of the three pools. -/
def domIds : List (BitVec 32) := idRange 1 15
def asidIds : List (BitVec 32) := idRange 1 63
def envIds : List (BitVec 32) := idRange 0 8

theorem domIds_nodup : domIds.Nodup := idRange_nodup (by decide)
theorem asidIds_nodup : asidIds.Nodup := idRange_nodup (by decide)
theorem envIds_nodup : envIds.Nodup := idRange_nodup (by decide)

/-- The memory that a kernel manages, with a record of tables and blocks. -/
def Kernel.world (k : Kernel) (tables : List (BitVec 32)) (allocs : List (Owner × Region)) :
    World := ⟨k.st, tables, allocs⟩

/-- The kernel and the live environments, given a record of tables and blocks. -/
structure Kernel.Inv (k : Kernel) (live tables : List (BitVec 32))
    (allocs : List (Owner × Region)) : Prop where
  /-- The heap and the tables. -/
  world : (k.world tables allocs).Inv
  /-- The pool of domains. -/
  dom : Pool k.domV (k.world tables allocs) domIds (live.map fun e => (k.envs e).domain)
  /-- The pool of ASIDs. -/
  asid : Pool k.asidV (k.world tables allocs) asidIds (live.map fun e => (k.envs e).asid)
  /-- The pool of slots. -/
  env : Pool k.envV (k.world tables allocs) envIds live
  /-- The arrays are separate. -/
  dom_asid : k.domV.region.Disjoint k.asidV.region
  /-- The arrays are separate. -/
  dom_env : k.domV.region.Disjoint k.envV.region
  /-- The arrays are separate. -/
  asid_env : k.asidV.region.Disjoint k.envV.region
  /-- Live environments have tables. -/
  pt_mem : ∀ e ∈ live, (k.envs e).pt ∈ tables
  /-- Live environments have tables of their own. -/
  pt_nodup : (live.map fun e => (k.envs e).pt).Nodup
  /-- The domain register of a live environment. -/
  domainReg_eq : ∀ e ∈ live, (k.envs e).domainReg = 0b01#32 <<< ((k.envs e).domain * 2)

/-- `Kernel.Inv` for some record. -/
def Kernel.Ok (k : Kernel) (live : List (BitVec 32)) : Prop :=
  ∃ tables allocs, k.Inv live tables allocs

variable {k k' : Kernel} {live tables : List (BitVec 32)} {allocs : List (Owner × Region)}

/-- Slots are not held twice. -/
theorem Kernel.Inv.live_nodup (h : k.Inv live tables allocs) : live.Nodup := by
  obtain ⟨⟨l, _, hperm⟩, _, _⟩ := h.env
  exact (List.nodup_append.mp (hperm.nodup_iff.mpr envIds_nodup)).2.1

/-- Slots lie in the array `envs`. -/
theorem Kernel.Inv.live_lt (h : k.Inv live tables allocs) {e : BitVec 32} (he : e ∈ live) :
    e.toNat < 8 := by
  obtain ⟨⟨l, _, hperm⟩, _, _⟩ := h.env
  have hmem : e ∈ envIds := hperm.subset (List.mem_append_right l he)
  have hrange := (mem_idRange (by decide)).mp hmem
  omega

/-- Filling a slot that is not live leaves what live environments have. -/
theorem map_update_of_not_mem {α : Type} {envs : BitVec 32 → Env} {e : BitVec 32} {v : Env}
    (he : e ∉ live) (f : Env → α) :
    (live.map fun e' => f (Function.update envs e v e')) = live.map fun e' => f (envs e') := by
  apply List.map_congr_left
  intro e' he'
  have hne : e' ≠ e := by
    rintro rfl
    exact he he'
  rw [Function.update_of_ne hne]

/-! ## What the functions do -/

/-- The end of the heap after `env_init`. -/
def envInitEnd (h : ℕ) : ℕ := kmallocEnd (kmallocEnd (kmallocEnd h (4 * 15)) (4 * 63)) (4 * 8)

/-- `bvec_mk` makes a pool above all blocks there are. -/
theorem Pool.make (hinv : w.Inv) (lb ub : BitVec 32) (n : ℕ) (hlt : lb < ub)
    (hn : (ub - lb).toNat = n) (hids : (initialIds ub n).Perm ids) (hsmall : n < 2 ^ 30)
    (hfit : kmallocEnd w.st.heap.toNat (4 * n) < 2 ^ 32) :
    ∃ b s allocs, bvecMk w.st lb ub = .ok (b, s) ∧ World.Inv ⟨s, w.tables, allocs⟩ ∧
      (∀ p ∈ w.allocs, p ∈ allocs) ∧ Pool b ⟨s, w.tables, allocs⟩ ids [] ∧
      s.heap.toNat = kmallocEnd w.st.heap.toNat (4 * n) ∧ w.st.heap.toNat ≤ b.region.base ∧
      ∀ r, r.base + r.size ≤ w.st.heap.toNat → Mem.AgreeOn w.st.mem s.mem r := by
  subst hn
  obtain ⟨b, s, hok, hinv', hb, helm, htot, hheap, _, hframe⟩ := bvecMk_holds hinv hlt hsmall hfit
  have hround : 4 * (ub - lb).toNat ≤ roundUpNat (4 * (ub - lb).toNat) 8 :=
    le_roundUpNat (by decide)
  refine ⟨b, s, _, hok, hinv', fun p hp => List.mem_cons_of_mem _ hp, ⟨⟨_, hb, ?_⟩, ?_, _,
    List.mem_cons_self, ?_⟩, hheap, ?_, fun r hr => (hframe r hr).symm⟩
  · rw [List.append_nil]
    exact hids
  · rw [htot, ← hids.length_eq, initialIds, List.length_map, List.length_range]
  · simp only [Bvec.region, Region.Within, htot]
    omega
  · rw [Bvec.region, helm]

/-- `env_init` returns and fills the pools. -/
theorem envInit_ok {k : Kernel} (hblocks : k.st.blocks = []) (hstores : k.st.stores = [])
    (hfit : envInitEnd k.st.heap.toNat < 2 ^ 32) :
    ∃ k', envInit k = .ok k' ∧ (∃ allocs, k'.Inv [] [] allocs) ∧ k'.cp15 = k.cp15 ∧
      k'.st.heap.toNat = envInitEnd k.st.heap.toNat ∧ k'.pidCnt = k.pidCnt ∧
      k'.currEnv = k.currEnv := by
  have hinv : World.Inv ⟨k.st, [], []⟩ := World.Init.inv ⟨rfl, rfl, hblocks, hstores⟩
  unfold envInitEnd at hfit
  have hle₂ := Nat.le_add_right (kmallocEnd (kmallocEnd k.st.heap.toNat (4 * 15)) (4 * 63))
    (roundUpNat (4 * 8) 8)
  have hle₁ := Nat.le_add_right (kmallocEnd k.st.heap.toNat (4 * 15)) (roundUpNat (4 * 63) 8)
  have hle₀ := Nat.le_add_right k.st.heap.toNat (roundUpNat (4 * 15) 8)
  obtain ⟨b₁, s₁, allocs₁, hok₁, hinv₁, _, hpool₁, hheap₁, hbase₁, _⟩ :=
    Pool.make hinv 1 16 15 (by decide) (by decide)
      (show (initialIds 16 15).Perm domIds by decide) (by decide)
      ((hle₁.trans hle₂).trans_lt hfit)
  obtain ⟨b₂, s₂, allocs₂, hok₂, hinv₂, hsub₂, hpool₂, hheap₂, hbase₂, hframe₂⟩ :=
    Pool.make hinv₁ 1 64 63 (by decide) (by decide)
      (show (initialIds 64 63).Perm asidIds by decide) (by decide)
      (by rw [hheap₁]; exact hle₂.trans_lt hfit)
  obtain ⟨b₃, s₃, allocs₃, hok₃, hinv₃, hsub₃, hpool₃, hheap₃, hbase₃, hframe₃⟩ :=
    Pool.make hinv₂ 0 maxEnv 8 (by decide) (by decide)
      (show (initialIds maxEnv 8).Perm envIds by decide) (by decide)
      (by rw [hheap₂, hheap₁]; exact hfit)
  have hle12 := hpool₁.region_le hinv₁
  have hle23 := hpool₂.region_le hinv₂
  have hheap12 : s₁.heap.toNat ≤ s₂.heap.toNat := hheap₂ ▸ Nat.le_add_right _ _
  have hpool₁₂ : Pool b₁ ⟨s₂, [], allocs₂⟩ domIds [] := hpool₁.congr (hframe₂ _ hle12) hsub₂
  have hpool₁₃ : Pool b₁ ⟨s₃, [], allocs₃⟩ domIds [] :=
    hpool₁₂.congr (hframe₃ _ (hle12.trans hheap12)) hsub₃
  have hpool₂₃ : Pool b₂ ⟨s₃, [], allocs₃⟩ asidIds [] := hpool₂.congr (hframe₃ _ hle23) hsub₃
  refine ⟨{ k with st := s₃, domV := b₁, asidV := b₂, envV := b₃ }, ?_, ⟨allocs₃, ?_⟩, rfl,
    ?_, rfl, rfl⟩
  · exact bind_eq_ok.mpr ⟨_, hok₁, bind_eq_ok.mpr ⟨_, hok₂, bind_eq_ok.mpr ⟨_, hok₃, rfl⟩⟩⟩
  · exact ⟨hinv₃, hpool₁₃, hpool₂₃, hpool₃, Or.inl (hle12.trans hbase₂),
      Or.inl ((hle12.trans hheap12).trans hbase₃), Or.inl (hle23.trans hbase₃), by simp, by simp,
      by simp⟩
  · rw [hheap₃, hheap₂, hheap₁, envInitEnd]

/-- While a slot is free and the heap has room, `env_alloc` returns a slot that
is not live and keeps the invariant. -/
theorem Kernel.Inv.envAlloc (h : k.Inv live tables allocs) (hlen : live.length < 8)
    (hfit : kmallocAlignedEnd k.st.heap.toNat 16384 14 < 2 ^ 32) :
    ∃ e k' pt, RpiVm.envAlloc k = .ok (e, k') ∧ e ∉ live ∧ pt ∉ tables ∧
      k'.Inv (e :: live) (pt :: tables) ((Owner.table, firstRegion pt) :: allocs) ∧
      (k'.envs e).pt = pt ∧ (k'.envs e).domain ∈ domIds ∧ (k'.envs e).asid ∈ asidIds ∧
      (k'.envs e).pid = k.pidCnt + 1 ∧ (∀ e' ∈ live, k'.envs e' = k.envs e') ∧
      k'.cp15 = k.cp15 ∧ k'.pidCnt = k.pidCnt + 1 ∧
      pt.toNat = roundUpNat k.st.heap.toNat 16384 ∧ k'.st.heap.toNat = pt.toNat + 16384 ∧
      tableOf k'.st.mem pt = Table.empty ∧
      ∀ pt' ∈ tables, tableOf k'.st.mem pt' = tableOf k.st.mem pt' := by
  obtain ⟨e, envV, hokE, hregE, heids, hefree, hpoolE⟩ :=
    h.env.alloc envIds_nodup (by rw [envIds, idRange]; simpa using hlen)
  obtain ⟨pt, s, hokP, halloc, hpt, hempty, hnew, hinv⟩ := h.world.mmuPtAlloc 4096 hfit
  -- the allocation is above the arrays of the three pools
  have hkeep : ∀ {b : Bvec} {ids held : List (BitVec 32)}, Pool b (k.world tables allocs) ids held →
      Pool b ⟨s, pt :: tables, (Owner.table, firstRegion pt) :: allocs⟩ ids held := by
    intro b ids held hpool
    have hle := hpool.region_le h.world
    have hbase := halloc.le_base
    exact hpool.congr (halloc.frame _ (Or.inr (hle.trans hbase))).symm
      fun p hp => List.mem_cons_of_mem _ hp
  obtain ⟨domain, domV, hokD, hregD, hdids, hdfree, hpoolD⟩ :=
    (hkeep h.dom).alloc domIds_nodup (by rw [domIds, idRange]; simp; omega)
  obtain ⟨asid, asidV, hokA, hregA, haids, hafree, hpoolA⟩ :=
    (hkeep h.asid).alloc asidIds_nodup (by rw [asidIds, idRange]; simp; omega)
  have hother : ∀ e' ∈ live, e' ≠ e := by
    rintro e' he' rfl
    exact hefree he'
  refine ⟨e, _, pt, bind_eq_ok.mpr ⟨_, hokE, bind_eq_ok.mpr ⟨_, hokP, bind_eq_ok.mpr ⟨_, hokD,
    bind_eq_ok.mpr ⟨_, hokA, rfl⟩⟩⟩⟩, hefree, hnew, ⟨hinv, ?_, ?_, hkeep hpoolE, ?_, ?_, ?_, ?_, ?_,
    ?_⟩, ?_, ?_, ?_, ?_, ?_, rfl, rfl, hpt, halloc.heap_eq, hempty, ?_⟩
  · rw [List.map_cons, map_update_of_not_mem hefree fun env => env.domain]
    simp only [Function.update_self]
    exact hpoolD
  · rw [List.map_cons, map_update_of_not_mem hefree fun env => env.asid]
    simp only [Function.update_self]
    exact hpoolA
  · simp only [hregD, hregA]
    exact h.dom_asid
  · simp only [hregD, hregE]
    exact h.dom_env
  · simp only [hregA, hregE]
    exact h.asid_env
  · intro e' he'
    rcases List.mem_cons.mp he' with rfl | he'
    · simp
    · simp only [Function.update_of_ne (hother e' he')]
      exact List.mem_cons_of_mem _ (h.pt_mem e' he')
  · rw [List.map_cons, map_update_of_not_mem hefree fun env => env.pt]
    simp only [Function.update_self]
    refine List.nodup_cons.mpr ⟨?_, h.pt_nodup⟩
    intro hmem
    obtain ⟨e', he', heq⟩ := List.mem_map.mp hmem
    exact hnew (heq ▸ h.pt_mem e' he')
  · intro e' he'
    rcases List.mem_cons.mp he' with rfl | he'
    · simp
    · simp only [Function.update_of_ne (hother e' he')]
      exact h.domainReg_eq e' he'
  · simp
  · simpa using hdids
  · simpa using haids
  · simp
  · intro e' he'
    simp only [Function.update_of_ne (hother e' he')]
  · intro pt' hpt'
    exact ((h.world.layout pt' hpt').allocated halloc).2

/-- Removing an environment removes what it holds. -/
theorem perm_map_erase {e : BitVec 32} (he : e ∈ live) (f : BitVec 32 → BitVec 32) :
    ((live.map f).erase (f e)).Perm ((live.erase e).map f) := by
  have hperm := ((List.perm_cons_erase he).map f).erase (f e)
  rwa [List.map_cons, List.erase_cons_head] at hperm

/-- `env_free` of a live environment returns and keeps the invariant. -/
theorem Kernel.Inv.envFree (h : k.Inv live tables allocs) {e : BitVec 32} (he : e ∈ live) :
    ∃ k', RpiVm.envFree k e = .ok k' ∧ k'.Inv (live.erase e) tables allocs ∧ k'.envs = k.envs ∧
      k'.cp15 = k.cp15 ∧ k'.pidCnt = k.pidCnt ∧ k'.st.heap = k.st.heap ∧
      ∀ pt ∈ tables, tableOf k'.st.mem pt = tableOf k.st.mem pt := by
  have hlt : decide (e < maxEnv) = true := decide_eq_true (lt_maxEnv.mpr (h.live_lt he))
  obtain ⟨domV, s₁, hok₁, hreg₁, hinv₁, hheap₁, hframe₁, htables₁, hpool₁⟩ :=
    h.dom.free h.world domIds_nodup (List.mem_map_of_mem he)
  have hasid₁ : Pool k.asidV ⟨s₁, tables, allocs⟩ asidIds (live.map fun e => (k.envs e).asid) :=
    h.asid.congr (hframe₁ _ h.dom_asid).symm fun _ hp => hp
  have henv₁ : Pool k.envV ⟨s₁, tables, allocs⟩ envIds live :=
    h.env.congr (hframe₁ _ h.dom_env).symm fun _ hp => hp
  obtain ⟨asidV, s₂, hok₂, hreg₂, hinv₂, hheap₂, hframe₂, htables₂, hpool₂⟩ :=
    hasid₁.free hinv₁ asidIds_nodup (List.mem_map_of_mem he)
  have hdom₂ : Pool domV ⟨s₂, tables, allocs⟩ domIds
      ((live.map fun e => (k.envs e).domain).erase (k.envs e).domain) :=
    hpool₁.congr (hframe₂ _ (hreg₁ ▸ h.dom_asid.symm)).symm fun _ hp => hp
  have henv₂ : Pool k.envV ⟨s₂, tables, allocs⟩ envIds live :=
    henv₁.congr (hframe₂ _ h.asid_env).symm fun _ hp => hp
  obtain ⟨envV, s₃, hok₃, hreg₃, hinv₃, hheap₃, hframe₃, htables₃, hpool₃⟩ :=
    henv₂.free hinv₂ envIds_nodup he
  have hdom₃ : Pool domV ⟨s₃, tables, allocs⟩ domIds
      ((live.map fun e => (k.envs e).domain).erase (k.envs e).domain) :=
    hdom₂.congr (hframe₃ _ (hreg₁ ▸ h.dom_env.symm)).symm fun _ hp => hp
  have hasid₃ : Pool asidV ⟨s₃, tables, allocs⟩ asidIds
      ((live.map fun e => (k.envs e).asid).erase (k.envs e).asid) :=
    hpool₂.congr (hframe₃ _ (hreg₂ ▸ h.asid_env.symm)).symm fun _ hp => hp
  have hmem : ∀ e' ∈ live.erase e, e' ∈ live := fun e' he' => List.mem_of_mem_erase he'
  refine ⟨_, bind_eq_ok.mpr ⟨(), demand_eq_ok.mpr hlt, bind_eq_ok.mpr ⟨_, hok₁, bind_eq_ok.mpr
    ⟨_, hok₂, bind_eq_ok.mpr ⟨_, hok₃, rfl⟩⟩⟩⟩, ⟨hinv₃, ?_, ?_, hpool₃, ?_, ?_, ?_, ?_, ?_, ?_⟩,
    rfl, rfl, rfl, ?_, ?_⟩
  · exact hdom₃.perm_held (perm_map_erase he fun e => (k.envs e).domain)
  · exact hasid₃.perm_held (perm_map_erase he fun e => (k.envs e).asid)
  · simp only [hreg₁, hreg₂]
    exact h.dom_asid
  · simp only [hreg₁, hreg₃]
    exact h.dom_env
  · simp only [hreg₂, hreg₃]
    exact h.asid_env
  · exact fun e' he' => h.pt_mem e' (hmem e' he')
  · exact h.pt_nodup.sublist (List.erase_sublist.map _)
  · exact fun e' he' => h.domainReg_eq e' (hmem e' he')
  · exact (hheap₃.trans hheap₂).trans hheap₁
  · intro pt hpt
    exact ((htables₃ pt hpt).trans (htables₂ pt hpt)).trans (htables₁ pt hpt)

/-! ## Runs -/

/-- A kernel with a record of the environments that are live. -/
structure EnvRun where
  /-- The kernel. -/
  k : Kernel
  /-- The live environments, latest first. -/
  live : List (BitVec 32)

/-- The operations of a run. -/
inductive EnvOp where
  /-- `env_alloc()`. -/
  | alloc
  /-- `env_free(e)`. -/
  | free (e : BitVec 32)

/-- One call: at most eight environments are live, the heap stays below `2 ^ 32`, and
only live environments are freed. -/
def EnvRun.Step (s : EnvRun) (op : EnvOp) (s' : EnvRun) : Prop :=
  match op with
  | .alloc => s.live.length < 8 ∧ kmallocAlignedEnd s.k.st.heap.toNat 16384 14 < 2 ^ 32 ∧
      ∃ e, envAlloc s.k = .ok (e, s'.k) ∧ s'.live = e :: s.live
  | .free e => e ∈ s.live ∧ envFree s.k e = .ok s'.k ∧ s'.live = s.live.erase e

/-- A machine on which `env_init` can run: nothing else is assumed of memory, the
registers or the static variables. -/
def Kernel.Bootable (k : Kernel) : Prop :=
  k.st.blocks = [] ∧ k.st.stores = [] ∧ envInitEnd k.st.heap.toNat < 2 ^ 32

/-- Runs start after `env_init`. -/
def EnvRun.Init (s : EnvRun) : Prop :=
  s.live = [] ∧ ∃ k₀, Kernel.Bootable k₀ ∧ envInit k₀ = .ok s.k

/-- A machine with zeroed memory and registers. -/
def Kernel.start (heap : BitVec 32) : Kernel where
  st := ⟨fun _ => 0, heap, heap, [], []⟩
  cp15 := ⟨0, 0, 0, 0, 0, []⟩
  domV := ⟨0, 0, 0⟩
  asidV := ⟨0, 0, 0⟩
  envV := ⟨0, 0, 0⟩
  pidCnt := 0
  envs := fun _ => ⟨0, 0, 0, 0, 0⟩
  currEnv := none

/-- What isolates the live environments from each other. -/
structure EnvRun.Isolated (s : EnvRun) : Prop where
  /-- Live environments have distinct slots. -/
  slots_nodup : s.live.Nodup
  /-- Slots lie in `envs[0..8)`. -/
  slots_lt : ∀ e ∈ s.live, e.toNat < 8
  /-- Domains are distinct. -/
  domains_nodup : (s.live.map fun e => (s.k.envs e).domain).Nodup
  /-- Domains lie in `1..15`. -/
  domains_range : ∀ e ∈ s.live, 1 ≤ (s.k.envs e).domain.toNat ∧ (s.k.envs e).domain.toNat ≤ 15
  /-- ASIDs are distinct. -/
  asids_nodup : (s.live.map fun e => (s.k.envs e).asid).Nodup
  /-- ASIDs lie in `1..63`. -/
  asids_range : ∀ e ∈ s.live, 1 ≤ (s.k.envs e).asid.toNat ∧ (s.k.envs e).asid.toNat ≤ 63
  /-- The domain register gives client access to one's own domain and none to others. -/
  domainReg_field : ∀ e ∈ s.live, ∀ d < 16, (s.k.envs e).domainReg.extractLsb' (2 * d) 2 =
    if d = (s.k.envs e).domain.toNat then 0b01#2 else 0b00#2
  /-- Free and held domains make up `1..15`. -/
  domains_perm : (s.k.domV.contents s.k.st.mem ++ s.live.map fun e => (s.k.envs e).domain).Perm
    (idRange 1 15)
  /-- Free and held ASIDs make up `1..63`. -/
  asids_perm : (s.k.asidV.contents s.k.st.mem ++ s.live.map fun e => (s.k.envs e).asid).Perm
    (idRange 1 63)
  /-- Free and held slots make up `0..7`. -/
  slots_perm : (s.k.envV.contents s.k.st.mem ++ s.live).Perm (idRange 0 8)

/-- A pool's free list and held identifiers, read off its array. -/
theorem Pool.contents_perm (h : Pool b w ids held) : (b.contents w.st.mem ++ held).Perm ids := by
  obtain ⟨⟨l, hl, hperm⟩, _, _⟩ := h
  rw [hl.contents_eq]
  exact hperm

/-- Identifiers that are held come from the range and are distinct. -/
theorem Pool.held_subset (h : Pool b w ids held) (hnodup : ids.Nodup) :
    held.Nodup ∧ ∀ x ∈ held, x ∈ ids := by
  obtain ⟨⟨l, _, hperm⟩, _, _⟩ := h
  exact ⟨(List.nodup_append.mp (hperm.nodup_iff.mpr hnodup)).2.1,
    fun x hx => hperm.subset (List.mem_append_right l hx)⟩

/-- The fields of a domain register with client access to one domain. -/
theorem domainReg_extractLsb' {domain : BitVec 32} (hdomain : domain.toNat < 16) {d : ℕ}
    (hd : d < 16) : (0b01#32 <<< (domain * 2)).extractLsb' (2 * d) 2 =
      if d = domain.toNat then 0b01#2 else 0b00#2 := by
  have hall : ∀ i j : Fin 16, (0b01#32 <<< (BitVec.ofNat 32 i * 2)).extractLsb' (2 * j) 2 =
      if (j : ℕ) = i then 0b01#2 else 0b00#2 := by decide
  have h := hall ⟨domain.toNat, hdomain⟩ ⟨d, hd⟩
  rwa [BitVec.ofNat_toNat, BitVec.setWidth_eq] at h

/-- The invariant states the isolation. -/
theorem Kernel.Inv.isolated (h : k.Inv live tables allocs) : EnvRun.Isolated ⟨k, live⟩ := by
  obtain ⟨hdoms, hdom⟩ := h.dom.held_subset domIds_nodup
  obtain ⟨hasids, hasid⟩ := h.asid.held_subset asidIds_nodup
  have hrange : ∀ e ∈ live, 1 ≤ (k.envs e).domain.toNat ∧ (k.envs e).domain.toNat ≤ 15 := by
    intro e he
    have hmem := (mem_idRange (by decide)).mp (hdom _ (List.mem_map_of_mem he))
    omega
  refine ⟨h.live_nodup, fun e he => h.live_lt he, hdoms, hrange, hasids, ?_, ?_,
    h.dom.contents_perm, h.asid.contents_perm, h.env.contents_perm⟩
  · intro e he
    have hmem := (mem_idRange (by decide)).mp (hasid _ (List.mem_map_of_mem he))
    simp only at hmem ⊢
    omega
  · intro e he d hd
    have hdomain := hrange e he
    simp only [h.domainReg_eq e he]
    exact domainReg_extractLsb' (by omega) hd

/-- One call keeps the invariant. -/
theorem EnvRun.Step.ok {s s' : EnvRun} {op : EnvOp} (h : s.k.Ok s.live) (hstep : s.Step op s') :
    s'.k.Ok s'.live := by
  obtain ⟨tables, allocs, hinv⟩ := h
  cases op with
  | alloc =>
    obtain ⟨hlen, hfit, e, hok, hlive⟩ := hstep
    obtain ⟨e', k', pt, hok', _, _, hinv', _⟩ := hinv.envAlloc hlen hfit
    obtain ⟨rfl, rfl⟩ := Prod.mk.inj (Except.ok.inj (hok.symm.trans hok'))
    rw [hlive]
    exact ⟨_, _, hinv'⟩
  | free e =>
    obtain ⟨he, hok, hlive⟩ := hstep
    obtain ⟨k', hok', hinv', _⟩ := hinv.envFree he
    obtain rfl : s'.k = k' := Except.ok.inj (hok.symm.trans hok')
    rw [hlive]
    exact ⟨_, _, hinv'⟩

/-- The invariant holds in every reachable state. -/
theorem EnvRun.reachable_ok {s : EnvRun} (hs : Reachable EnvRun.Step EnvRun.Init s) :
    s.k.Ok s.live := by
  refine hs.invariant (I := fun s => s.k.Ok s.live) ?_ fun _ _ _ h hstep => hstep.ok h
  intro s hinit
  obtain ⟨hlive, k₀, ⟨hblocks, hstores, hfit⟩, hok⟩ := hinit
  obtain ⟨k', hok', ⟨allocs, hinv⟩, _⟩ := envInit_ok hblocks hstores hfit
  obtain rfl : s.k = k' := Except.ok.inj (hok.symm.trans hok')
  rw [hlive]
  exact ⟨[], allocs, hinv⟩

/-- Identifiers of the ranges are not the exhausted value. -/
theorem ne_bvecExhausted {lb n : ℕ} (hn : lb + n < 2 ^ 32) {x : BitVec 32} (hx : x ∈ idRange lb n) :
    x ≠ bvecExhausted := by
  rintro rfl
  have hmem := (mem_idRange (by omega)).mp hx
  have hvalue : bvecExhausted.toNat = 2 ^ 32 - 1 := by decide
  omega

/-- In every reachable state the live environments are isolated, and no pool
operation panics or finds its pool exhausted: `env_alloc` returns while fewer
than eight environments are live, `env_free` returns for each live one, and
`env_init` returns on any machine. -/
theorem EnvRun.environments_isolated {s : EnvRun} (hs : Reachable EnvRun.Step EnvRun.Init s) :
    s.Isolated ∧
    (s.live.length < 8 → kmallocAlignedEnd s.k.st.heap.toNat 16384 14 < 2 ^ 32 →
      ∃ e k', envAlloc s.k = .ok (e, k') ∧ e ≠ bvecExhausted ∧
        (k'.envs e).domain ≠ bvecExhausted ∧ (k'.envs e).asid ≠ bvecExhausted) ∧
    (∀ e ∈ s.live, ∃ k', envFree s.k e = .ok k') ∧
    ∀ k₀ : Kernel, k₀.Bootable → ∃ k', envInit k₀ = .ok k' := by
  obtain ⟨tables, allocs, hinv⟩ := EnvRun.reachable_ok hs
  refine ⟨hinv.isolated, ?_, ?_, ?_⟩
  · intro hlen hfit
    obtain ⟨e, k', pt, hok, _, _, hinv', _, hdomain, hasid, _⟩ := hinv.envAlloc hlen hfit
    have he := hinv'.live_lt (List.mem_cons_self)
    refine ⟨e, k', hok, ?_, ne_bvecExhausted (by decide) hdomain,
      ne_bvecExhausted (by decide) hasid⟩
    rintro rfl
    exact absurd he (by decide)
  · intro e he
    obtain ⟨k', hok, _⟩ := hinv.envFree he
    exact ⟨k', hok⟩
  · intro k₀ ⟨hblocks, hstores, hfit⟩
    obtain ⟨k', hok, _⟩ := envInit_ok hblocks hstores hfit
    exact ⟨k', hok⟩

/-- Two environments, the first of which is freed again. -/
theorem EnvRun.environments_isolated_two : ∃ s : EnvRun, s.live.length = 1 ∧ s.Isolated ∧
    ∃ e k', envAlloc s.k = .ok (e, k') ∧ e ≠ bvecExhausted := by
  obtain ⟨k, hok, ⟨allocs, hinv⟩, _, hheap, _⟩ :=
    envInit_ok (k := .start 0x140000#32) rfl rfl (by decide)
  have hs : Reachable EnvRun.Step EnvRun.Init ⟨k, []⟩ :=
    Reachable.init ⟨rfl, _, ⟨rfl, rfl, by decide⟩, hok⟩
  have hfit : kmallocAlignedEnd k.st.heap.toNat 16384 14 < 2 ^ 32 := by rw [hheap]; decide
  obtain ⟨e₁, k₁, pt₁, hok₁, _, _, hinv₁, _, _, _, _, _, _, _, hpt₁, hheap₁, _⟩ :=
    hinv.envAlloc (by decide) hfit
  have hfit₁ : kmallocAlignedEnd k₁.st.heap.toNat 16384 14 < 2 ^ 32 := by
    rw [hheap₁, hpt₁, hheap]
    decide
  obtain ⟨e₂, k₂, pt₂, hok₂, hne, _, hinv₂, _, _, _, _, _, _, _, hpt₂, hheap₂, _⟩ :=
    hinv₁.envAlloc (by simp) hfit₁
  have hmem : e₁ ∈ [e₂, e₁] := by simp
  obtain ⟨k₃, hok₃, _, _, _, _, hheap₃, _⟩ := hinv₂.envFree hmem
  have hstep₁ : EnvRun.Step ⟨k, []⟩ .alloc ⟨k₁, [e₁]⟩ := ⟨by simp, hfit, e₁, hok₁, rfl⟩
  have hstep₂ : EnvRun.Step ⟨k₁, [e₁]⟩ .alloc ⟨k₂, [e₂, e₁]⟩ := ⟨by simp, hfit₁, e₂, hok₂, rfl⟩
  have hstep₃ : EnvRun.Step ⟨k₂, [e₂, e₁]⟩ (.free e₁) ⟨k₃, [e₂, e₁].erase e₁⟩ :=
    ⟨hmem, hok₃, rfl⟩
  have hs₃ := ((hs.step hstep₁).step hstep₂).step hstep₃
  have hlen : ([e₂, e₁].erase e₁).length = 1 := by
    rw [List.length_erase_of_mem hmem]
    rfl
  have h := EnvRun.environments_isolated hs₃
  obtain ⟨e, k', hok, he, _⟩ := h.2.1 (by simp only [hlen]; decide)
    (by simp only [hheap₃, hheap₂, hpt₂, hheap₁, hpt₁, hheap]; decide)
  exact ⟨_, hlen, h.1, e, k', hok, he⟩

end RpiVm
