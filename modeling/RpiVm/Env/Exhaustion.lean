import RpiVm.Env.System

/-!
# Running out of environments

`bvec_alloc` answers with all ones when nothing is left, and `env_alloc` uses the answer
as an index. With all slots taken it returns and fills an entry outside the array, and
takes a domain and an ASID on the way.
-/

namespace RpiVm

open CLib Transition

/-! ## Runs past exhaustion -/

/-- One call that returns. `env_alloc` may be called with no slot left, and then hands out
none; what the entry outside the array overlaps in memory is not modelled. -/
def EnvRun.AnyStep (s : EnvRun) (op : EnvOp) (s' : EnvRun) : Prop :=
  match op with
  | .alloc => ∃ e, envAlloc s.k = .ok (e, s'.k) ∧
      s'.live = if s.k.envV.nLeft = 0 then s.live else e :: s.live
  | .free e => e ∈ s.live ∧ envFree s.k e = .ok s'.k ∧ s'.live = s.live.erase e

/-- All slots are live. -/
def EnvRun.Full (s : EnvRun) : Prop := ∀ e : BitVec 32, e < maxEnv → e ∈ s.live

/-- A further `env_alloc` stays inside the array and changes no environment that is live
and no pool. -/
structure EnvRun.FailsCleanly (s : EnvRun) : Prop where
  /-- It returns no environment outside the array. -/
  returns : ∀ e k', envAlloc s.k = .ok (e, k') → e < maxEnv
  /-- It writes to no environment outside the array. -/
  writes : ∀ e k', envAlloc s.k = .ok (e, k') → ∀ i, ¬ i < maxEnv → k'.envs i = s.k.envs i
  /-- It leaves the environments that are live. -/
  live : ∀ e k', envAlloc s.k = .ok (e, k') → ∀ i ∈ s.live, k'.envs i = s.k.envs i
  /-- It leaves the pools. -/
  pools : ∀ e k', envAlloc s.k = .ok (e, k') →
    k'.domV = s.k.domV ∧ k'.asidV = s.k.asidV ∧ k'.envV = s.k.envV

/-! ## What the functions do, whatever memory holds -/

/-- The allocation of a first-level table returns in every state. -/
theorem mmuPtAlloc_returns (s : State) (sz : BitVec 32) :
    ∃ pt s', mmuPtAlloc s sz = .ok (pt, s') := by
  have halign : (1#32 <<< 14 : BitVec 32) = BitVec.twoPow 32 14 := by decide
  have hmod : (roundup s.heap (BitVec.twoPow 32 14)).toNat % 2 ^ 14 = 0 := by
    rw [roundup, toNat_and_not_twoPow_sub_one _ (by decide)]
    exact Nat.mul_mod_left _ _
  have hbig : isAligned (roundup s.heap (BitVec.twoPow 32 14)) (BitVec.twoPow 32 14) = true :=
    (isAligned_twoPow _ (by decide)).mpr hmod
  have hsmall : isAligned (roundup s.heap (BitVec.twoPow 32 14)) 14 = true :=
    isAligned_of_mod (by decide) (by decide) hmod
  have hok : kmallocAligned s (4096 * 4) (1#32 <<< 14) =
      .ok (kmalloc { s with heap := roundup s.heap (BitVec.twoPow 32 14) } (4096 * 4)) := by
    rw [halign]
    exact bind_eq_ok.mpr ⟨(), demand_eq_ok.mpr (isPow2_twoPow (by decide)),
      bind_eq_ok.mpr ⟨(), demand_eq_ok.mpr hbig, rfl⟩⟩
  exact ⟨_, _, bind_eq_ok.mpr ⟨(), demand_eq_ok.mpr (by decide), bind_eq_ok.mpr ⟨_, hok,
    bind_eq_ok.mpr ⟨(), demand_eq_ok.mpr hsmall, rfl⟩⟩⟩⟩

/-- `bvec_alloc` returns in every state, and takes one identifier if one is left. -/
theorem bvecAlloc_returns (s : State) (b : Bvec) : ∃ x b', bvecAlloc s b = .ok (x, b') ∧
    b'.nTot = b.nTot ∧ (b.nLeft = 0 → x = bvecExhausted ∧ b' = b) ∧
    (b.nLeft ≠ 0 → b'.nLeft = b.nLeft - 1) := by
  unfold bvecAlloc
  by_cases hleft : b.nLeft = 0
  · have hbeq : (b.nLeft == 0) = true := beq_iff_eq.mpr hleft
    rw [if_pos hbeq]
    exact ⟨_, _, rfl, rfl, fun _ => ⟨rfl, rfl⟩, fun h => absurd hleft h⟩
  · have hbeq : ¬ (b.nLeft == 0) = true := fun h => hleft (beq_iff_eq.mp h)
    have hpos : decide (0 < b.nLeft) = true := by
      apply decide_eq_true
      bv_omega
    rw [if_neg hbeq]
    exact ⟨_, _, bind_eq_ok.mpr ⟨(), demand_eq_ok.mpr hpos, rfl⟩, rfl,
      fun h => absurd h hleft, fun _ => rfl⟩

/-- `bvec_free` puts one identifier back where there is room. -/
theorem bvecFree_counts {s s' : State} {b b' : Bvec} {x : BitVec 32}
    (h : bvecFree s b x = .ok (b', s')) :
    b.nLeft < b.nTot ∧ b'.nTot = b.nTot ∧ b'.nLeft = b.nLeft + 1 := by
  obtain ⟨_, hroom, h⟩ := bind_eq_ok.mp h
  split_ifs at h
  cases h
  exact ⟨of_decide_eq_true (demand_eq_ok.mp hroom), rfl, rfl⟩

/-- `env_alloc` returns in every state, with what the pool of slots answers. -/
theorem envAlloc_returns (k : Kernel) : ∃ e k', envAlloc k = .ok (e, k') ∧
    k'.envV.nTot = k.envV.nTot ∧ (k.envV.nLeft = 0 → e = bvecExhausted ∧ k'.envV = k.envV) ∧
    (k.envV.nLeft ≠ 0 → k'.envV.nLeft = k.envV.nLeft - 1) ∧
    (k.domV.nLeft ≠ 0 → k'.domV.nLeft = k.domV.nLeft - 1) ∧
    (k.asidV.nLeft ≠ 0 → k'.asidV.nLeft = k.asidV.nLeft - 1) ∧
    (k'.envs e).pid = k.pidCnt + 1 ∧ ∀ i, i ≠ e → k'.envs i = k.envs i := by
  obtain ⟨e, envV, hokE, htot, hnone, hsome⟩ := bvecAlloc_returns k.st k.envV
  obtain ⟨pt, s, hokP⟩ := mmuPtAlloc_returns k.st 4096
  obtain ⟨domain, domV, hokD, _, _, hdom⟩ := bvecAlloc_returns s k.domV
  obtain ⟨asid, asidV, hokA, _, _, hasid⟩ := bvecAlloc_returns s k.asidV
  refine ⟨e, _, bind_eq_ok.mpr ⟨_, hokE, bind_eq_ok.mpr ⟨_, hokP, bind_eq_ok.mpr ⟨_, hokD,
    bind_eq_ok.mpr ⟨_, hokA, rfl⟩⟩⟩⟩, htot, hnone, hsome, hdom, hasid, ?_, ?_⟩
  · simp only [Function.update_self]
  · exact fun i hi => Function.update_of_ne hi _ _

/-! ## The invariant -/

/-- The pool of slots counts what is live. -/
structure EnvRun.Counts (s : EnvRun) : Prop where
  /-- The pool has room for all slots. -/
  nTot_eq : s.k.envV.nTot = maxEnv
  /-- Slots that are left and slots that are live make up the array. -/
  nLeft_add : s.k.envV.nLeft.toNat + s.live.length = 8

/-- `env_init` leaves all slots. -/
theorem EnvRun.Init.counts {s : EnvRun} (h : s.Init) : s.Counts := by
  obtain ⟨hlive, k₀, ⟨hblocks, hstores, hfit⟩, hok⟩ := h
  obtain ⟨k', hok', ⟨allocs, hinv⟩, _⟩ := envInit_ok hblocks hstores hfit
  obtain rfl : s.k = k' := Except.ok.inj (hok.symm.trans hok')
  obtain ⟨⟨l, hl, hperm⟩, htot, _⟩ := hinv.env
  have hlen : l.length = 8 := by
    have hsum := hperm.length_eq
    rw [List.append_nil] at hsum
    exact hsum.trans (by decide)
  have htot' : s.k.envV.nTot.toNat = 8 := htot.trans (by decide)
  refine ⟨BitVec.eq_of_toNat_eq (htot'.trans (by decide)), ?_⟩
  rw [hlive, ← hl.length_eq, hlen, List.length_nil]

/-- One call keeps the count. -/
theorem EnvRun.Counts.step {s s' : EnvRun} {op : EnvOp} (h : s.Counts)
    (hstep : s.AnyStep op s') : s'.Counts := by
  have htot := h.nTot_eq
  have hadd := h.nLeft_add
  cases op with
  | alloc =>
    obtain ⟨e, hok, hlive⟩ := hstep
    obtain ⟨e', k', hok', htot', hnone, hsome, _⟩ := envAlloc_returns s.k
    obtain ⟨rfl, rfl⟩ := ok_pair_unique hok hok'
    refine ⟨htot'.trans htot, ?_⟩
    by_cases hleft : s.k.envV.nLeft = 0
    · rw [hlive, if_pos hleft, (hnone hleft).2]
      exact hadd
    · have hcount := hsome hleft
      rw [hlive, if_neg hleft, List.length_cons, hcount]
      bv_omega
  | free e =>
    obtain ⟨he, hok, hlive⟩ := hstep
    obtain ⟨_, _, hok⟩ := bind_eq_ok.mp hok
    obtain ⟨_, _, hok⟩ := bind_eq_ok.mp hok
    obtain ⟨_, _, hok⟩ := bind_eq_ok.mp hok
    obtain ⟨⟨envV, st⟩, hfree, hok⟩ := bind_eq_ok.mp hok
    obtain ⟨hroom, htot', hleft'⟩ := bvecFree_counts hfree
    have hpos := List.length_pos_of_mem he
    have henvV : s'.k.envV = envV := by
      have hk := Except.ok.inj hok
      rw [← hk]
    have hmax : maxEnv.toNat = 8 := by decide
    refine ⟨by rw [henvV, htot', htot], ?_⟩
    rw [henvV, hleft', hlive, List.length_erase_of_mem he]
    bv_omega

/-- The count holds in every reachable state. -/
theorem EnvRun.reachable_counts {s : EnvRun} (hs : Reachable EnvRun.AnyStep EnvRun.Init s) :
    s.Counts :=
  hs.invariant (fun _ h => h.counts) fun _ _ _ h hstep => h.step hstep

/-- With all slots live, none is left. -/
theorem EnvRun.Counts.nLeft_eq {s : EnvRun} (h : s.Counts) (hfull : s.Full) :
    s.k.envV.nLeft = 0 := by
  have hsub : envIds ⊆ s.live := by
    intro e he
    have hlt := ((mem_idRange (by decide)).mp he).2
    exact hfull e (lt_maxEnv.mpr (by omega))
  have hlen : 8 ≤ s.live.length := (envIds_nodup.subperm hsub).length_le
  have hadd := h.nLeft_add
  have hzero : (0 : BitVec 32).toNat = 0 := rfl
  exact BitVec.eq_of_toNat_eq (by omega)

/-- In no reachable state with all slots live does `env_alloc` fail cleanly: it returns an
entry outside the array. -/
theorem EnvRun.not_failsCleanly {s : EnvRun} (hs : Reachable EnvRun.AnyStep EnvRun.Init s)
    (hfull : s.Full) : ¬ s.FailsCleanly := by
  intro hclean
  obtain ⟨e, k', hok, _, hnone, _⟩ := envAlloc_returns s.k
  obtain ⟨rfl, _⟩ := hnone ((EnvRun.reachable_counts hs).nLeft_eq hfull)
  exact absurd (hclean.returns _ _ hok) (by decide)

/-! ## A run to exhaustion -/

/-- A first-level table ends at a multiple of its size. -/
theorem kmallocAlignedEnd_table (h : ℕ) :
    kmallocAlignedEnd h 16384 14 = roundUpNat h 16384 + 16384 := by
  have hpow : 2 ^ 14 = 16384 := by norm_num
  have hsize : roundUpNat 16384 8 = 16384 := by decide
  rw [kmallocAlignedEnd, kmallocEnd, hpow, hsize]

/-- From a state in order, calls of `env_alloc` fill all slots. -/
theorem EnvRun.exists_full {k : Kernel} {live tables : List (BitVec 32)}
    {allocs : List (Owner × Region)} (hs : Reachable EnvRun.AnyStep EnvRun.Init ⟨k, live⟩)
    (h : k.Inv live tables allocs) {n : ℕ} (hn : live.length + n = 8)
    (hheap : k.st.heap.toNat + 32767 * n < 2 ^ 32) (hdom : k.domV.nLeft.toNat = 15 - live.length) :
    ∃ s, Reachable EnvRun.AnyStep EnvRun.Init s ∧ s.Full ∧ s.k.domV.nLeft = 7 := by
  induction n generalizing k live tables allocs with
  | zero =>
    refine ⟨⟨k, live⟩, hs, ?_, ?_⟩
    · intro e he
      have hperm := h.isolated.slots_perm
      have hlen := hperm.length_eq
      rw [List.length_append] at hlen
      have hids : (idRange 0 8).length = 8 := by decide
      obtain hnil : k.envV.contents k.st.mem = [] := by
        apply List.eq_nil_of_length_eq_zero
        simp only at hlen
        omega
      simp only [hnil, List.nil_append] at hperm
      refine hperm.symm.subset ((mem_idRange (by decide)).mpr ?_)
      have hlt := lt_maxEnv.mp he
      omega
    · have hseven : (7 : BitVec 32).toNat = 7 := rfl
      exact BitVec.eq_of_toNat_eq (by simp only [hdom]; omega)
  | succ n ih =>
    have hfit : kmallocAlignedEnd k.st.heap.toNat 16384 14 < 2 ^ 32 := by
      have hround : roundUpNat k.st.heap.toNat 16384 ≤ k.st.heap.toNat + 16383 :=
        Nat.div_mul_le_self _ _
      rw [kmallocAlignedEnd_table]
      linarith
    obtain ⟨e, k', pt, hok, _, _, hinv, _, _, _, _, _, _, _, hpt, hheap', _⟩ :=
      h.envAlloc (by omega) hfit
    have hleft := (EnvRun.reachable_counts hs).nLeft_add
    have hzero : (0 : BitVec 32).toNat = 0 := rfl
    have hne : k.envV.nLeft ≠ 0 := by
      intro heq
      simp only [heq, hzero] at hleft
      omega
    obtain ⟨e', k'', hok', _, _, _, hdom', _⟩ := envAlloc_returns k
    obtain ⟨rfl, rfl⟩ := ok_pair_unique hok hok'
    have hstep : EnvRun.AnyStep ⟨k, live⟩ .alloc ⟨k', e :: live⟩ :=
      ⟨e, hok, by simp only [if_neg hne]⟩
    refine ih (hs.step hstep) hinv (by rw [List.length_cons]; omega) ?_ ?_
    · rw [hheap', hpt]
      unfold roundUpNat
      omega
    · have hdomne : k.domV.nLeft ≠ 0 := by
        intro heq
        rw [heq, hzero] at hdom
        omega
      have hone : (1 : BitVec 32).toNat = 1 := rfl
      rw [hdom' hdomne, List.length_cons, BitVec.toNat_sub_of_le (by bv_omega), hone]
      omega

/-- A machine with all slots live. -/
theorem EnvRun.exists_full_start : ∃ s : EnvRun, Reachable EnvRun.AnyStep EnvRun.Init s ∧ s.Full ∧
    s.k.domV.nLeft = 7 := by
  obtain ⟨k, hok, ⟨allocs, hinv⟩, _, hheap, _⟩ :=
    envInit_ok (k := .start 0x140000#32) rfl rfl (by decide)
  have hs : Reachable EnvRun.AnyStep EnvRun.Init ⟨k, []⟩ :=
    Reachable.init ⟨rfl, _, ⟨rfl, rfl, by decide⟩, hok⟩
  obtain ⟨⟨l, hl, hperm⟩, _⟩ := hinv.dom
  have hlen := hperm.length_eq
  rw [List.map_nil, List.append_nil, hl.length_eq] at hlen
  exact EnvRun.exists_full hs hinv (n := 8) rfl (by rw [hheap]; decide) hlen

/-- No clean failure on that machine. -/
theorem EnvRun.not_failsCleanly_start : ∃ s : EnvRun, s.Full ∧ ¬ s.FailsCleanly := by
  obtain ⟨s, hs, hfull, _⟩ := EnvRun.exists_full_start
  exact ⟨s, hfull, EnvRun.not_failsCleanly hs hfull⟩

/-- The ninth `env_alloc` returns and fills `envs[0xffffffff]`, and takes a domain. -/
theorem EnvRun.ninth_alloc : ∃ (s : EnvRun) (k' : Kernel),
    Reachable EnvRun.AnyStep EnvRun.Init s ∧ s.Full ∧
    envAlloc s.k = .ok (0xffffffff, k') ∧ (k'.envs 0xffffffff).pid = s.k.pidCnt + 1 ∧
    s.k.domV.nLeft = 7 ∧ k'.domV.nLeft = 6 := by
  obtain ⟨s, hs, hfull, hdom⟩ := EnvRun.exists_full_start
  obtain ⟨e, k', hok, _, hnone, _, hdom', _, hpid, _⟩ := envAlloc_returns s.k
  obtain ⟨rfl, _⟩ := hnone ((EnvRun.reachable_counts hs).nLeft_eq hfull)
  refine ⟨s, k', hs, hfull, hok, hpid, hdom, ?_⟩
  rw [hdom' (by rw [hdom]; decide), hdom]
  decide

end RpiVm
