import RpiVm.Fault.UserRun

/-!
# Writing everywhere

The page tables lie on the heap, and user mode can write to the heap. A program that makes an
entry of its own comes to every byte of memory.
-/

namespace RpiVm

open CLib Transition

/-! ## Stores -/

/-- A store of one byte: `r0` has the byte and `r1` the address. -/
def byteStore (a : BitVec 32) (b : BitVec 8) : List UserInstr :=
  [.alu fun _ => Function.update (fun _ => a) 0 (b.setWidth 32), .strb 0 1]

/-- Stores of bytes, one after the other. -/
def byteStores (stores : List (BitVec 32 × BitVec 8)) : List UserInstr :=
  stores.flatMap fun st => byteStore st.1 st.2

/-- A word is four bytes, the lowest first. -/
def wordStore (a w : BitVec 32) : List (BitVec 32 × BitVec 8) :=
  [(a, w.extractLsb' 0 8), (a + 1, w.extractLsb' 8 8), (a + 2, w.extractLsb' 16 8),
    (a + 3, w.extractLsb' 24 8)]

/-- The map allows what an instruction does. -/
def UserState.Allows (s : UserState) : UserInstr → Prop
  | .ldrb _ rn => ∃ pa, s.k.userAccess false (s.regs rn) = .ok pa
  | .strb _ rn => ∃ pa, s.k.userAccess true (s.regs rn) = .ok pa
  | .alu _ => True

/-- No access of a run faults. -/
def Faultless (A : AbortScratch) : List UserInstr → UserState → Prop
  | [], _ => True
  | i :: is, s => s.Allows i ∧ ∀ s', s.exec A i = .ok s' → Faultless A is s'

variable {A : AbortScratch}

/-- One run after another. -/
theorem Faultless.append {is js : List UserInstr} {s s' : UserState} (h : Faultless A is s)
    (hrun : userRun A is s = .ok s') (hjs : Faultless A js s') : Faultless A (is ++ js) s := by
  induction is generalizing s with
  | nil =>
    cases hrun
    exact hjs
  | cons i is ih =>
    refine ⟨h.1, fun s₁ hs₁ => ih (h.2 s₁ hs₁) ?_⟩
    rw [userRun, List.foldlM_cons, hs₁] at hrun
    exact hrun

/-- One program after another. -/
theorem userRun_append {is js : List UserInstr} {s s' : UserState} (h : userRun A is s = .ok s') :
    userRun A (is ++ js) s = userRun A js s' := by
  rw [userRun, userRun] at *
  rw [List.foldlM_append, h]
  rfl

/-- Whatever the registers hold, stores run from one machine to another without a fault. -/
def Writes (A : AbortScratch) (stores : List (BitVec 32 × BitVec 8)) (k k' : Kernel) : Prop :=
  ∀ regs, ∃ regs', Faultless A (byteStores stores) ⟨k, regs⟩ ∧
    userRun A (byteStores stores) ⟨k, regs⟩ = .ok ⟨k', regs'⟩

/-- A store that the map allows. -/
theorem Writes.store {k : Kernel} {a pa : BitVec 32} (b : BitVec 8)
    (h : k.userAccess true a = .ok pa) :
    Writes A [(a, b)] k (k.withMem (k.st.mem.store8 pa b)) := by
  intro regs
  have hbyte : (b.setWidth 32).setWidth 8 = b := by
    rw [BitVec.setWidth_setWidth_of_le _ (by decide), BitVec.setWidth_eq]
  have hother : (1 : Fin 13) ≠ 0 := by decide
  refine ⟨Function.update (fun _ => a) 0 (b.setWidth 32), ⟨trivial, ?_⟩, ?_⟩
  · rintro _ ⟨⟩
    exact ⟨⟨pa, h⟩, fun _ _ => trivial⟩
  · show UserState.exec A ⟨k, Function.update (fun _ => a) 0 (b.setWidth 32)⟩ (.strb 0 1) >>=
      pure = _
    rw [bind_pure, UserState.exec]
    simp only [Function.update_of_ne hother, Function.update_self, h, hbyte]
    rfl

/-- Stores one after the other. -/
theorem Writes.append {stores stores' : List (BitVec 32 × BitVec 8)} {k k' k'' : Kernel}
    (h : Writes A stores k k') (h' : Writes A stores' k' k'') :
    Writes A (stores ++ stores') k k'' := by
  intro regs
  obtain ⟨regs₁, hfaultless, hrun⟩ := h regs
  obtain ⟨regs₂, hfaultless', hrun'⟩ := h' regs₁
  rw [byteStores, List.flatMap_append]
  exact ⟨regs₂, hfaultless.append hrun hfaultless', (userRun_append hrun).trans hrun'⟩

/-- Four stores of bytes are one of a word. -/
theorem store8_store8_eq_store32 (m : Mem) (a w : BitVec 32) :
    (((m.store8 a (w.extractLsb' 0 8)).store8 (a + 1) (w.extractLsb' 8 8)).store8 (a + 2)
      (w.extractLsb' 16 8)).store8 (a + 3) (w.extractLsb' 24 8) = m.store32 a w := by
  funext x
  have hdistinct : a ≠ a + 1 ∧ a ≠ a + 2 ∧ a ≠ a + 3 ∧ a + 1 ≠ a + 2 ∧ a + 1 ≠ a + 3 ∧
      a + 2 ≠ a + 3 := by
    refine ⟨?_, ?_, ?_, ?_, ?_, ?_⟩ <;> bv_omega
  simp only [Mem.store8, Mem.store32]
  grind

/-! ## The heap -/

variable {k : Kernel} {e : BitVec 32}

/-- While only one coarse table has changed, which does not map the heap, the heap can be
accessed. -/
theorem UserSpace.userAccess_heap (U : UserSpace k e) {m : Mem} {i : BitVec 12}
    (hi : IsCoarse (firstWord k.st.mem (k.envs e).pt i))
    (hm : ∀ x : BitVec 32, ¬ (coarseRegion (firstWord k.st.mem (k.envs e).pt i)).Contains x.toNat →
      m x = k.st.mem x) {x : BitVec 32} (hlo : sysHeapStart.toNat ≤ x.toNat)
    (hhi : x.toNat < 0x200000) (hx : firstIndex x ≠ i) :
    (k.withMem m).userAccess true x = .ok x := by
  have hagree : ∀ r, (coarseRegion (firstWord k.st.mem (k.envs e).pt i)).Disjoint r →
      k.st.mem.AgreeOn m r := by
    intro r hr y hy
    refine (hm y fun hin => ?_).symm
    unfold Region.Disjoint at hr
    unfold Region.Contains at hy hin
    omega
  have hentry : tableOf m (k.envs e).pt (firstIndex x) =
      tableOf k.st.mem (k.envs e).pt (firstIndex x) := by
    unfold tableOf
    rw [← firstWord_congr U.layout.aligned (hagree _ (U.layout.coarse_first i hi))]
    exact (decodeFirst_congr fun hcoarse =>
      hagree _ (U.layout.coarse_coarse i _ hx.symm hi hcoarse)).symm
  have hmap : kernelMap x = some (x, 0b11) := by
    obtain ⟨hmap, _⟩ | ⟨_, hwindow⟩ := kernelMap_above hlo (hhi.trans (by decide))
    · exact hmap
    · unfold InWindow at hwindow
      omega
  rw [← U.map x, Option.map_eq_some_iff] at hmap
  obtain ⟨r, hr, hpair⟩ := hmap
  obtain ⟨hpa, hap⟩ := Prod.mk.inj hpair
  have hwalk : (k.withMem m).translate x = some r := by
    rw [Kernel.translate, walk_eq_tableOf_walk]
    show (tableOf m k.cp15.tableBase).walk x = some r
    rw [U.tableBase, Table.walk, hentry]
    exact hr
  have hclient : (k.withMem m).cp15.domainCtrl.extractLsb' (2 * r.domain.toNat) 2 = 0b01#2 := by
    rw [U.inDomain.walk hr]
    exact U.client
  have hallows : r.attrs.allowsUser true = true := by
    simp [Attrs.allowsUser, hap, U.apx x r hr]
  rw [Kernel.userAccess, hwalk]
  simp only [hclient, hallows, if_true, hpa]

/-- The tables lie on the heap, where user mode can write. -/
theorem UserSpace.userAccess_inTables (U : UserSpace k e) {va : BitVec 32} (hva : InWindow va)
    (hi : IsCoarse (firstWord k.st.mem (k.envs e).pt (firstIndex va))) {x : BitVec 32}
    (hx : k.InTables e x) : sysHeapStart.toNat ≤ x.toNat ∧ x.toNat < k.st.heap.toNat ∧
      k.userAccess true x = .ok x := by
  have hge := U.le_of_inTables hx
  obtain ⟨r, hr, hin⟩ := hx
  have hle : r.base + r.size ≤ k.st.heap.toNat := by
    obtain rfl | ⟨i, hcoarse, rfl⟩ := hr
    · exact U.layout.first_le
    · exact U.layout.coarse_le i hcoarse
  have hlt := U.heap_lt.2
  unfold Region.Contains at hin
  have hother : firstIndex x ≠ firstIndex va := fun heq => by
    have hsame := (firstIndex_eq_iff _ _).mp heq
    unfold InWindow at hva
    omega
  exact ⟨hge, by omega,
    U.userAccess_heap hi (fun _ _ => rfl) (by omega) (by omega) hother⟩

/-- The program can store a word in a coarse table that maps the window. -/
theorem UserSpace.writes_secondAddr (U : UserSpace k e) {va : BitVec 32} (hva : InWindow va)
    (hi : IsCoarse (firstWord k.st.mem (k.envs e).pt (firstIndex va))) {a : BitVec 32}
    {j : BitVec 8}
    (ha : a = secondAddr (coarseBase (firstWord k.st.mem (k.envs e).pt (firstIndex va))) j)
    (w : BitVec 32) : Writes A (wordStore a w) k (k.withMem (k.st.mem.store32 a w)) := by
  have hge := U.footprint_ge _ (.inr ⟨firstIndex va, hi, rfl⟩)
  have hle := U.layout.coarse_le (firstIndex va) hi
  have hlt := U.heap_lt.2
  have haddr := secondAddr_toNat
    (coarseBase_mod (firstWord k.st.mem (k.envs e).pt (firstIndex va))) j
  rw [← ha] at haddr
  have hj := j.isLt
  let R := coarseRegion (firstWord k.st.mem (k.envs e).pt (firstIndex va))
  -- one byte of it
  have hbyte : ∀ (n : BitVec 32) (m : Mem) (b : BitVec 8), n.toNat < 4 →
      (∀ x : BitVec 32, ¬ R.Contains x.toNat → m x = k.st.mem x) →
      Writes A [(a + n, b)] (k.withMem m) (k.withMem (m.store8 (a + n) b)) ∧
        ∀ x : BitVec 32, ¬ R.Contains x.toNat → m.store8 (a + n) b x = k.st.mem x := by
    intro n m b hn hm
    have hsum : (a + n).toNat = a.toNat + n.toNat := by
      rw [BitVec.toNat_add, Nat.mod_eq_of_lt (by omega)]
    refine ⟨?_, fun x hx => (if_neg fun heq => hx ?_).trans (hm x hx)⟩
    · refine Writes.store (k := k.withMem m) b (U.userAccess_heap hi hm ?_ (by omega) fun heq => ?_)
      · simp only [coarseRegion] at hge
        omega
      · have hsame := (firstIndex_eq_iff _ _).mp heq
        simp only [coarseRegion] at hge
        unfold InWindow at hva
        omega
    · rw [heq, hsum]
      simp only [R, Region.Contains, coarseRegion]
      omega
  obtain ⟨h₀, hm₀⟩ := hbyte 0#32 k.st.mem (w.extractLsb' 0 8) (by decide) fun _ _ => rfl
  rw [BitVec.add_zero] at h₀ hm₀
  obtain ⟨h₁, hm₁⟩ := hbyte 1 _ (w.extractLsb' 8 8) (by decide) hm₀
  obtain ⟨h₂, hm₂⟩ := hbyte 2 _ (w.extractLsb' 16 8) (by decide) hm₁
  obtain ⟨h₃, _⟩ := hbyte 3 _ (w.extractLsb' 24 8) (by decide) hm₂
  rw [← store8_store8_eq_store32]
  exact h₀.append (h₁.append (h₂.append h₃))

/-! ## Any byte -/

/-- The descriptor of a small page with full access. -/
def fullAccessPage (p : BitVec 32) : BitVec 32 := p.extractLsb' 12 20 ++ 0x032#12

/-- How it decodes. -/
theorem decodeSecond_fullAccessPage (p : BitVec 32) : ∃ attrs,
    decodeSecond (fullAccessPage p) = .sm (p.extractLsb' 12 20) attrs ∧ attrs.ap = 0b11 ∧
      attrs.apx = 0 := by
  have hlow : ∀ start len, start + len ≤ 12 →
      (fullAccessPage p).extractLsb' start len = (0x032#12).extractLsb' start len := fun _ _ h =>
    BitVec.extractLsb'_append_eq_of_add_le h
  have hbase : (fullAccessPage p).extractLsb' 12 20 = p.extractLsb' 12 20 := by
    rw [fullAccessPage, BitVec.extractLsb'_append_eq_of_le le_rfl]
    exact BitVec.extractLsb'_eq_self
  refine ⟨smallAttrs (fullAccessPage p), ?_, ?_, ?_⟩
  · rw [decodeSecond, hlow 0 2 (by decide), hlow 1 1 (by decide), hbase]
    rfl
  · exact (hlow 4 2 (by decide)).trans (by decide)
  · exact (hlow 9 1 (by decide)).trans (by decide)

/-- For every byte of memory, the kernel's as well, there are stores of bytes that user mode makes
without a fault, after which the byte is what the program likes and nothing else has changed but
one descriptor: the page tables lie on the heap, which user mode can write, and the stores point a
page that is not mapped, and so in no TLB, to the page of the byte. -/
theorem user_writes_any {k₀ k : Kernel} {e : BitVec 32} (hload : k₀.Loaded)
    (hsetup : vmPart5 k₀ = .ok (e, k)) (A : AbortScratch) (regs : Fin 13 → BitVec 32)
    (p : BitVec 32) (b : BitVec 8) :
    (∀ x, k.InTables e x → sysHeapStart.toNat ≤ x.toNat ∧ x.toNat < k.st.heap.toNat ∧
      k.userAccess true x = .ok x) ∧
    ∃ stores s desc, Faultless A (byteStores stores) ⟨k, regs⟩ ∧
      userRun A (byteStores stores) ⟨k, regs⟩ = .ok s ∧ s.k.st.mem p = b ∧ k.InTables e desc ∧
      ∀ x : BitVec 32, x ≠ p → ¬ (Mem.wordAt desc).Contains x.toNat →
        s.k.st.mem x = k.st.mem x := by
  have U := UserSpace.of_vmPart5 hload hsetup
  -- the same place in the first page that is free
  let va : BitVec 32 := 0x240#20 ++ p.extractLsb' 0 12
  have hfirst : firstIndex va = 2 := by
    rw [firstIndex, BitVec.extractLsb'_append_eq_of_le (by decide)]
    decide
  have hsecond : secondIndex va = 0x40 := by
    rw [secondIndex, BitVec.extractLsb'_append_eq_of_le (by decide)]
    decide
  have hlow : va.extractLsb' 0 12 = p.extractLsb' 0 12 := by
    rw [BitVec.extractLsb'_append_eq_of_add_le (by decide)]
    exact BitVec.extractLsb'_eq_self
  have hva : InWindow va := by
    have hva : va.toNat = 0x240 * 2 ^ 12 + (p.extractLsb' 0 12).toNat := by
      rw [toNat_append_eq]
      rfl
    have hoffset := (p.extractLsb' 0 12).isLt
    unfold InWindow
    omega
  obtain ⟨entries, hentry, hi⟩ := (Represents.start (A := A) U regs).coarse_window U hva
  refine ⟨fun x => U.userAccess_inTables hva hi, ?_⟩
  have htable := tableOf_storeSecond U.layout hi (fullAccessPage p) 0x40
  have haddr := secondAddr_toNat
    (coarseBase_mod (firstWord k.st.mem (k.envs e).pt (firstIndex va))) 0x40
  have hfit := secondAddr_add_le (firstWord k.st.mem (k.envs e).pt (firstIndex va)) 0x40
  generalize hdesc : secondAddr
    (coarseBase (firstWord k.st.mem (k.envs e).pt (firstIndex va))) 0x40 = desc at htable haddr hfit
  -- the page is now that of the byte
  obtain ⟨attrs, hdecode, hap, hapx⟩ := decodeSecond_fullAccessPage p
  have hdomain : (firstWord k.st.mem (k.envs e).pt (firstIndex va)).extractLsb' 5 4 =
      (k.envs e).domain.setWidth 4 := (U.inDomain _).1 _ _ (tableOf_of_isCoarse hi)
  have hwalk : (k.withMem (k.st.mem.store32 desc (fullAccessPage p))).translate va =
      some ⟨p, (k.envs e).domain.setWidth 4, attrs⟩ := by
    have hpa : p.extractLsb' 12 20 ++ va.extractLsb' 0 12 = p :=
      (congrArg _ hlow).trans (@BitVec.extractLsb'_append_extractLsb' 20 12 p)
    rw [Kernel.translate, walk_eq_tableOf_walk]
    show (tableOf (k.st.mem.store32 desc (fullAccessPage p)) k.cp15.tableBase).walk va = _
    rw [U.tableBase, htable, Table.walk, Function.update_self, FirstLevel.walk, hsecond,
      Function.update_self, hdecode, SecondLevel.walk, hpa, hdomain]
  have hok : (k.withMem (k.st.mem.store32 desc (fullAccessPage p))).userAccess true va = .ok p := by
    have hclient := U.client
    have hallows : attrs.allowsUser true = true := by simp [Attrs.allowsUser, hap, hapx]
    rw [Kernel.userAccess, hwalk]
    simp only [Kernel.withMem, hclient, hallows, if_true]
  obtain ⟨regs', hfaultless, hrun⟩ :=
    (U.writes_secondAddr (A := A) hva hi hdesc.symm (fullAccessPage p)).append (.store b hok) regs
  refine ⟨_, _, desc, hfaultless, hrun, if_pos rfl, ?_, fun x hx hdesc => ?_⟩
  · refine ⟨_, .inr ⟨firstIndex va, hi, rfl⟩, ?_⟩
    show (coarseBase _).toNat ≤ _ ∧ _ < (coarseBase _).toNat + 1024
    rw [haddr]
    exact ⟨Nat.le_add_right _ _, Nat.add_lt_add_left (by decide) _⟩
  · refine (if_neg hx).trans (Mem.store32_agreeOn (r := ⟨x.toNat, 1⟩) hfit ?_ x
      ⟨le_rfl, Nat.lt_succ_self _⟩)
    have hout : ¬ (desc.toNat ≤ x.toNat ∧ x.toNat < desc.toNat + 4) := hdesc
    show desc.toNat + 4 ≤ x.toNat ∨ x.toNat + 1 ≤ desc.toNat
    omega

/-- The vectors of the interrupts are such bytes. -/
theorem user_writes_any_vectors : ∃ A k e, vmPart5 (Kernel.start 0) = .ok (e, k) ∧
    ∃ stores s desc, Faultless A (byteStores stores) ⟨k, fun _ => 0⟩ ∧
      userRun A (byteStores stores) ⟨k, fun _ => 0⟩ = .ok s ∧ s.k.st.mem 0 = 0xaa ∧
      k.InTables e desc ∧ ∀ x : BitVec 32, x ≠ 0 → ¬ (Mem.wordAt desc).Contains x.toNat →
        s.k.st.mem x = k.st.mem x := by
  obtain ⟨e, k, hok, _⟩ := vmPart5_ok (Kernel.start_loaded 0)
  let A : AbortScratch := ⟨fun _ _ => 0, 0x20000, by decide, fun _ _ _ => 0⟩
  exact ⟨A, k, e, hok, (user_writes_any (Kernel.start_loaded 0) hok A (fun _ => 0) 0 0xaa).2⟩

end RpiVm
