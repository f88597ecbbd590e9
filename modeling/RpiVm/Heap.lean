import RpiVm.Lib.Run
import RpiVm.Kmalloc

/-!
# Runs of the allocator

After `kmalloc_set_start` the two entry points of the allocator are called in any
order, and the owner of a block stores in it between calls. The heap pointer stays
a multiple of eight above every block, so that each block is fresh.
-/

namespace RpiVm

open CLib Transition

/-- A call of one of the two entry points. -/
inductive AllocCall where
  /-- `kmalloc(sz)`. -/
  | kmalloc (sz : BitVec 32)
  /-- `kmalloc_aligned(nbytes, alignment)`. -/
  | kmallocAligned (nbytes alignment : BitVec 32)

namespace AllocCall

/-- The number of bytes asked for. -/
def nbytes : AllocCall → BitVec 32
  | kmalloc sz => sz
  | kmallocAligned nbytes _ => nbytes

/-- Running a call. -/
def exec (s : State) : AllocCall → Except Panic (BitVec 32 × State)
  | kmalloc sz => pure (RpiVm.kmalloc s sz)
  | kmallocAligned nbytes alignment => RpiVm.kmallocAligned s nbytes alignment

/-- An alignment is a power of two. -/
def Valid : AllocCall → Prop
  | kmalloc _ => True
  | kmallocAligned _ alignment => ∃ k < 32, alignment = BitVec.twoPow 32 k

/-- Where the block of a call starts on a heap that ends at `h`, without a bound. -/
def baseFrom (h : ℕ) : AllocCall → ℕ
  | kmalloc _ => h
  | kmallocAligned _ alignment => roundUpNat h alignment.toNat

/-- The bytes handed out at `p`: the request rounded up to a multiple of eight. -/
def block (c : AllocCall) (p : ℕ) : Region := ⟨p, roundUpNat c.nbytes.toNat 8⟩

/-- The end of the heap after a call, without a bound. -/
def endFrom (h : ℕ) (c : AllocCall) : ℕ := kmallocEnd (c.baseFrom h) c.nbytes.toNat

/-- The address is a multiple of the alignment asked for. -/
def AlignedAt (p : ℕ) : AllocCall → Prop
  | kmalloc _ => True
  | kmallocAligned _ alignment => p % alignment.toNat = 0

end AllocCall

/-- The machine and the blocks returned since `kmalloc_set_start`, latest first. -/
structure Arena where
  /-- The machine. -/
  st : State
  /-- The blocks returned. -/
  returned : List Region

namespace Arena

/-- What happens in a run. -/
inductive Event where
  /-- A call of the allocator. -/
  | call (c : AllocCall)
  /-- The owner of a block stores a byte in it. -/
  | write (a : BitVec 32) (v : BitVec 8)

/-- One event of a run in which the heap stays below `2 ^ 32`. -/
inductive Step : Arena → Event → Arena → Prop
  | call {w : Arena} {c : AllocCall} {p : BitVec 32} {s' : State} :
      c.Valid → c.endFrom w.st.heap.toNat < 2 ^ 32 → c.exec w.st = .ok (p, s') →
      Step w (.call c) ⟨s', c.block p.toNat :: w.returned⟩
  | write {w : Arena} {a : BitVec 32} {v : BitVec 8} :
      (∃ r ∈ w.returned, r.Contains a.toNat) →
      Step w (.write a v) { w with st := { w.st with mem := w.st.mem.store8 a v } }

/-- The machine right after `kmalloc_set_start` at a multiple of eight. -/
def Init (w : Arena) : Prop :=
  ∃ s addr, addr.toNat % 8 = 0 ∧ w = ⟨kmallocSetStart s addr, []⟩

/-- The addresses from `kmalloc_heap_start()` up to `kmalloc_heap_end()`. -/
def range (s : State) : Region := ⟨s.heapStart.toNat, s.heap.toNat - s.heapStart.toNat⟩

/-- What a call promises about the block it returns at `p`. -/
structure Serves (w : Arena) (c : AllocCall) (p : BitVec 32) (s' : State) : Prop where
  /-- The block is large enough. -/
  covers : c.nbytes.toNat ≤ (c.block p.toNat).size
  /-- Every block starts at a multiple of eight. -/
  aligned8 : p.toNat % 8 = 0
  /-- The block has the alignment asked for. -/
  aligned : c.AlignedAt p.toNat
  /-- Every byte of the block is zero. -/
  zero : ∀ x : BitVec 32, (c.block p.toNat).Contains x.toNat → s'.mem x = 0
  /-- The block lies in the heap. -/
  inside : (c.block p.toNat).Within (range s')
  /-- The block overlaps no earlier one. -/
  disjoint : ∀ r ∈ w.returned, (c.block p.toNat).Disjoint r
  /-- No byte of an earlier block changes. -/
  frame : ∀ r ∈ w.returned, Mem.AgreeOn s'.mem w.st.mem r

/-- What all runs keep: the heap pointer is a multiple of eight above all blocks. -/
structure Inv (w : Arena) : Prop where
  /-- The heap pointer is a multiple of eight. -/
  aligned : w.st.heap.toNat % 8 = 0
  /-- The heap does not end before its start. -/
  ordered : w.st.heapStart.toNat ≤ w.st.heap.toNat
  /-- The blocks lie in the heap. -/
  inside : ∀ r ∈ w.returned, r.Within (range w.st)

/-- Rounding a multiple up leaves it. -/
theorem roundUpNat_of_mod {x n : ℕ} (hn : 0 < n) (hx : x % n = 0) : roundUpNat x n = x := by
  obtain ⟨q, rfl⟩ := Nat.dvd_of_mod_eq_zero hx
  have hq : (n * q + (n - 1)) / n = q := by
    rw [Nat.mul_add_div hn, Nat.div_eq_of_lt (Nat.sub_lt hn Nat.one_pos), Nat.add_zero]
  rw [roundUpNat, hq, Nat.mul_comm]

/-- Rounding a multiple of eight up to a power of two gives a multiple of eight. -/
theorem roundUpNat_twoPow_mod_eight {x : ℕ} (k : ℕ) (hx : x % 8 = 0) :
    roundUpNat x (2 ^ k) % 8 = 0 := by
  by_cases hk : 3 ≤ k
  · have hdvd : 8 ∣ 2 ^ k := Nat.pow_dvd_pow 2 hk
    exact Nat.mod_eq_zero_of_dvd (hdvd.trans (Nat.dvd_of_mod_eq_zero (roundUpNat_mod x _)))
  · have hdvd : 2 ^ k ∣ 8 := Nat.pow_dvd_pow 2 (by omega : k ≤ 3)
    have hmod : x % 2 ^ k = 0 :=
      Nat.mod_eq_zero_of_dvd (hdvd.trans (Nat.dvd_of_mod_eq_zero hx))
    rw [roundUpNat_of_mod (Nat.two_pow_pos k) hmod, hx]

/-- A call with a valid alignment returns, at the rounded end of the heap. -/
theorem exec_allocated {s : State} {c : AllocCall} (hc : c.Valid)
    (hfit : c.endFrom s.heap.toNat < 2 ^ 32) :
    ∃ p s', c.exec s = .ok (p, s') ∧ p.toNat = c.baseFrom s.heap.toNat ∧
      Allocated s s' p (c.block p.toNat).size := by
  cases c with
  | kmalloc sz =>
    have h : kmallocEnd s.heap.toNat sz.toNat < 2 ^ 32 := hfit
    have halloc := kmalloc_allocated h
    exact ⟨_, _, rfl, rfl, halloc.2⟩
  | kmallocAligned nbytes alignment =>
    obtain ⟨k, hk, rfl⟩ := hc
    have hpow : (BitVec.twoPow 32 k).toNat = 2 ^ k := BitVec.toNat_twoPow_of_lt hk
    have hfit' : kmallocAlignedEnd s.heap.toNat nbytes.toNat k < 2 ^ 32 := by
      rw [kmallocAlignedEnd, ← hpow]
      exact hfit
    obtain ⟨p, s', hexec, hp, halloc⟩ := kmallocAligned_allocated nbytes hk hfit'
    refine ⟨p, s', hexec, ?_, halloc⟩
    rw [hp, AllocCall.baseFrom, hpow]

/-- On a heap that ends at a multiple of eight a block starts at one. -/
theorem baseFrom_aligned {h : ℕ} (hh : h % 8 = 0) {c : AllocCall} (hc : c.Valid) :
    c.baseFrom h % 8 = 0 ∧ c.AlignedAt (c.baseFrom h) := by
  cases c with
  | kmalloc sz => exact ⟨hh, trivial⟩
  | kmallocAligned nbytes alignment =>
    obtain ⟨k, hk, rfl⟩ := hc
    have hpow : (BitVec.twoPow 32 k).toNat = 2 ^ k := BitVec.toNat_twoPow_of_lt hk
    refine ⟨?_, roundUpNat_mod _ _⟩
    rw [AllocCall.baseFrom, hpow]
    exact roundUpNat_twoPow_mod_eight k hh

/-- A call serves a fresh block where the invariant holds, and keeps the invariant. -/
theorem Inv.call {w : Arena} (hw : w.Inv) {c : AllocCall} {p : BitVec 32} {s' : State}
    (hc : c.Valid) (hp : p.toNat = c.baseFrom w.st.heap.toNat)
    (h : Allocated w.st s' p (c.block p.toNat).size) :
    Serves w c p s' ∧ Inv ⟨s', c.block p.toNat :: w.returned⟩ := by
  have hsize : (c.block p.toNat).size = roundUpNat c.nbytes.toNat 8 := rfl
  have hsize8 : roundUpNat c.nbytes.toNat 8 % 8 = 0 := roundUpNat_mod _ _
  have hbase : (c.block p.toNat).base = p.toNat := rfl
  have haligned := baseFrom_aligned hw.aligned hc
  rw [← hp] at haligned
  have hordered := hw.ordered
  have hle := h.le_base
  have hend := h.heap_eq
  have hstart := h.heapStart_eq
  have hfresh : ∀ r ∈ w.returned, (c.block p.toNat).Disjoint r := by
    intro r hr
    have hin := hw.inside r hr
    simp only [Region.Within, range, Region.Disjoint, hbase] at hin ⊢
    omega
  have hinside : (c.block p.toNat).Within (range s') := by
    simp only [Region.Within, range, hbase, hstart]
    omega
  refine ⟨⟨le_roundUpNat (by decide), haligned.1, haligned.2, h.zero, hinside, hfresh,
    fun r hr => h.frame r (hfresh r hr)⟩, ⟨?_, ?_, ?_⟩⟩
  · simp only
    omega
  · simp only [hstart]
    omega
  · intro r hr
    rcases List.mem_cons.mp hr with rfl | hr
    · exact hinside
    · have hin := hw.inside r hr
      simp only [Region.Within, range, hstart] at hin ⊢
      omega

/-- One event keeps the invariant. -/
theorem Inv.step {w w' : Arena} {e : Event} (hw : w.Inv) (hstep : Step w e w') : w'.Inv := by
  cases hstep with
  | call hc hfit hexec =>
    obtain ⟨p, s', hexec', hp, halloc⟩ := exec_allocated hc hfit
    rw [hexec] at hexec'
    obtain ⟨rfl, rfl⟩ := Prod.mk.inj (Except.ok.inj hexec')
    exact (hw.call hc hp halloc).2
  | write _ => exact ⟨hw.aligned, hw.ordered, hw.inside⟩

/-- The invariant holds in every state of every run. -/
theorem reachable_inv {w : Arena} (hw : Reachable Step Init w) : w.Inv := by
  refine hw.invariant ?_ fun _ _ _ h hstep => h.step hstep
  rintro _ ⟨s, addr, haddr, rfl⟩
  exact ⟨haddr, le_rfl, fun r hr => absurd hr List.not_mem_nil⟩

/-- In every run each call returns a fresh zeroed block inside the heap and leaves
the earlier blocks as they are. -/
theorem serves_of_reachable {w : Arena} (hw : Reachable Step Init w) {c : AllocCall}
    (hc : c.Valid) (hfit : c.endFrom w.st.heap.toNat < 2 ^ 32) :
    ∃ p s', c.exec w.st = .ok (p, s') ∧ Serves w c p s' := by
  obtain ⟨p, s', hexec, hp, halloc⟩ := exec_allocated hc hfit
  exact ⟨p, s', hexec, ((reachable_inv hw).call hc hp halloc).1⟩

/-- A heap that starts at `0x100000`, after a request for three bytes, at its first request for a
page. -/
theorem serves_second_block : ∃ p s p' s',
    (AllocCall.kmalloc 3).exec (kmallocSetStart ⟨fun _ => 1, 0, 0, [], []⟩ 0x100000#32) =
      .ok (p, s) ∧
    (AllocCall.kmallocAligned 1 4096).exec s = .ok (p', s') ∧
      Serves ⟨s, [⟨p.toNat, 8⟩]⟩ (.kmallocAligned 1 4096) p' s' := by
  have hinit : Init ⟨kmallocSetStart ⟨fun _ => 1, 0, 0, [], []⟩ 0x100000#32, []⟩ :=
    ⟨_, 0x100000#32, by decide, rfl⟩
  obtain ⟨p, s, hexec, hp, halloc⟩ := exec_allocated (c := .kmalloc 3)
    (s := kmallocSetStart ⟨fun _ => 1, 0, 0, [], []⟩ 0x100000#32) trivial (by decide)
  have hcall : Step ⟨kmallocSetStart ⟨fun _ => 1, 0, 0, [], []⟩ 0x100000#32, []⟩ _
      ⟨s, [⟨p.toNat, 8⟩]⟩ := .call (c := .kmalloc 3) trivial (by decide) hexec
  have hbase : p.toNat = 0x100000 := hp
  have hheap : s.heap.toNat = 0x100008 := by rw [halloc.heap_eq, hbase]; rfl
  have hfit : (AllocCall.kmallocAligned 1 4096).endFrom s.heap.toNat < 2 ^ 32 := by
    rw [hheap]
    decide
  have hvalid : (AllocCall.kmallocAligned 1 4096).Valid := ⟨12, by decide, by decide⟩
  obtain ⟨p', s', hserves⟩ := serves_of_reachable (w := ⟨s, [⟨p.toNat, 8⟩]⟩)
    (Reachable.step ⟨_, [], hinit, .nil _⟩ hcall) hvalid hfit
  exact ⟨p, s, p', s', hexec, hserves⟩

end Arena

end RpiVm
