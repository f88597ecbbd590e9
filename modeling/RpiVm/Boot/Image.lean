import RpiVm.Boot.Protocol

/-!
# The image in memory

The words that the UNIX side cuts a buffer into, and the bytes that the Pi's copy
loop leaves in memory when it stores words one after the other.
-/

namespace RpiVm

open CLib

/-! ## Words of a buffer -/

/-- The number of words for a number of bytes. -/
def wordCount (n : ℕ) : ℕ := (n + 3) / 4

/-- The words that the loop of `simple_boot` sends. -/
def dataWords (buf : List (BitVec 8)) : List (BitVec 32) :=
  (List.range (wordCount buf.length)).map fun j => loadChunk buf (4 * j)

@[simp] theorem dataWords_length (buf : List (BitVec 8)) :
    (dataWords buf).length = wordCount buf.length := by
  rw [dataWords, List.length_map, List.length_range]

/-- The bytes of some words in memory. -/
def wordsBytes (ws : List (BitVec 32)) : List (BitVec 8) := ws.flatMap wordBytes

@[simp] theorem wordsBytes_append (as bs : List (BitVec 32)) :
    wordsBytes (as ++ bs) = wordsBytes as ++ wordsBytes bs := List.flatMap_append

@[simp] theorem wordBytes_length (u : BitVec 32) : (wordBytes u).length = 4 := rfl

@[simp] theorem wordsBytes_length (ws : List (BitVec 32)) :
    (wordsBytes ws).length = 4 * ws.length := by
  induction ws with
  | nil => rfl
  | cons w ws ih =>
    rw [wordsBytes, List.flatMap_cons, List.length_append, wordBytes_length, ← wordsBytes, ih,
      List.length_cons]
    omega

/-- The first words of a buffer hold its first bytes, and zeros behind the last. -/
theorem wordsBytes_chunks (buf : List (BitVec 8)) (m : ℕ) :
    wordsBytes ((List.range m).map fun j => loadChunk buf (4 * j)) =
      (List.range (4 * m)).map fun i => buf.getD i 0 := by
  induction m with
  | zero => rfl
  | succ m ih =>
    have hlast : wordsBytes [loadChunk buf (4 * m)] =
        [buf.getD (4 * m) 0, buf.getD (4 * m + 1) 0, buf.getD (4 * m + 2) 0,
          buf.getD (4 * m + 3) 0] := by
      rw [wordsBytes, List.flatMap_singleton, loadChunk, wordBytes_append]
    rw [List.range_succ, List.map_append, wordsBytes_append, ih, List.map_singleton, hlast,
      Nat.mul_succ]
    simp [List.range_succ]

/-- The words of a buffer hold its bytes. -/
theorem take_wordsBytes_dataWords (buf : List (BitVec 8)) :
    (wordsBytes (dataWords buf)).take buf.length = buf := by
  have hle : buf.length ≤ 4 * wordCount buf.length := by
    unfold wordCount
    omega
  rw [dataWords, wordsBytes_chunks, ← List.map_take, List.take_range, Nat.min_eq_left hle]
  apply List.ext_getElem
  · simp
  · intro i h₁ h₂
    simp [h₂]

/-! ## Storing words -/

/-- Storing words one after the other: the memory, and the next address. -/
def storeWords (m : Mem) (a : BitVec 32) (ws : List (BitVec 32)) : Mem × BitVec 32 :=
  ws.foldl (fun p w => (p.1.store32 p.2 w, p.2 + 4)) (m, a)

/-- One more word. -/
theorem storeWords_concat (m : Mem) (a : BitVec 32) (ws : List (BitVec 32)) (w : BitVec 32) :
    storeWords m a (ws ++ [w]) =
      ((storeWords m a ws).1.store32 (storeWords m a ws).2 w, (storeWords m a ws).2 + 4) := by
  rw [storeWords, List.foldl_append, ← storeWords]
  rfl

/-- The next address. -/
theorem storeWords_snd (m : Mem) (a : BitVec 32) (ws : List (BitVec 32)) :
    (storeWords m a ws).2 = a + 4 * BitVec.ofNat 32 ws.length := by
  induction ws using List.reverseRecOn with
  | nil => simp [storeWords]
  | append_singleton ws w ih =>
    rw [storeWords_concat, ih, List.length_append, List.length_singleton]
    simp only [BitVec.ofNat_add, BitVec.mul_add, BitVec.add_assoc]
    rfl

/-- Reading on. -/
theorem readBytes_add (m : Mem) (a : BitVec 32) (n k : ℕ) :
    readBytes m a (n + k) = readBytes m a n ++ readBytes m (a + BitVec.ofNat 32 n) k := by
  rw [readBytes, List.range_add, List.map_append, List.map_map, readBytes, readBytes]
  congr 1
  apply List.map_congr_left
  intro i _
  simp only [Function.comp_apply, BitVec.ofNat_add, BitVec.add_assoc]

/-- Reading less. -/
theorem readBytes_take (m : Mem) (a : BitVec 32) {n k : ℕ} (h : n ≤ k) :
    (readBytes m a k).take n = readBytes m a n := by
  rw [readBytes, ← List.map_take, List.take_range, Nat.min_eq_left h, readBytes]

/-- What is read depends only on the bytes there. -/
theorem readBytes_congr {m m' : Mem} {a : BitVec 32} {n : ℕ} (ha : a.toNat + n ≤ 2 ^ 32)
    (h : Mem.AgreeOn m m' ⟨a.toNat, n⟩) : readBytes m a n = readBytes m' a n := by
  apply List.map_congr_left
  intro i hi
  have hlt := List.mem_range.mp hi
  apply h
  simp only [Region.Contains, BitVec.toNat_add, BitVec.toNat_ofNat]
  omega

/-- Reading the word just stored. -/
theorem readBytes_store32_same (m : Mem) (a w : BitVec 32) :
    readBytes (m.store32 a w) a 4 = wordBytes w := by
  simp [readBytes, List.range_succ, Mem.store32, wordBytes]

/-- Reading back the words stored. -/
theorem readBytes_storeWords (m : Mem) (a : BitVec 32) {ws : List (BitVec 32)}
    (hfit : a.toNat + 4 * ws.length ≤ 2 ^ 32) :
    readBytes (storeWords m a ws).1 a (4 * ws.length) = wordsBytes ws := by
  induction ws using List.reverseRecOn with
  | nil => rfl
  | append_singleton ws w ih =>
    rw [List.length_append, List.length_singleton] at hfit ⊢
    have h4 : (4 : BitVec 32).toNat = 4 := rfl
    have haddr : (a + 4 * BitVec.ofNat 32 ws.length).toNat = a.toNat + 4 * ws.length := by
      simp only [BitVec.toNat_add, BitVec.toNat_mul, BitVec.toNat_ofNat, h4]
      omega
    have hofNat : BitVec.ofNat 32 (4 * ws.length) = 4 * BitVec.ofNat 32 ws.length := by
      rw [BitVec.ofNat_mul]
      rfl
    have hbelow : Mem.AgreeOn ((storeWords m a ws).1.store32 (storeWords m a ws).2 w)
        (storeWords m a ws).1 ⟨a.toNat, 4 * ws.length⟩ := by
      rw [storeWords_snd]
      refine Mem.store32_agreeOn (by omega) (Or.inr ?_)
      simp only [Mem.wordAt, haddr]
      exact le_rfl
    rw [storeWords_concat, Nat.mul_add, Nat.mul_one, readBytes_add, hofNat,
      readBytes_congr (by omega) hbelow, ih (by omega), ← storeWords_snd m a ws,
      readBytes_store32_same, wordsBytes_append]
    rfl

/-- Reading as many bytes as the words have, or fewer. -/
theorem readBytes_storeWords_take (m : Mem) (a : BitVec 32) {ws : List (BitVec 32)} {n : ℕ}
    (hfit : a.toNat + 4 * ws.length ≤ 2 ^ 32) (hn : n ≤ 4 * ws.length) :
    readBytes (storeWords m a ws).1 a n = (wordsBytes ws).take n := by
  rw [← readBytes_storeWords m a hfit, readBytes_take _ _ hn]

/-- Replacing one word of an image keeps the checksum only if it keeps the bytes. -/
theorem take_wordsBytes_set {ws : List (BitVec 32)} {n j : ℕ} {v : BitVec 32}
    (h : crc32 ((wordsBytes (ws.set j v)).take n) = crc32 ((wordsBytes ws).take n)) :
    (wordsBytes (ws.set j v)).take n = (wordsBytes ws).take n := by
  by_cases hj : j < ws.length
  · have hbytes (w : BitVec 32) : (wordsBytes (ws.set j w)).take n =
        (wordsBytes (ws.take j)).take n ++ ((wordBytes w).take (n - 4 * (ws.take j).length) ++
          (wordsBytes (ws.drop (j + 1))).take (n - 4 * (ws.take j).length - 4)) := by
      rw [List.set_eq_take_append_cons_drop, if_pos hj, wordsBytes_append, List.take_append,
        wordsBytes_length]
      congr 1
      rw [wordsBytes, List.flatMap_cons, List.take_append, wordBytes_length, wordsBytes]
    have hsame := hbytes ws[j]
    rw [List.set_getElem_self] at hsame
    rw [hbytes v, hsame] at h ⊢
    rw [crc32_change (by simp) (by simp) h]
  · rw [List.set_eq_of_length_le (by omega)]

end RpiVm
