import RpiVm.Lib.Checked

/-!
# Pulse-width modulation

`pwm_compute` draws a line with `int_line` and records each step: a step to the right is
a one, a step upwards a zero.
-/

namespace RpiVm

open CLib

/-! ## The code -/

/-- The variables of `int_line`, and its stores to `pwm_choice` in order. -/
structure Line where
  /-- `pos`. -/
  pos : ℤ
  /-- `x0`. -/
  x0 : ℤ
  /-- `y0`. -/
  y0 : ℤ
  /-- `err`. -/
  err : ℤ
  /-- The stores: index and value. -/
  stores : List (ℤ × BitVec 32)

/-- `pwm_choice[pos++] = v`. -/
def Line.choose (l : Line) (v : BitVec 32) : Except Failure Line := do
  let pos ← int32 (l.pos + 1)
  pure { l with pos, stores := l.stores ++ [(l.pos, v)] }

/-- `err -= dy; x0++; pwm_choice[pos++] = 1`. -/
def Line.right (dy : ℤ) (l : Line) : Except Failure Line := do
  let err ← int32 (l.err - dy)
  let x0 ← int32 (l.x0 + 1)
  Line.choose { l with err, x0 } 1

/-- `err += dx; y0++; pwm_choice[pos++] = 0`. -/
def Line.up (dx : ℤ) (l : Line) : Except Failure Line := do
  let err ← int32 (l.err + dx)
  let y0 ← int32 (l.y0 + 1)
  Line.choose { l with err, y0 } 0

/-- The body of the loop behind its exit. -/
def Line.advance (dx dy : ℤ) (l : Line) : Except Failure Line := do
  let e2 := l.err
  let negDx ← int32 (-dx)
  let l ← (if e2 > negDx then l.right dy else pure l)
  if e2 < dy then l.up dx else pure l

/-- The loop of `int_line`. -/
def Line.loop (x1 y1 dx dy : ℤ) : ℕ → Line → Except Failure Line
  | 0, _ => throw .outOfRounds
  | rounds + 1, l =>
    if l.x0 = x1 ∧ l.y0 = y1 then pure l
    else do
      let l ← l.advance dx dy
      Line.loop x1 y1 dx dy rounds l

/-- `int_line`: its stores. -/
def intLine (rounds : ℕ) (n : BitVec 32) (x1 y1 : ℤ) :
    Except Failure (List (ℤ × BitVec 32)) := do
  let dx := x1
  let dy := y1
  let slope ← (if dx > dy then pure dx else int32 (-dy))
  let sum ← int32 (x1 + y1)
  assert (n == BitVec.ofInt 32 sum) "n==x1+y1"
  let l ← Line.loop x1 y1 dx dy rounds ⟨0, 0, 0, slope.tdiv 2, []⟩
  assert (BitVec.ofInt 32 l.pos == n) "pos == n"
  pure l.stores

/-- `pwm_compute`: the stores to `pwm_choices`. -/
def pwmCompute (rounds : ℕ) (on n : BitVec 32) : Except Failure (List (ℤ × BitVec 32)) := do
  assert (on ≤ n) "on<=n"
  let off := n - on
  intLine rounds n on.toInt off.toInt

/-! ## Even schedules -/

/-- How far a word of choices is from the proportion of `p` ones to `q` zeros. -/
def drift (p q : ℤ) (w : List (BitVec 32)) : ℤ := p * w.count 0 - q * w.count 1

/-- Nothing chosen yet. -/
theorem drift_nil (p q : ℤ) : drift p q [] = 0 := by simp [drift]

/-- One more one. -/
theorem drift_concat_one (p q : ℤ) (w : List (BitVec 32)) :
    drift p q (w ++ [1]) = drift p q w - q := by
  have h₀ : (w ++ [(1 : BitVec 32)]).count 0 = w.count 0 := by simp [List.count_append]
  have h₁ : (w ++ [(1 : BitVec 32)]).count 1 = w.count 1 + 1 := by simp [List.count_append]
  rw [drift, drift, h₀, h₁]
  push_cast
  ring

/-- One more zero. -/
theorem drift_concat_zero (p q : ℤ) (w : List (BitVec 32)) :
    drift p q (w ++ [0]) = drift p q w + p := by
  have h₀ : (w ++ [(0 : BitVec 32)]).count 0 = w.count 0 + 1 := by simp [List.count_append]
  have h₁ : (w ++ [(0 : BitVec 32)]).count 1 = w.count 1 := by simp [List.count_append]
  rw [drift, drift, h₀, h₁]
  push_cast
  ring

/-- Both proportions are kept over every prefix, up to the length of a full period. -/
def IsEven (p q : ℤ) (w : List (BitVec 32)) : Prop :=
  ∀ pre, pre <+: w → |drift p q pre| ≤ p + q

/-- Evenness grows with the word. -/
theorem IsEven.concat {p q : ℤ} {w : List (BitVec 32)} {v : BitVec 32} (h : IsEven p q w)
    (hv : |drift p q (w ++ [v])| ≤ p + q) : IsEven p q (w ++ [v]) := by
  intro pre hpre
  rcases List.prefix_concat_iff.mp hpre with rfl | hpre
  · exact hv
  · exact h pre hpre

/-- A word of ones and zeros. -/
theorem length_eq_of_binary {w : List (BitVec 32)} (hbin : ∀ v ∈ w, v = 0 ∨ v = 1) :
    w.length = w.count 1 + w.count 0 := by
  induction w with
  | nil => rfl
  | cons v w ih =>
    have htail := ih fun u hu => hbin u (List.mem_cons_of_mem _ hu)
    rcases hbin v List.mem_cons_self with rfl | rfl
    · rw [List.length_cons, List.count_cons_self, List.count_cons_of_ne (by decide), htail]
      omega
    · rw [List.length_cons, List.count_cons_self, List.count_cons_of_ne (by decide), htail]
      omega

/-- In a word of ones and zeros the drift compares the ones with their share. -/
theorem drift_eq {p q : ℤ} {w : List (BitVec 32)} (hbin : ∀ v ∈ w, v = 0 ∨ v = 1) :
    drift p q w = p * w.length - w.count 1 * (p + q) := by
  rw [drift, length_eq_of_binary hbin]
  push_cast
  ring

/-! ## What a round records -/

/-- The choices of one round, from the error before it. -/
def moves (dx dy e : ℤ) : List (BitVec 32) :=
  (if -dx < e then [1] else []) ++ if e < dy then [0] else []

/-- A round records ones and zeros. -/
theorem moves_binary {dx dy e : ℤ} : ∀ v ∈ moves dx dy e, v = 0 ∨ v = 1 := by
  intro v hv
  rcases List.mem_append.mp hv with hone | hzero
  · split_ifs at hone with hmove
    · exact .inr (List.mem_singleton.mp hone)
    · exact absurd hone List.not_mem_nil
  · split_ifs at hzero with hmove
    · exact .inl (List.mem_singleton.mp hzero)
    · exact absurd hzero List.not_mem_nil

/-- The drift after the first choice of a round. -/
theorem drift_right (p q e : ℤ) (w : List (BitVec 32)) :
    drift p q (w ++ if -p < e then [1] else []) = drift p q w - if -p < e then q else 0 := by
  split_ifs
  · exact drift_concat_one p q w
  · rw [List.append_nil, sub_zero]

/-- The drift after a round. -/
theorem drift_moves (p q e : ℤ) (w : List (BitVec 32)) :
    drift p q (w ++ moves p q e) =
      drift p q w - (if -p < e then q else 0) + if e < q then p else 0 := by
  rw [moves, ← List.append_assoc, ← drift_right]
  by_cases hmove : e < q
  · rw [if_pos hmove, if_pos hmove, drift_concat_zero]
  · rw [if_neg hmove, if_neg hmove, List.append_nil, add_zero]

/-- A round keeps the schedule even if it does so after each choice. -/
theorem IsEven.moves {p q e : ℤ} {w : List (BitVec 32)} (h : IsEven p q w)
    (hone : -p < e → |drift p q w - q| ≤ p + q)
    (hzero : e < q → |drift p q w - (if -p < e then q else 0) + p| ≤ p + q) :
    IsEven p q (w ++ moves p q e) := by
  have hfirst : IsEven p q (w ++ if -p < e then [1] else []) := by
    split_ifs with hmove
    · exact h.concat (by rw [drift_concat_one]; exact hone hmove)
    · rwa [List.append_nil]
  rw [RpiVm.moves, ← List.append_assoc]
  by_cases hmove : e < q
  · rw [if_pos hmove]
    refine hfirst.concat ?_
    rw [drift_concat_zero, drift_right]
    exact hzero hmove
  · rw [if_neg hmove, List.append_nil]
    exact hfirst

/-- The stores that write a word of choices from the start of the array, each entry once. -/
def storesOf (w : List (BitVec 32)) : List (ℤ × BitVec 32) :=
  w.zipIdx.map fun s => ((s.2 : ℤ), s.1)

/-- The variables once a word of choices is recorded. -/
structure Line.Drawn (dx dy err₀ : ℤ) (w : List (BitVec 32)) (l : Line) : Prop where
  pos : l.pos = w.length
  x0 : l.x0 = w.count 1
  y0 : l.y0 = w.count 0
  err : l.err = err₀ + drift dx dy w
  stores : l.stores = storesOf w

/-- The word with one more choice. -/
theorem storesOf_concat (w : List (BitVec 32)) (v : BitVec 32) :
    storesOf (w ++ [v]) = storesOf w ++ [((w.length : ℤ), v)] := by
  simp [storesOf, List.zipIdx_append]

/-- A step to the right. -/
theorem Line.Drawn.right {dx dy err₀ : ℤ} {w : List (BitVec 32)} {l : Line}
    (h : l.Drawn dx dy err₀ w) (hlen : w.length ≤ 2 ^ 30) (herr : |l.err - dy| < 2 ^ 31) :
    ∃ l', l.right dy = .ok l' ∧ l'.Drawn dx dy err₀ (w ++ [1]) := by
  have hcount : w.count 1 ≤ w.length := List.count_le_length
  have hx := h.x0
  have hpos := h.pos
  rw [abs_lt] at herr
  refine ⟨⟨l.pos + 1, l.x0 + 1, l.y0, l.err - dy, l.stores ++ [(l.pos, 1)]⟩, ?_, ?_⟩
  · rw [Line.right, ok_bind (int32_eq_ok (by omega) (by omega)),
      ok_bind (int32_eq_ok (by omega) (by omega)), Line.choose,
      ok_bind (int32_eq_ok (by simp only; omega) (by simp only; omega))]
    rfl
  · refine ⟨?_, ?_, ?_, ?_, ?_⟩
    · simp [hpos]
    · simp [hx, List.count_append]
    · simp [h.y0, List.count_append]
    · rw [drift_concat_one, h.err]
      ring
    · rw [storesOf_concat, h.stores, hpos]

/-- A step upwards. -/
theorem Line.Drawn.up {dx dy err₀ : ℤ} {w : List (BitVec 32)} {l : Line}
    (h : l.Drawn dx dy err₀ w) (hlen : w.length ≤ 2 ^ 30) (herr : |l.err + dx| < 2 ^ 31) :
    ∃ l', l.up dx = .ok l' ∧ l'.Drawn dx dy err₀ (w ++ [0]) := by
  have hcount : w.count 0 ≤ w.length := List.count_le_length
  have hy := h.y0
  have hpos := h.pos
  rw [abs_lt] at herr
  refine ⟨⟨l.pos + 1, l.x0, l.y0 + 1, l.err + dx, l.stores ++ [(l.pos, 0)]⟩, ?_, ?_⟩
  · rw [Line.up, ok_bind (int32_eq_ok (by omega) (by omega)),
      ok_bind (int32_eq_ok (by omega) (by omega)), Line.choose,
      ok_bind (int32_eq_ok (by simp only; omega) (by simp only; omega))]
    rfl
  · refine ⟨?_, ?_, ?_, ?_, ?_⟩
    · simp [hpos]
    · simp [h.x0, List.count_append]
    · simp [hy, List.count_append]
    · rw [drift_concat_zero, h.err]
      ring
    · rw [storesOf_concat, h.stores, hpos]

/-- One round. -/
theorem Line.Drawn.advance {dx dy err₀ : ℤ} {w : List (BitVec 32)} {l : Line}
    (h : l.Drawn dx dy err₀ w) (hdx : 0 ≤ dx) (hdy : 0 ≤ dy) (hn : dx + dy < 2 ^ 30)
    (hlen : w.length < 2 ^ 30) (herr : |l.err| ≤ dx + dy) :
    ∃ l', l.advance dx dy = .ok l' ∧ l'.Drawn dx dy err₀ (w ++ moves dx dy l.err) := by
  rw [abs_le] at herr
  have hneg : int32 (-dx) = .ok (-dx) := int32_eq_ok (by omega) (by omega)
  have hright : ∃ l₁, (if l.err > -dx then l.right dy else pure l) = .ok l₁ ∧
      l₁.Drawn dx dy err₀ (w ++ if -dx < l.err then [1] else []) ∧ |l₁.err + dx| < 2 ^ 31 := by
    by_cases hmove : -dx < l.err
    · obtain ⟨l₁, hl₁, hdrawn⟩ := h.right hlen.le (abs_lt.mpr (by omega))
      rw [if_pos hmove, if_pos hmove]
      refine ⟨l₁, hl₁, hdrawn, ?_⟩
      rw [hdrawn.err, drift_concat_one, ← add_sub_assoc, ← h.err, abs_lt]
      omega
    · rw [if_neg hmove, if_neg hmove, List.append_nil]
      exact ⟨l, rfl, h, abs_lt.mpr (by omega)⟩
  obtain ⟨l₁, hl₁, hdrawn, herr₁⟩ := hright
  have hlen₁ : (w ++ if -dx < l.err then [(1 : BitVec 32)] else []).length ≤ 2 ^ 30 := by
    split_ifs <;> simp <;> omega
  have hadvance : l.advance dx dy = if l.err < dy then l₁.up dx else pure l₁ := by
    rw [Line.advance, ok_bind hneg, ok_bind hl₁]
  rw [hadvance, moves, ← List.append_assoc]
  by_cases hmove : l.err < dy
  · rw [if_pos hmove, if_pos hmove]
    exact hdrawn.up hlen₁ herr₁
  · rw [if_neg hmove, if_neg hmove, List.append_nil]
    exact ⟨l₁, rfl, hdrawn⟩

/-! ## The loop -/

/-- The first error of `int_line`. -/
def startErr (dx dy : ℤ) : ℤ := (if dx > dy then dx else -dy).tdiv 2

/-- What holds whenever the loop starts over: the error stays in a window of the larger
distance, which every round shortens by one. -/
structure Line.Head (dx dy : ℤ) (w : List (BitVec 32)) (l : Line) : Prop
    extends l.Drawn dx dy (startErr dx dy) w where
  binary : ∀ v ∈ w, v = 0 ∨ v = 1
  even : IsEven dx dy w
  shallow : dy < dx → 0 ≤ l.err ∧ l.err < dx ∧ l.x0 ≤ dx
  steep : dx ≤ dy → -dy < l.err ∧ l.err ≤ 0 ∧ l.y0 ≤ dy

/-- The rounds that are left. -/
def Line.left (dx dy : ℤ) (l : Line) : ℤ := if dy < dx then dx - l.x0 else dy - l.y0

/-- The first error lies in the lower half of the window. -/
theorem startErr_shallow {dx dy : ℤ} (hdy : 0 ≤ dy) (h : dy < dx) :
    0 ≤ startErr dx dy ∧ 2 * startErr dx dy ≤ dx := by
  rw [startErr, if_pos h, Int.tdiv_eq_ediv_of_nonneg (by omega)]
  omega

/-- The first error lies in the upper half of the window. -/
theorem startErr_steep {dx dy : ℤ} (hdy : 0 ≤ dy) (h : dx ≤ dy) :
    -dy ≤ 2 * startErr dx dy ∧ startErr dx dy ≤ 0 := by
  rw [startErr, if_neg (by omega), Int.neg_tdiv, Int.tdiv_eq_ediv_of_nonneg hdy]
  omega

/-- The error in coordinates. -/
theorem Line.Drawn.err_eq {dx dy err₀ : ℤ} {w : List (BitVec 32)} {l : Line}
    (h : l.Drawn dx dy err₀ w) : l.err = err₀ + (dx * l.y0 - dy * l.x0) := by
  rw [h.err, drift, h.x0, h.y0]

/-- A distance that stays within a window of a multiple of the other is covered with it. -/
theorem covered_with {p q x y e e₀ : ℤ} (hq : 0 ≤ q) (he : e = e₀ + (p * y - q * x)) (hlow : 0 ≤ e)
    (hhigh : e < p) (hstart : 0 ≤ e₀) (hstart' : e₀ < p) (hx : x ≤ p) :
    y ≤ q ∧ (x = p → y = q) := by
  have hp : 0 ≤ p := by omega
  have hle : y ≤ q := by
    have hmul : q * x ≤ q * p := mul_le_mul_of_nonneg_left hx hq
    have hlt : p * y < p * (q + 1) := by linarith [mul_comm p q, mul_add p q 1]
    have := lt_of_mul_lt_mul_left hlt hp
    omega
  refine ⟨hle, fun hend => le_antisymm hle ?_⟩
  rw [hend] at he
  have hlt : p * (q - 1) < p * y := by linarith [mul_comm p q, mul_sub p q 1]
  have := lt_of_mul_lt_mul_left hlt hp
  omega

/-- On a shallow line the height follows the width. -/
theorem Line.Head.y0_shallow {dx dy : ℤ} {w : List (BitVec 32)} {l : Line}
    (h : l.Head dx dy w) (hdy : 0 ≤ dy) (hlt : dy < dx) :
    l.y0 ≤ dy ∧ (l.x0 = dx → l.y0 = dy) := by
  obtain ⟨hlow, hhigh, hx⟩ := h.shallow hlt
  obtain ⟨hstart, hstart'⟩ := startErr_shallow hdy hlt
  exact covered_with hdy h.err_eq hlow hhigh hstart (by omega) hx

/-- On a steep line the width follows the height. -/
theorem Line.Head.x0_steep {dx dy : ℤ} {w : List (BitVec 32)} {l : Line}
    (h : l.Head dx dy w) (hdx : 0 ≤ dx) (hpos : 0 < dy) (hle : dx ≤ dy) :
    l.x0 ≤ dx ∧ (l.y0 = dy → l.x0 = dx) := by
  obtain ⟨hlow, hhigh, hy⟩ := h.steep hle
  obtain ⟨hstart, hstart'⟩ := startErr_steep hpos.le hle
  have herr : -l.err = -startErr dx dy + (dy * l.x0 - dx * l.y0) := by
    rw [h.err_eq]
    ring
  exact covered_with hdx herr (by omega) (by omega) (by omega) (by omega) hy

/-- The choices so far fit. -/
theorem Line.Head.length_le {dx dy : ℤ} {w : List (BitVec 32)} {l : Line} (h : l.Head dx dy w)
    (hdx : 0 ≤ dx) (hdy : 0 ≤ dy) (hn : 0 < dx + dy) : (w.length : ℤ) ≤ dx + dy := by
  have hlen := length_eq_of_binary h.binary
  have hx := h.x0
  have hy := h.y0
  rcases lt_or_ge dy dx with hlt | hle
  · have := (h.y0_shallow hdy hlt).1
    have := (h.shallow hlt).2.2
    omega
  · have := (h.x0_steep hdx (by omega) hle).1
    have := (h.steep hle).2.2
    omega

/-- A round on a shallow line goes one step to the right. -/
theorem Line.Head.advance_shallow {dx dy : ℤ} {w : List (BitVec 32)} {l l' : Line}
    (h : l.Head dx dy w) (hdy : 0 ≤ dy) (hlt : dy < dx) (hx : l.x0 < dx)
    (hdrawn : l'.Drawn dx dy (startErr dx dy) (w ++ moves dx dy l.err)) :
    l'.Head dx dy (w ++ moves dx dy l.err) ∧ l'.left dx dy = l.left dx dy - 1 := by
  obtain ⟨hlow, hhigh, -⟩ := h.shallow hlt
  obtain ⟨hstart, hstart'⟩ := startErr_shallow hdy hlt
  have herr := h.err
  have hright : -dx < l.err := by omega
  have herr' : l'.err = l.err - dy + if l.err < dy then dx else 0 := by
    rw [hdrawn.err, drift_moves, if_pos hright, h.err]
    ring
  have hx' : l'.x0 = l.x0 + 1 := by
    rw [hdrawn.x0, h.x0, moves, if_pos hright]
    split_ifs <;> simp [List.count_append]
  have heven : IsEven dx dy (w ++ moves dx dy l.err) := by
    refine h.even.moves (fun _ => abs_le.mpr (by omega)) fun _ => ?_
    rw [if_pos hright, abs_le]
    omega
  refine ⟨⟨hdrawn, ?_, heven, fun _ => ?_, fun hle => absurd hle (by omega)⟩, ?_⟩
  · exact List.forall_mem_append.mpr ⟨h.binary, moves_binary⟩
  · rw [herr', hx']
    split_ifs <;> omega
  · rw [Line.left, Line.left, if_pos hlt, if_pos hlt, hx']
    ring

/-- A round on a steep line goes one step upwards. -/
theorem Line.Head.advance_steep {dx dy : ℤ} {w : List (BitVec 32)} {l l' : Line}
    (h : l.Head dx dy w) (hdx : 0 ≤ dx) (hle : dx ≤ dy) (hy : l.y0 < dy) (hpos : 0 < dy)
    (hdrawn : l'.Drawn dx dy (startErr dx dy) (w ++ moves dx dy l.err)) :
    l'.Head dx dy (w ++ moves dx dy l.err) ∧ l'.left dx dy = l.left dx dy - 1 := by
  obtain ⟨hlow, hhigh, -⟩ := h.steep hle
  obtain ⟨hstart, hstart'⟩ := startErr_steep hpos.le hle
  have herr := h.err
  have hup : l.err < dy := by omega
  have herr' : l'.err = l.err - (if -dx < l.err then dy else 0) + dx := by
    rw [hdrawn.err, drift_moves, if_pos hup, h.err]
    ring
  have hy' : l'.y0 = l.y0 + 1 := by
    rw [hdrawn.y0, h.y0, moves, if_pos hup]
    split_ifs <;> simp [List.count_append]
  have heven : IsEven dx dy (w ++ moves dx dy l.err) := by
    refine h.even.moves (fun hright => abs_le.mpr (by omega)) fun _ => ?_
    rw [abs_le]
    split_ifs <;> omega
  refine ⟨⟨hdrawn, ?_, heven, fun hlt => absurd hlt (by omega), fun _ => ?_⟩, ?_⟩
  · exact List.forall_mem_append.mpr ⟨h.binary, moves_binary⟩
  · rw [herr', hy']
    split_ifs <;> omega
  · rw [Line.left, Line.left, if_neg (by omega), if_neg (by omega), hy']
    ring

/-- A round that is not the last. -/
theorem Line.Head.step {dx dy : ℤ} {w : List (BitVec 32)} {l : Line} (h : l.Head dx dy w)
    (hdx : 0 ≤ dx) (hdy : 0 ≤ dy) (hn : dx + dy < 2 ^ 30) (hpos : 0 < dx + dy)
    (hgo : ¬ (l.x0 = dx ∧ l.y0 = dy)) :
    ∃ l' w', l.advance dx dy = .ok l' ∧ l'.Head dx dy w' ∧ l'.left dx dy = l.left dx dy - 1 := by
  have hlen := h.length_le hdx hdy hpos
  have herr : |l.err| ≤ dx + dy := by
    rw [abs_le]
    rcases lt_or_ge dy dx with hlt | hle
    · have := h.shallow hlt
      omega
    · have := h.steep hle
      omega
  obtain ⟨l', hl', hdrawn⟩ := h.advance hdx hdy hn (by omega) herr
  refine ⟨l', w ++ moves dx dy l.err, hl', ?_⟩
  rcases lt_or_ge dy dx with hlt | hle
  · have hx : l.x0 ≠ dx := fun hx => hgo ⟨hx, (h.y0_shallow hdy hlt).2 hx⟩
    exact h.advance_shallow hdy hlt (lt_of_le_of_ne (h.shallow hlt).2.2 hx) hdrawn
  · have hy : l.y0 ≠ dy := fun hy => hgo ⟨(h.x0_steep hdx (by omega) hle).2 hy, hy⟩
    exact h.advance_steep hdx hle (lt_of_le_of_ne (h.steep hle).2.2 hy) (by omega) hdrawn

/-- The loop ends where both distances are covered. -/
theorem Line.Head.loop {dx dy : ℤ} (hdx : 0 ≤ dx) (hdy : 0 ≤ dy) (hn : dx + dy < 2 ^ 30)
    (hpos : 0 < dx + dy) {rounds : ℕ} {w : List (BitVec 32)} {l : Line} (h : l.Head dx dy w)
    (hrounds : l.left dx dy < rounds) :
    ∃ l' w', Line.loop dx dy dx dy rounds l = .ok l' ∧ l'.Head dx dy w' ∧
      l'.x0 = dx ∧ l'.y0 = dy := by
  induction rounds generalizing w l with
  | zero =>
    have hleft : 0 ≤ l.left dx dy := by
      rw [Line.left]
      split_ifs with hlt
      · have := h.shallow hlt
        omega
      · have := h.steep (by omega)
        omega
    omega
  | succ rounds ih =>
    by_cases hend : l.x0 = dx ∧ l.y0 = dy
    · exact ⟨l, w, by rw [Line.loop, if_pos hend]; rfl, h, hend⟩
    · obtain ⟨l₁, w₁, hl₁, hhead, hleft⟩ := h.step hdx hdy hn hpos hend
      rw [Line.loop, if_neg hend, ok_bind hl₁]
      exact ih hhead (by omega)

/-- The loop starts with an empty schedule. -/
theorem Line.Head.start {dx dy : ℤ} (hdx : 0 ≤ dx) (hdy : 0 ≤ dy) (hpos : 0 < dx + dy) :
    Line.Head dx dy [] ⟨0, 0, 0, startErr dx dy, []⟩ := by
  refine ⟨⟨rfl, rfl, rfl, ?_, rfl⟩, fun v hv => absurd hv List.not_mem_nil, ?_, ?_, ?_⟩
  · rw [drift_nil, add_zero]
  · intro pre hpre
    rw [List.prefix_nil.mp hpre, drift_nil, abs_zero]
    exact hpos.le
  · intro hlt
    have := startErr_shallow hdy hlt
    dsimp only
    omega
  · intro hle
    have := startErr_steep hdy hle
    dsimp only
    omega

/-- The loop draws the whole line. -/
theorem line_loop {dx dy : ℤ} (hdx : 0 ≤ dx) (hdy : 0 ≤ dy) (hn : dx + dy < 2 ^ 30)
    {rounds : ℕ} (hrounds : dx + dy < rounds) :
    ∃ l w, Line.loop dx dy dx dy rounds ⟨0, 0, 0, startErr dx dy, []⟩ = .ok l ∧
      l.Drawn dx dy (startErr dx dy) w ∧ (∀ v ∈ w, v = 0 ∨ v = 1) ∧ IsEven dx dy w ∧
      l.x0 = dx ∧ l.y0 = dy := by
  rcases (add_nonneg hdx hdy).eq_or_lt with hzero | hpos
  · obtain ⟨rfl, rfl⟩ : dx = 0 ∧ dy = 0 := by omega
    obtain ⟨rounds, rfl⟩ : ∃ k, rounds = k + 1 := ⟨rounds - 1, by omega⟩
    refine ⟨_, [], by rw [Line.loop, if_pos ⟨rfl, rfl⟩]; rfl, ⟨rfl, rfl, rfl, rfl, rfl⟩, ?_, ?_,
      rfl, rfl⟩
    · exact fun v hv => absurd hv List.not_mem_nil
    · intro pre hpre
      rw [List.prefix_nil.mp hpre, drift_nil, abs_zero, add_zero]
  · have hleft : Line.left dx dy ⟨0, 0, 0, startErr dx dy, []⟩ < rounds := by
      rw [Line.left]
      split_ifs <;> dsimp only <;> omega
    obtain ⟨l, w, hloop, hhead, hx, hy⟩ := (Line.Head.start hdx hdy hpos).loop hdx hdy hn hpos hleft
    exact ⟨l, w, hloop, hhead.toDrawn, hhead.binary, hhead.even, hx, hy⟩

/-- What `int_line` records. -/
theorem intLine_returns {n : BitVec 32} {dx dy : ℤ} (hdx : 0 ≤ dx) (hdy : 0 ≤ dy)
    (hsum : dx + dy = n.toNat) (hn : n.toNat < 2 ^ 30) {rounds : ℕ} (hrounds : n.toNat < rounds) :
    ∃ w, intLine rounds n dx dy = .ok (storesOf w) ∧ (w.count 1 : ℤ) = dx ∧
      (w.count 0 : ℤ) = dy ∧ (∀ v ∈ w, v = 0 ∨ v = 1) ∧ IsEven dx dy w := by
  obtain ⟨l, w, hloop, hdrawn, hbin, heven, hx, hy⟩ :=
    line_loop hdx hdy (by omega) (show dx + dy < rounds by omega)
  have hslope : (if dx > dy then pure dx else int32 (-dy) : Except Failure ℤ) =
      .ok (if dx > dy then dx else -dy) := by
    split_ifs
    · rfl
    · exact int32_eq_ok (by omega) (by omega)
  have hofInt : BitVec.ofInt 32 (n.toNat : ℤ) = n := by
    rw [BitVec.ofInt_natCast, BitVec.ofNat_toNat, BitVec.setWidth_eq]
  have hpos : l.pos = n.toNat := by
    have hlen := length_eq_of_binary hbin
    have hpos := hdrawn.pos
    have hx' := hdrawn.x0
    have hy' := hdrawn.y0
    omega
  refine ⟨w, ?_, hdrawn.x0.symm.trans hx, hdrawn.y0.symm.trans hy, hbin, heven⟩
  rw [intLine, ok_bind hslope, ok_bind (int32_eq_ok (by omega) (by omega)),
    lift_assert_bind (by rw [hsum, hofInt, beq_self_eq_true]), ← startErr, ok_bind hloop,
    lift_assert_bind (by rw [hpos, hofInt, beq_self_eq_true]), hdrawn.stores]
  rfl

/-- `pwm_compute` returns for every `on ≤ n` below `2 ^ 30`: it writes each of the `n` choices
once and nothing else, exactly `on` of them are one and the others zero, and every prefix of
them has its share of ones up to one. -/
theorem pwmCompute_even {on n : BitVec 32} (hn : n.toNat < 2 ^ 30) (hon : on ≤ n) {rounds : ℕ}
    (hrounds : n.toNat < rounds) :
    ∃ choices, pwmCompute rounds on n = .ok (storesOf choices) ∧ choices.length = n.toNat ∧
      (∀ v ∈ choices, v = 0 ∨ v = 1) ∧ choices.count 1 = on.toNat ∧
      ∀ k ≤ n.toNat,
        |((choices.take k).count 1 : ℤ) * n.toNat - on.toNat * k| ≤ n.toNat := by
  have hle : on.toNat ≤ n.toNat := BitVec.le_def.mp hon
  have hone : on.toInt = on.toNat := BitVec.toInt_eq_toNat_of_lt (by omega)
  have hoff : (n - on).toNat = n.toNat - on.toNat := BitVec.toNat_sub_of_le hon
  have hzero : (n - on).toInt = (n - on).toNat := BitVec.toInt_eq_toNat_of_lt (by omega)
  obtain ⟨w, hw, hcount₁, hcount₀, hbin, heven⟩ :=
    @intLine_returns n on.toInt (n - on).toInt (by omega) (by omega) (by omega) hn rounds hrounds
  refine ⟨w, ?_, ?_, hbin, by omega, fun k hk => ?_⟩
  · rw [pwmCompute, lift_assert_bind (decide_eq_true hon)]
    exact hw
  · rw [length_eq_of_binary hbin]
    omega
  · have hprefix := heven (w.take k) (List.take_prefix k w)
    have hlen : (w.take k).length = k := by
      rw [List.length_take, length_eq_of_binary hbin]
      omega
    have hsum : on.toInt + (n - on).toInt = n.toNat := by omega
    rw [drift_eq fun v hv => hbin v (List.mem_of_mem_take hv), hlen, hsum, hone, abs_sub_comm]
      at hprefix
    exact hprefix

/-- Three ones in ten choices. -/
theorem pwmCompute_even_three :
    ∃ choices, pwmCompute 11 3 10 = .ok (storesOf choices) ∧ choices.length = 10 ∧
      choices.count 1 = 3 ∧
      ∀ k ≤ 10, |((choices.take k).count 1 : ℤ) * 10 - 3 * k| ≤ 10 := by
  obtain ⟨choices, hok, hlen, -, hcount, heven⟩ :=
    @pwmCompute_even 3 10 (by decide) (by decide) 11 (by decide)
  exact ⟨choices, hok, hlen, hcount, heven⟩

end RpiVm
