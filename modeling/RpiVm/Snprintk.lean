import RpiVm.Lib.Buffer
import RpiVm.Printk

/-!
# Formatted output into a buffer

`snprintk` as the code computes it, with its arrays: the digits of a number go to `buf` in
reverse, `reverse` turns them round into `num`, and the string copy moves them to the
caller's buffer. Every store and every read of a local array is checked. Where the text of
`va_printk` returns, so does the code, with that text in the buffer.
-/

namespace RpiVm.Print

open CLib

/-! ## The code -/

/-- The loop of `pad`, for the blanks to come. -/
def padLoop : ℕ → List (Option Char) → ℕ → Except Failure (List (Option Char) × ℕ)
  | 0, buf, p => pure (buf, p)
  | blanks + 1, buf, p => do
    let buf ← store buf p (some ' ')
    padLoop blanks buf (p + 1)

/-- `pad`, for an array and a pointer into it. -/
def pad (buf : List (Option Char)) (p : ℕ) (width : ℤ) :
    Except Failure (List (Option Char) × ℕ) := do
  let len : ℤ := p
  let (buf, p) ← padLoop (width - len).toNat buf p
  let buf ← store buf p (some '\x00')
  pure (buf, p)

/-- The loop of `reverse`, down to `start`. -/
def reverseLoop (src : List (Option Char)) (start : ℕ) :
    ℕ → List (Option Char) → ℕ → Except Failure (List (Option Char) × ℕ)
  | 0, dst, d => pure (dst, d)
  | p + 1, dst, d =>
    if p < start then pure (dst, d)
    else do
      let c ← load src p
      let dst ← store dst d (some c)
      reverseLoop src start p dst (d + 1)

/-- `reverse`. -/
def reverse (dst : List (Option Char)) (n : ℤ) (src : List (Option Char)) (p start : ℕ) :
    Except Failure (List (Option Char)) := do
  let len : ℤ := p - start + 1
  let start := if len > n then start + (len - n).toNat else start
  let (dst, d) ← reverseLoop src start p dst 0
  store dst d (some '\x00')

/-- The loop of `emit` over the digits; 32 rounds are more than a word needs. -/
def digitLoop (base : ℕ) :
    ℕ → List (Option Char) → ℕ → ℕ → Except Failure (List (Option Char) × ℕ)
  | 0, _, _, _ => throw .outOfRounds
  | rounds + 1, buf, p, u => do
    let buf ← store buf p (some (Nat.digitChar (u % base)))
    if u / base = 0 then pure (buf, p + 1)
    else digitLoop base rounds buf (p + 1) (u / base)

/-- The `switch` of `emit`: the digits in reverse. -/
def emitDigits (base : ℕ) (buf : List (Option Char)) (val : BitVec 32) (signedP : Bool) :
    Except Failure (List (Option Char) × ℕ) :=
  match base with
  | 10 =>
    if val.msb && signedP then do
      let (buf, p) ← digitLoop 10 32 buf 0 (-val).toNat
      let buf ← store buf p (some '-')
      pure (buf, p + 1)
    else digitLoop 10 32 buf 0 val.toNat
  | 16 => digitLoop 16 32 buf 0 val.toNat
  | 8 => do
    let buf ← store buf 0 (some (Char.ofNat (val.toNat % 256)))
    pure (buf, 1)
  | 2 => digitLoop 2 32 buf 0 val.toNat
  | _ => throw (.panic (.assertion "0"))

/-- `emit`. -/
def emit (base : ℕ) (dst : List (Option Char)) (n : ℤ) (val : BitVec 32) (width : ℤ)
    (signedP : Bool) : Except Failure (List (Option Char)) := do
  let width := if width > n then n - 1 else width
  let buf := filled 64 []
  let (buf, p) ← emitDigits base buf val signedP
  let (buf, p) ← pad buf p width
  reverse dst n buf p 0

/-- `va_arg` of a word; without one the behaviour is undefined. -/
def vaArgWord : List PrintArg → Except Failure (BitVec 32 × List PrintArg)
  | .word v :: args => pure (v, args)
  | _ => throw .indeterminate

/-- `va_arg` of a string. -/
def vaArgStr : List PrintArg → Except Failure (String × List PrintArg)
  | .str s :: args => pure (s, args)
  | _ => throw .indeterminate

/-- A conversion of a word into `num`. -/
def emitArg (base : ℕ) (width : BitVec 32) (signedP : Bool) (args : List PrintArg) :
    Except Failure (List (Option Char) × List PrintArg) := do
  let (v, args) ← vaArgWord args
  let num ← emit base (filled 128 []) 128 v width.toInt signedP
  pure (num, args)

/-- The `switch` of `va_printk`: the string to copy, and the arguments that are left. -/
def convert (width : BitVec 32) (c : Char) (args : List PrintArg) :
    Except Failure (List (Option Char) × List PrintArg) := do
  assert (width < 32) "width < 32"
  match c with
  | 'f' => throw (.panic (.message "float not enabled!!!"))
  | 'd' => emitArg 10 width true args
  | 'u' => emitArg 10 width false args
  | 'p' => emitArg 16 width false args
  | 'x' => emitArg 16 width false args
  | 'b' => emitArg 2 width false args
  | 's' => do
    let (s, args) ← vaArgStr args
    pure ((s.toList ++ ['\x00']).map some, args)
  | 'c' => emitArg 8 width false args
  | _ => throw (.panic (.message "printk: not handling specifier '%c'\n"))

/-- The digits of a width, and the format behind them. -/
def scanWidth : BitVec 32 → List Char → BitVec 32 × List Char
  | width, [] => (width, [])
  | width, c :: fmt =>
    if c.isDigit then scanWidth (addDigit width c) fmt else (width, c :: fmt)

/-- Scanning a width loses nothing but digits. -/
theorem length_scanWidth (width : BitVec 32) (fmt : List Char) :
    (scanWidth width fmt).2.length ≤ fmt.length := by
  induction fmt generalizing width with
  | nil => exact le_rfl
  | cons c fmt ih =>
    rw [scanWidth]
    split
    · exact (ih _).trans (Nat.le_succ _)
    · exact le_rfl

/-- The safe string copy, up to the NUL or to `e`. -/
def copyString (e : ℤ) : List (Option Char) → List Char → ℕ → Except Failure (List Char × ℕ)
  | s, buf, p =>
    if ¬ (p : ℤ) < e then pure (buf, p)
    else
      match s with
      | [] => throw .outOfBounds
      | none :: _ => throw .indeterminate
      | some c :: s =>
        if c = '\x00' then pure (buf, p)
        else do
          let buf ← store buf p c
          copyString e s buf (p + 1)

/-- The loop of `va_printk`, for the format from `*fmt` through its NUL. -/
def vaPrintkLoop (e : ℤ) :
    List Char → List PrintArg → List Char → ℕ → Except Failure (List Char × ℕ)
  | [], _, _, _ => throw .outOfBounds
  | c :: fmt, args, buf, p =>
    if c = '\x00' ∨ ¬ (p : ℤ) < e then pure (buf, p)
    else if c ≠ '%' then do
      let buf ← store buf p c
      vaPrintkLoop e fmt args buf (p + 1)
    else
      match fmt with
      | [] => throw .outOfBounds
      | d :: fmt =>
        if d = '%' then do
          let buf ← store buf p c
          vaPrintkLoop e fmt args buf (p + 1)
        else
          match hscan : scanWidth 0 (d :: fmt) with
          | (_, []) => throw .outOfBounds
          | (width, spec :: rest) => do
            have hlt : rest.length < fmt.length + 1 := by
              have hle := length_scanWidth 0 (d :: fmt)
              rw [hscan] at hle
              exact Nat.lt_of_succ_le hle
            let (s, args) ← convert width spec args
            let (buf, p) ← copyString e s buf p
            vaPrintkLoop e rest args buf p
termination_by fmt => fmt.length

/-- `va_printk`: the buffer after it, and what it returns. -/
def vaPrintk (buf : List Char) (n : ℤ) (fmt : List Char) (args : List PrintArg) :
    Except Failure (List Char × ℕ) := do
  let e := n - 1
  let buf ← store buf 0 '\x00'
  let (buf, p) ← vaPrintkLoop e fmt args buf 0
  let buf ← store buf p '\x00'
  pure (buf, p + 1)

/-- `snprintk`, for a format that ends with a NUL. -/
def snprintk (buf : List Char) (n : BitVec 32) (fmt : List Char) (args : List PrintArg) :
    Except Failure (List Char × ℕ) :=
  vaPrintk buf n.toInt (fmt ++ ['\x00']) args

/-! ## Numbers -/

/-- The blanks of `pad`. -/
theorem padLoop_filled {size k : ℕ} {w : List Char} (h : w.length + k ≤ size) :
    padLoop k (filled size w) w.length =
      .ok (filled size (w ++ List.replicate k ' '), w.length + k) := by
  induction k generalizing w with
  | zero =>
    rw [padLoop, List.replicate_zero, List.append_nil]
    rfl
  | succ k ih =>
    have hrest := ih (w := w ++ [' ']) (by simp; omega)
    rw [List.length_append, List.length_singleton] at hrest
    rw [padLoop, ok_bind (store_filled (by omega) ' '), hrest, List.replicate_succ,
      List.append_assoc, Nat.add_right_comm, Nat.add_assoc]
    rfl

/-- `pad` fills up to the width and ends the text. -/
theorem pad_filled {size width : ℕ} {w : List Char} (hw : w.length < size) (hwidth : width < size) :
    pad (filled size w) w.length width =
      .ok (filled size (RpiVm.pad w width ++ ['\x00']), (RpiVm.pad w width).length) := by
  have hblanks : ((width : ℤ) - (w.length : ℤ)).toNat = width - w.length := by omega
  have hlen : (RpiVm.pad w width).length = w.length + (width - w.length) := by
    rw [RpiVm.pad, List.length_append, List.length_replicate]
  have hstore := store_filled (show (RpiVm.pad w width).length < size by omega) '\x00'
  rw [hlen] at hstore
  rw [pad]
  dsimp only
  rw [hblanks, ok_bind (padLoop_filled (by omega))]
  dsimp only
  rw [← RpiVm.pad, ok_bind hstore, hlen]
  rfl

/-- The loop of `reverse` turns a text round. -/
theorem reverseLoop_filled {size dsize : ℕ} {w t d : List Char} (h : d.length + w.length ≤ dsize) :
    reverseLoop (filled size (w ++ t)) 0 w.length (filled dsize d) d.length =
      .ok (filled dsize (d ++ w.reverse), d.length + w.length) := by
  induction w using List.reverseRecOn generalizing t d with
  | nil =>
    rw [List.length_nil, reverseLoop, List.reverse_nil, List.append_nil, Nat.add_zero]
    rfl
  | append_singleton w c ih =>
    rw [List.length_append, List.length_singleton] at h
    have hload : load (filled size (w ++ [c] ++ t)) w.length = .ok c := by
      rw [load_filled (by simp)]
      simp
    have hrest := ih (t := [c] ++ t) (d := d ++ [c]) (by simp; omega)
    rw [List.length_append, List.length_singleton, ← List.append_assoc] at hrest
    rw [List.length_append, List.length_singleton, reverseLoop, if_neg (Nat.not_lt_zero _),
      ok_bind hload, ok_bind (store_filled (by omega) c), hrest, List.reverse_append,
      List.append_assoc, Nat.add_assoc, Nat.add_comm 1]
    rfl

/-- `reverse` turns a text round that fits, and ends it. -/
theorem reverse_filled {size dsize : ℕ} {w t : List Char} (h : w.length < dsize) :
    reverse (filled dsize []) dsize (filled size (w ++ t)) w.length 0 =
      .ok (filled dsize (w.reverse ++ ['\x00'])) := by
  have hfits : ¬ ((w.length : ℤ) - (0 : ℕ) + 1 > dsize) := by omega
  have hroom : ([] : List Char).length + w.length ≤ dsize := by simp; omega
  have hloop := @reverseLoop_filled size dsize w t [] hroom
  have hstore := store_filled (show w.reverse.length < dsize by simpa using h) '\x00'
  rw [List.length_reverse] at hstore
  rw [List.length_nil, Nat.zero_add, List.nil_append] at hloop
  rw [reverse]
  dsimp only
  rw [if_neg hfits, ok_bind hloop]
  exact hstore

/-- The number of digits. -/
theorem length_emitDigits_le (base rounds u : ℕ) :
    (RpiVm.emitDigits base rounds u).length ≤ rounds := by
  induction rounds generalizing u with
  | zero => exact le_rfl
  | succ rounds ih =>
    rw [RpiVm.emitDigits, List.length_cons]
    split_ifs
    · exact Nat.succ_le_succ (Nat.zero_le _)
    · exact Nat.succ_le_succ (ih _)

/-- The digits of a number. -/
theorem digitLoop_filled {base size rounds u : ℕ} {w : List Char} (hbase : 0 < base)
    (hu : u < base ^ rounds) (hrounds : 0 < rounds) (h : w.length + rounds ≤ size) :
    digitLoop base rounds (filled size w) w.length u =
      .ok (filled size (w ++ RpiVm.emitDigits base rounds u),
        w.length + (RpiVm.emitDigits base rounds u).length) := by
  induction rounds generalizing w u with
  | zero => exact absurd hrounds (lt_irrefl 0)
  | succ rounds ih =>
    rw [digitLoop, ok_bind (store_filled (by omega) _), RpiVm.emitDigits]
    by_cases hlast : u / base = 0
    · rw [if_pos hlast, if_pos hlast]
      rfl
    · have hu' : u / base < base ^ rounds := by
        rw [Nat.div_lt_iff_lt_mul hbase, ← pow_succ]
        exact hu
      have hrounds' : 0 < rounds := by
        rcases Nat.eq_zero_or_pos rounds with rfl | hpos
        · exact absurd (Nat.lt_one_iff.mp hu') hlast
        · exact hpos
      have hrest := ih (u := u / base) (w := w ++ [Nat.digitChar (u % base)]) hu' hrounds'
        (by simp; omega)
      rw [List.length_append, List.length_singleton] at hrest
      rw [if_neg hlast, if_neg hlast, hrest, List.append_assoc, List.length_cons, Nat.add_assoc,
        Nat.add_comm 1]
      rfl

/-- The digits of a value, in reverse and with the sign last. -/
def reversedDigits (base : ℕ) (val : BitVec 32) (signedP : Bool) : List Char :=
  if base = 8 then [Char.ofNat (val.toNat % 256)]
  else if signedP && val.msb then RpiVm.emitDigits base 32 (-val).toNat ++ ['-']
  else RpiVm.emitDigits base 32 val.toNat

/-- The bases that `emit` knows. -/
def IsBase (base : ℕ) : Prop := base = 10 ∨ base = 16 ∨ base = 8 ∨ base = 2

/-- The digits of all 32 bits at most, and a sign. -/
theorem length_reversedDigits_le (base : ℕ) (val : BitVec 32) (signedP : Bool) :
    (reversedDigits base val signedP).length ≤ 33 := by
  have hneg := length_emitDigits_le base 32 (-val).toNat
  have hpos := length_emitDigits_le base 32 val.toNat
  rw [reversedDigits]
  split_ifs
  · exact Nat.le_add_left _ _
  · rw [List.length_append, List.length_singleton]
    omega
  · omega

/-- The loop over the digits of a word. -/
theorem digitLoop_word {base : ℕ} (hbase : 2 ≤ base) (u : BitVec 32) :
    digitLoop base 32 (filled 64 []) 0 u.toNat =
      .ok (filled 64 (RpiVm.emitDigits base 32 u.toNat),
        (RpiVm.emitDigits base 32 u.toNat).length) := by
  have hu : u.toNat < base ^ 32 := lt_of_lt_of_le u.isLt (Nat.pow_le_pow_left hbase 32)
  have hroom : ([] : List Char).length + 32 ≤ 64 := by decide
  have hloop := digitLoop_filled (by omega) hu (by decide) hroom
  rwa [List.length_nil, Nat.zero_add, List.nil_append] at hloop

/-- The digits go into `buf`, in reverse. -/
theorem emitDigits_filled {base : ℕ} (hbase : IsBase base) (val : BitVec 32) {signedP : Bool}
    (hsigned : signedP = true → base = 10) :
    emitDigits base (filled 64 []) val signedP =
      .ok (filled 64 (reversedDigits base val signedP),
        (reversedDigits base val signedP).length) := by
  rcases hbase with rfl | rfl | rfl | rfl
  · by_cases hneg : val.msb && signedP
    · have hneg' : (signedP && val.msb) = true := by rwa [Bool.and_comm]
      have hlen := length_emitDigits_le 10 32 (-val).toNat
      rw [emitDigits, if_pos hneg, ok_bind (digitLoop_word (by decide) _), reversedDigits,
        if_neg (by decide), if_pos hneg']
      dsimp only
      rw [ok_bind (store_filled (by omega) '-'), List.length_append]
      rfl
    · have hneg' : ¬ (signedP && val.msb) = true := by rwa [Bool.and_comm]
      rw [emitDigits, if_neg hneg, digitLoop_word (by decide), reversedDigits, if_neg (by decide),
        if_neg hneg']
  all_goals
    have hunsigned : signedP = false := by
      by_contra h
      exact absurd (hsigned (Bool.eq_true_of_not_eq_false h)) (by decide)
    subst hunsigned
  · exact digitLoop_word (by decide) val
  · have hroom : ([] : List Char).length < 64 := by decide
    have hstore := store_filled hroom (Char.ofNat (val.toNat % 256))
    rw [List.length_nil] at hstore
    rw [emitDigits, ok_bind hstore]
    rfl
  · exact digitLoop_word (by decide) val

/-- `emit` puts the text of a number into `num`, without leaving an array. -/
theorem emit_filled {base : ℕ} (hbase : IsBase base) (val : BitVec 32) {width : BitVec 32}
    (hwidth : width < 32) {signedP : Bool} (hsigned : signedP = true → base = 10) :
    emit base (filled 128 []) 128 val width.toInt signedP =
      .ok (filled 128 (RpiVm.emit base val width signedP ++ ['\x00'])) := by
  have hlt : width.toNat < 32 := BitVec.lt_def.mp hwidth
  have hint : width.toInt = width.toNat := BitVec.toInt_eq_toNat_of_lt (by omega)
  have hsmall : ¬ ((width.toNat : ℤ) > 128) := by omega
  have hlen := length_reversedDigits_le base val signedP
  have hpad := pad_filled (show (reversedDigits base val signedP).length < 64 by omega)
    (show width.toNat < 64 by omega)
  have hpadlen : (RpiVm.pad (reversedDigits base val signedP) width.toNat).length < 128 := by
    rw [RpiVm.pad, List.length_append, List.length_replicate]
    omega
  rw [emit]
  dsimp only
  rw [hint, if_neg hsmall, ok_bind (emitDigits_filled hbase val hsigned)]
  dsimp only
  rw [ok_bind hpad]
  exact reverse_filled hpadlen

/-! ## The switch -/

/-- Memory that holds a string. -/
def IsString (m : List (Option Char)) (s : List Char) : Prop :=
  ∃ junk, m = (s ++ ['\x00']).map some ++ junk

/-- What `emit` leaves in `num` is a string. -/
theorem isString_filled (size : ℕ) (s : List Char) : IsString (filled size (s ++ ['\x00'])) s :=
  ⟨_, rfl⟩

/-- A number is converted as its text says. -/
theorem emitArg_eq {base : ℕ} (hbase : IsBase base) {width : BitVec 32} (hwidth : width < 32)
    {signedP : Bool} (hsigned : signedP = true → base = 10) (v : BitVec 32)
    (args : List PrintArg) :
    emitArg base width signedP (.word v :: args) =
      .ok (filled 128 (RpiVm.emit base v width signedP ++ ['\x00']), args) := by
  have hemit := emit_filled hbase v hwidth hsigned
  rw [emitArg]
  show (emit base (filled 128 []) 128 v width.toInt signedP >>= fun num => pure (num, args)) = _
  rw [ok_bind hemit]
  rfl

/-- Where the text of a specifier is defined, the code finds it as a string. -/
theorem convert_eq {width : BitVec 32} {c : Char} {args args' : List PrintArg} {s : List Char}
    (h : RpiVm.convert width c args = .ok (s, args')) :
    ∃ m, convert width c args = .ok (m, args') ∧ IsString m s := by
  unfold RpiVm.convert at h
  obtain ⟨_, hassert, h⟩ := bind_eq_ok.mp h
  have hwidth : decide (width < 32) = true := assert_eq_ok.mp hassert
  have hlt : width < 32 := of_decide_eq_true hwidth
  unfold convert
  rw [lift_assert_bind hwidth]
  split at h
  · cases h
    exact ⟨_, emitArg_eq (.inl rfl) hlt (fun _ => rfl) _ _, isString_filled _ _⟩
  · cases h
    exact ⟨_, emitArg_eq (.inl rfl) hlt (fun _ => rfl) _ _, isString_filled _ _⟩
  · cases h
    exact ⟨_, emitArg_eq (.inr (.inl rfl)) hlt (by decide) _ _, isString_filled _ _⟩
  · cases h
    exact ⟨_, emitArg_eq (.inr (.inl rfl)) hlt (by decide) _ _, isString_filled _ _⟩
  · cases h
    exact ⟨_, emitArg_eq (.inr (.inr (.inr rfl))) hlt (by decide) _ _, isString_filled _ _⟩
  · cases h
    exact ⟨_, rfl, [], (List.append_nil _).symm⟩
  · cases h
    exact ⟨_, emitArg_eq (.inr (.inr (.inl rfl))) hlt (by decide) _ _, isString_filled _ _⟩
  · cases h
  · cases h

/-! ## The loop -/

/-- The text that is copied of a string fits. -/
theorem length_copyString_le (s : List Char) (room : ℕ) : (RpiVm.copyString s room).length ≤ room :=
  List.length_take_le _ _

/-- At the end of a string nothing is copied. -/
theorem copyString_nil (room : ℕ) : RpiVm.copyString [] room = [] := List.take_nil

/-- A character is copied if there is room. -/
theorem copyString_cons {c : Char} (hc : c ≠ '\x00') (s : List Char) (room : ℕ) :
    RpiVm.copyString (c :: s) (room + 1) = c :: RpiVm.copyString s room := by
  have hc' : (c.toNat != 0) = true := by
    refine bne_iff_ne.mpr fun h => hc (Char.ext (UInt32.toNat_inj.mp ?_))
    exact h
  rw [RpiVm.copyString, List.takeWhile_cons_of_pos (p := fun c : Char => c.toNat != 0) hc',
    List.take_succ_cons]
  rfl

/-- The safe string copy. -/
theorem copyString_overlay {e : ℕ} {buf w : List Char} (hw : w.length ≤ e) (he : e < buf.length)
    {m : List (Option Char)} {s : List Char} (hm : IsString m s) :
    copyString e m (overlay w buf) w.length =
      .ok (overlay (w ++ RpiVm.copyString s (e - w.length)) buf,
        w.length + (RpiVm.copyString s (e - w.length)).length) := by
  obtain ⟨junk, rfl⟩ := hm
  induction s generalizing w with
  | nil =>
    rw [List.nil_append, List.map_singleton, List.singleton_append, copyString, copyString_nil,
      List.append_nil, if_pos rfl]
    exact ite_self _
  | cons c s ih =>
    rw [List.cons_append, List.map_cons, List.cons_append, copyString]
    rcases hw.eq_or_lt with hfull | hroom
    · have hnone : RpiVm.copyString (c :: s) 0 = [] := List.take_zero
      rw [if_pos (by omega), hfull, Nat.sub_self, hnone, List.append_nil]
      rfl
    · rw [if_neg (by omega)]
      by_cases hc : c = '\x00'
      · have hnone : RpiVm.copyString (c :: s) (e - w.length) = [] := by
          rw [RpiVm.copyString, hc]
          exact List.take_nil
        rw [if_pos hc, hnone, List.append_nil]
        rfl
      · obtain ⟨room, hroom'⟩ : ∃ room, e - w.length = room + 1 := ⟨e - w.length - 1, by omega⟩
        have hrest := ih (w := w ++ [c]) (by simp; omega)
        have hroom'' : e - (w ++ [c]).length = room := by simp; omega
        rw [hroom'', List.length_append, List.length_singleton] at hrest
        rw [if_neg hc, ok_bind (store_overlay (by omega) c), hrest, hroom', copyString_cons hc,
          List.append_assoc, List.length_cons, Nat.add_assoc, Nat.add_comm 1]
        rfl

/-- What the text of `va_printk` is behind the digits of a width. -/
def afterWidth (args : List PrintArg) (room : ℕ) : BitVec 32 × List Char → Except Panic (List Char)
  | (_, []) => throw (.message "printk: not handling specifier '%c'\n")
  | (width, spec :: rest) => do
    let (s, args) ← RpiVm.convert width spec args
    let s := RpiVm.copyString s room
    let text ← RpiVm.vaPrintk rest .text args (room - s.length)
    pure (s ++ text)

/-- The digits of a width are scanned first. -/
theorem vaPrintk_width (fmt : List Char) (w : BitVec 32) (args : List PrintArg) (room : ℕ) :
    RpiVm.vaPrintk fmt (.width w) args room = afterWidth args room (scanWidth w fmt) := by
  induction fmt generalizing w with
  | nil => rfl
  | cons c fmt ih =>
    rw [RpiVm.vaPrintk, scanWidth]
    by_cases hc : c.isDigit = true
    · rw [if_pos hc, if_pos hc]
      exact ih _
    · rw [if_neg hc, if_neg hc]
      rfl

/-- Behind a percent sign a width may follow. -/
theorem vaPrintk_percent {c : Char} (hc : c ≠ '%') (fmt : List Char) (args : List PrintArg)
    (room : ℕ) :
    RpiVm.vaPrintk (c :: fmt) .percent args room =
      afterWidth args room (scanWidth 0 (c :: fmt)) := by
  rw [RpiVm.vaPrintk, if_neg hc, scanWidth]
  by_cases hdigit : c.isDigit = true
  · rw [if_pos hdigit, if_pos hdigit]
    exact vaPrintk_width _ _ _ _
  · rw [if_neg hdigit, if_neg hdigit]
    rfl

/-- What the digits of a width are followed by. -/
theorem scanWidth_append_nul (w : BitVec 32) (fmt : List Char) :
    scanWidth w (fmt ++ ['\x00']) = ((scanWidth w fmt).1, (scanWidth w fmt).2 ++ ['\x00']) := by
  induction fmt generalizing w with
  | nil => rfl
  | cons c fmt ih =>
    rw [List.cons_append, scanWidth, scanWidth]
    by_cases hc : c.isDigit = true
    · rw [if_pos hc, if_pos hc]
      exact ih _
    · rw [if_neg hc, if_neg hc]
      rfl

/-- The format behind the digits is part of it. -/
theorem scanWidth_suffix (w : BitVec 32) (fmt : List Char) : (scanWidth w fmt).2 <:+ fmt := by
  induction fmt generalizing w with
  | nil => exact List.suffix_refl _
  | cons c fmt ih =>
    rw [scanWidth]
    split
    · exact (ih _).trans (List.suffix_cons _ _)
    · exact List.suffix_refl _

/-- The loop stops at the end of the format or of the buffer. -/
theorem vaPrintkLoop_stop {e : ℤ} {c : Char} {p : ℕ} (h : c = '\x00' ∨ ¬ (p : ℤ) < e)
    (fmt : List Char) (args : List PrintArg) (buf : List Char) :
    vaPrintkLoop e (c :: fmt) args buf p = .ok (buf, p) := by
  rw [vaPrintkLoop.eq_def]
  exact if_pos h

/-- Text is stored as it is. -/
theorem vaPrintkLoop_char {e : ℤ} {c : Char} {p : ℕ} (h : ¬ (c = '\x00' ∨ ¬ (p : ℤ) < e))
    (hc : c ≠ '%') (fmt : List Char) (args : List PrintArg) (buf : List Char) :
    vaPrintkLoop e (c :: fmt) args buf p =
      (store buf p c >>= fun buf => vaPrintkLoop e fmt args buf (p + 1)) := by
  rw [vaPrintkLoop.eq_def]
  exact (if_neg h).trans (if_pos hc)

/-- Two percent signs are stored as one. -/
theorem vaPrintkLoop_percent {e : ℤ} {p : ℕ} (h : (p : ℤ) < e) (fmt : List Char)
    (args : List PrintArg) (buf : List Char) :
    vaPrintkLoop e ('%' :: '%' :: fmt) args buf p =
      (store buf p '%' >>= fun buf => vaPrintkLoop e fmt args buf (p + 1)) := by
  have hgo : ¬ ('%' = '\x00' ∨ ¬ (p : ℤ) < e) := by simp [h]
  rw [vaPrintkLoop.eq_def]
  exact (if_neg hgo).trans (if_neg fun hne => hne rfl)

/-- A conversion takes an argument and copies its string. -/
theorem vaPrintkLoop_convert {e : ℤ} {p : ℕ} (h : (p : ℤ) < e) {d : Char} (hd : d ≠ '%')
    {fmt rest : List Char} {width : BitVec 32} {spec : Char}
    (hscan : scanWidth 0 (d :: fmt) = (width, spec :: rest)) (args : List PrintArg)
    (buf : List Char) :
    vaPrintkLoop e ('%' :: d :: fmt) args buf p =
      (convert width spec args >>= fun (s, args) =>
        copyString e s buf p >>= fun (buf, p) => vaPrintkLoop e rest args buf p) := by
  have hgo : ¬ ('%' = '\x00' ∨ ¬ (p : ℤ) < e) := by simp [h]
  rw [vaPrintkLoop.eq_def]
  refine (if_neg hgo).trans ((if_neg fun hne => hne rfl).trans ((if_neg hd).trans ?_))
  split
  · rename_i hnone
    rw [hscan] at hnone
    cases hnone
  · rename_i hsome
    rw [hscan] at hsome
    cases hsome
    rfl

/-- Behind any text in the buffer, the loop of `va_printk` puts the text of this format. -/
def LoopPrints (e : ℕ) (buf fmt : List Char) : Prop :=
  ∀ ⦃w : List Char⦄ ⦃args : List PrintArg⦄ ⦃text : List Char⦄, w.length ≤ e →
    RpiVm.vaPrintk fmt .text args (e - w.length) = .ok text →
    vaPrintkLoop e (fmt ++ ['\x00']) args (overlay w buf) w.length =
      .ok (overlay (w ++ text) buf, w.length + text.length) ∧ w.length + text.length ≤ e

/-- Into a full buffer no text goes. -/
theorem vaPrintkLoop_full {e : ℕ} {buf w : List Char} (hfull : w.length = e) {fmt : List Char}
    {args : List PrintArg} {text : List Char}
    (h : RpiVm.vaPrintk fmt .text args (e - w.length) = .ok text) :
    text = [] ∧ vaPrintkLoop e (fmt ++ ['\x00']) args (overlay w buf) w.length =
      .ok (overlay w buf, w.length) := by
  have hend : ¬ (w.length : ℤ) < e := by omega
  rw [hfull, Nat.sub_self] at h
  cases fmt with
  | nil => exact ⟨(Except.ok.inj h).symm, vaPrintkLoop_stop (.inl rfl) _ _ _⟩
  | cons c fmt =>
    rw [RpiVm.vaPrintk, if_pos rfl] at h
    exact ⟨(Except.ok.inj h).symm, vaPrintkLoop_stop (.inr hend) _ _ _⟩

/-- One character, and the rest of the format behind it. -/
theorem LoopPrints.char {e : ℕ} {buf fmt : List Char} (hfmt : LoopPrints e buf fmt)
    (he : e < buf.length) {w : List Char} (hroom : w.length < e) {args : List PrintArg}
    {text : List Char} (c : Char)
    (h : (RpiVm.vaPrintk fmt .text args (e - w.length - 1) >>= fun t => pure (c :: t)) =
      .ok text) :
    (store (overlay w buf) w.length c >>= fun buf =>
      vaPrintkLoop e (fmt ++ ['\x00']) args buf (w.length + 1)) =
        .ok (overlay (w ++ text) buf, w.length + text.length) ∧ w.length + text.length ≤ e := by
  obtain ⟨t, ht, hpure⟩ := bind_eq_ok.mp h
  obtain rfl := pure_eq_ok.mp hpure
  have hroom' : e - w.length - 1 = e - (w ++ [c]).length := by simp; omega
  rw [hroom'] at ht
  obtain ⟨htail, hle⟩ := hfmt (by simp; omega) ht
  rw [List.length_append, List.length_singleton, Nat.add_assoc, Nat.add_comm 1] at htail hle
  rw [ok_bind (store_overlay (by omega) c), htail, List.append_assoc, List.length_cons]
  exact ⟨rfl, hle⟩

/-- A conversion, and the rest of the format behind it. -/
theorem LoopPrints.conversion {e : ℕ} {buf rest : List Char} (hrest : LoopPrints e buf rest)
    (he : e < buf.length) {w : List Char} (hw : w.length ≤ e) {args : List PrintArg}
    {width : BitVec 32} {spec : Char} {text : List Char}
    (h : afterWidth args (e - w.length) (width, spec :: rest) = .ok text) :
    (convert width spec args >>= fun (s, args) =>
      copyString e s (overlay w buf) w.length >>= fun (buf, p) =>
        vaPrintkLoop e (rest ++ ['\x00']) args buf p) =
          .ok (overlay (w ++ text) buf, w.length + text.length) ∧ w.length + text.length ≤ e := by
  obtain ⟨⟨s, args'⟩, hconv, h⟩ := bind_eq_ok.mp h
  obtain ⟨t, ht, hpure⟩ := bind_eq_ok.mp h
  obtain rfl := pure_eq_ok.mp hpure
  obtain ⟨m, hm, hstring⟩ := convert_eq hconv
  have hcopy := copyString_overlay hw he hstring
  have hcopied := length_copyString_le s (e - w.length)
  have hroom : e - w.length - (RpiVm.copyString s (e - w.length)).length =
      e - (w ++ RpiVm.copyString s (e - w.length)).length := by simp; omega
  rw [hroom] at ht
  obtain ⟨htail, hend⟩ := hrest (by simp; omega) ht
  rw [List.length_append, Nat.add_assoc] at htail hend
  rw [ok_bind hm]
  dsimp only
  rw [ok_bind hcopy]
  dsimp only
  rw [htail, List.append_assoc, List.length_append]
  exact ⟨rfl, hend⟩

/-- Where the text of a format is defined, the loop of `va_printk` puts it into the buffer. -/
theorem loopPrints {e : ℕ} {buf : List Char} (he : e < buf.length) {fmt : List Char}
    (hfmt : '\x00' ∉ fmt) : LoopPrints e buf fmt := by
  induction hlen : fmt.length using Nat.strong_induction_on generalizing fmt with
  | _ len ih =>
    intro w args text hw h
    rcases hw.eq_or_lt with hfull | hroom
    · obtain ⟨rfl, hloop⟩ := @vaPrintkLoop_full e buf w hfull fmt args text h
      rw [List.append_nil]
      exact ⟨hloop, hw⟩
    have hlt : (w.length : ℤ) < e := by omega
    -- the rest of the format, which is shorter
    have hshorter {fmt' : List Char} (hle : fmt'.length < fmt.length) (hsub : fmt' ⊆ fmt) :
        LoopPrints e buf fmt' :=
      ih _ (hlen ▸ hle) (fun hmem => hfmt (hsub hmem)) rfl
    cases fmt with
    | nil =>
      cases h
      rw [List.nil_append, vaPrintkLoop_stop (.inl rfl), List.append_nil]
      exact ⟨rfl, hw⟩
    | cons c fmt =>
      have hc : c ≠ '\x00' := fun hnul => hfmt (hnul ▸ List.mem_cons_self)
      rw [RpiVm.vaPrintk, if_neg (by omega)] at h
      rw [List.cons_append]
      by_cases hpercent : c = '%'
      · subst hpercent
        rw [if_pos rfl] at h
        cases fmt with
        | nil => cases h
        | cons d fmt =>
          rw [List.cons_append]
          by_cases hd : d = '%'
          · subst hd
            have hfmt' : LoopPrints e buf fmt :=
              hshorter (by simp)
                (List.subset_cons_of_subset _ (List.subset_cons_self _ _))
            rw [RpiVm.vaPrintk, if_pos rfl] at h
            rw [vaPrintkLoop_percent hlt]
            exact hfmt'.char he hroom '%' h
          · rw [vaPrintk_percent hd] at h
            have hsuffix := scanWidth_suffix 0 (d :: fmt)
            rcases hscan : scanWidth 0 (d :: fmt) with ⟨width, _ | ⟨spec, rest⟩⟩
            · rw [hscan] at h
              cases h
            · have hnul : scanWidth 0 (d :: (fmt ++ ['\x00'])) =
                  (width, spec :: (rest ++ ['\x00'])) := by
                rw [← List.cons_append, scanWidth_append_nul, hscan]
                rfl
              rw [hscan] at h hsuffix
              have hle := hsuffix.length_le
              have hrest : LoopPrints e buf rest := by
                refine hshorter (by simp at hle ⊢; omega) ?_
                intro x hx
                exact List.mem_cons_of_mem _ (hsuffix.subset (List.mem_cons_of_mem _ hx))
              rw [vaPrintkLoop_convert hlt hd hnul]
              exact hrest.conversion he hw h
      · have hgo : ¬ (c = '\x00' ∨ ¬ (w.length : ℤ) < e) := by
          rintro (hnul | hend)
          · exact hc hnul
          · exact hend hlt
        have hfmt' : LoopPrints e buf fmt :=
          hshorter (by simp) (List.subset_cons_self _ _)
        rw [if_neg hpercent] at h
        rw [vaPrintkLoop_char hgo hpercent]
        exact hfmt'.char he hroom c h

/-- Where the text of a format is defined, `snprintk` puts it and a NUL into the buffer and
returns their length; it leaves the bytes behind and stays inside every array. -/
theorem snprintk_eq {n : BitVec 32} {buf : List Char} (hpos : 0 < n.toNat)
    (hn : n.toNat < 2 ^ 31) (hbuf : buf.length = n.toNat) {fmt : List Char} (hfmt : '\x00' ∉ fmt)
    {args : List PrintArg} {text : List Char}
    (h : RpiVm.vaPrintk fmt .text args (n.toNat - 1) = .ok text) :
    snprintk buf n fmt args = .ok (overlay (text ++ ['\x00']) buf, text.length + 1) := by
  have hint : n.toInt - 1 = ((n.toNat - 1 : ℕ) : ℤ) := by
    rw [BitVec.toInt_eq_toNat_of_lt (by omega)]
    omega
  have hfirst : store (overlay [] buf) ([] : List Char).length '\x00' =
      .ok (overlay ([] ++ ['\x00']) buf) := store_overlay (by rw [hbuf]; exact hpos) '\x00'
  have hlen : (overlay ['\x00'] buf).length = buf.length :=
    length_overlay (by rw [hbuf]; exact hpos)
  have hend : n.toNat - 1 < (overlay ['\x00'] buf).length := by omega
  have hnone : ([] : List Char).length ≤ n.toNat - 1 := Nat.zero_le _
  obtain ⟨hloop, hle⟩ := loopPrints hend hfmt hnone h
  rw [List.length_nil, Nat.zero_add] at hle
  rw [List.length_nil, Nat.zero_add, List.nil_append, overlay_nil] at hloop
  rw [List.length_nil, List.nil_append, overlay_nil] at hfirst
  have hlast := store_overlay (show text.length < (overlay ['\x00'] buf).length by omega) '\x00'
  rw [overlay_overlay (w := text ++ ['\x00']) (by simp)] at hlast
  rw [snprintk, vaPrintk]
  dsimp only
  rw [hint, ok_bind hfirst, ok_bind hloop]
  dsimp only
  rw [ok_bind hlast]
  rfl

end RpiVm.Print
