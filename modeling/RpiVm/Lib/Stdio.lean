import Mathlib

/-!
# Numbers and lines of text

What the C library does with the characters of a number, in both directions, and how
it reads a text line by line. The digits that are printed for a number read back as
that number, and a line that fits in the buffer is read whole.
-/

namespace CLib

/-! ## Characters -/

/-- `isspace`. -/
def isspace (c : Char) : Bool := c = ' ' || (9 ≤ c.toNat && c.toNat ≤ 13)

/-- `isdigit`. -/
def isdigit (c : Char) : Bool := 48 ≤ c.toNat && c.toNat ≤ 57

/-- The value of a digit or of a letter that stands for one; 36 is none. -/
def digitValue (c : Char) : ℕ :=
  if isdigit c then c.toNat - 48
  else if 97 ≤ c.toNat ∧ c.toNat ≤ 122 then c.toNat - 87
  else if 65 ≤ c.toNat ∧ c.toNat ≤ 90 then c.toNat - 55
  else 36

/-- `isxdigit`. -/
def isxdigit (c : Char) : Bool := digitValue c < 16

/-- A decimal digit has its own value. -/
theorem digitValue_of_isdigit {c : Char} (hc : isdigit c = true) : digitValue c < 10 := by
  have hle : 48 ≤ c.toNat ∧ c.toNat ≤ 57 := by simpa [isdigit] using hc
  rw [digitValue, if_pos hc]
  omega

/-! ## Numerals -/

/-- The value of digits in a base, highest first. -/
def numeral (base : ℕ) (s : List Char) : ℕ := s.foldl (fun v c => base * v + digitValue c) 0

/-- One more digit. -/
theorem numeral_concat (base : ℕ) (s : List Char) (c : Char) :
    numeral base (s ++ [c]) = base * numeral base s + digitValue c := by
  rw [numeral, List.foldl_append]
  rfl

/-- The digits printed for small numbers have their values. -/
theorem digitValue_digitChar {d : ℕ} (hd : d < 16) : digitValue (Nat.digitChar d) = d := by
  have hall : ∀ d : Fin 16, digitValue (Nat.digitChar d) = d := by decide
  exact hall ⟨d, hd⟩

/-- The printed digits of a number have its value. -/
theorem numeral_toDigits {base : ℕ} (hone : 1 < base) (hbase : base ≤ 16) (n : ℕ) :
    numeral base (Nat.toDigits base n) = n := by
  induction n using Nat.base_induction base hone with
  | single d hd =>
    have hvalue := digitValue_digitChar (lt_of_lt_of_le hd hbase)
    rw [Nat.toDigits_of_lt_base hd]
    simpa [numeral] using hvalue
  | digit n d hd hn ih =>
    rw [← Nat.toDigits_append_toDigits hone hn hd, Nat.toDigits_of_lt_base hd, numeral_concat, ih,
      digitValue_digitChar (lt_of_lt_of_le hd hbase)]

/-- What is printed for a number are digits of the base. -/
theorem mem_toDigits {base : ℕ} (hone : 1 < base) {n : ℕ} {c : Char}
    (hc : c ∈ Nat.toDigits base n) : ∃ d < base, c = Nat.digitChar d := by
  induction n using Nat.base_induction base hone with
  | single d hd =>
    rw [Nat.toDigits_of_lt_base hd] at hc
    exact ⟨d, hd, List.mem_singleton.mp hc⟩
  | digit n d hd hn ih =>
    rw [← Nat.toDigits_append_toDigits hone hn hd, Nat.toDigits_of_lt_base hd] at hc
    obtain hc | hc := List.mem_append.mp hc
    · exact ih hc
    · exact ⟨d, hd, List.mem_singleton.mp hc⟩

/-- Decimal digits are printed in base ten. -/
theorem isdigit_of_mem_toDigits {n : ℕ} {c : Char} (hc : c ∈ Nat.toDigits 10 n) :
    isdigit c = true := by
  obtain ⟨d, hd, rfl⟩ := mem_toDigits (by decide) hc
  have hall : ∀ d : Fin 10, isdigit (Nat.digitChar d) = true := by decide
  exact hall ⟨d, hd⟩

/-- Hexadecimal digits are printed in base sixteen. -/
theorem isxdigit_of_mem_toDigits {n : ℕ} {c : Char} (hc : c ∈ Nat.toDigits 16 n) :
    isxdigit c = true := by
  obtain ⟨d, hd, rfl⟩ := mem_toDigits (by decide) hc
  rw [isxdigit, digitValue_digitChar hd]
  exact decide_eq_true hd

/-! ## Printing and scanning -/

/-- The text of `%d` for an `int`. -/
def formatD (v : BitVec 32) : List Char :=
  if v.msb then '-' :: Nat.toDigits 10 (-v).toNat else Nat.toDigits 10 v.toNat

/-- The text of `%x` for an `unsigned`. -/
def formatX (v : BitVec 32) : List Char := Nat.toDigits 16 v.toNat

/-- The text of `%d` for a value that is not negative. -/
theorem formatD_of_lt {v : BitVec 32} (hv : v.toNat < 2 ^ 31) :
    formatD v = Nat.toDigits 10 v.toNat := by
  have hmsb : v.msb = false := by
    rw [BitVec.msb_eq_decide]
    exact decide_eq_false (by omega)
  rw [formatD, hmsb]
  rfl

/-- An optional sign, and the rest. -/
def splitSign : List Char → Bool × List Char
  | '-' :: s => (true, s)
  | '+' :: s => (false, s)
  | s => (false, s)

/-- `0x` in front of hexadecimal digits is passed over. -/
def skipHexPrefix : List Char → List Char
  | '0' :: x :: d :: s => if (x = 'x' ∨ x = 'X') ∧ isxdigit d then d :: s else '0' :: x :: d :: s
  | s => s

/-- `strtol` in base ten or sixteen, for a `long` of 64 bits. -/
def strtol (s : List Char) (base : ℕ) : ℤ :=
  let (neg, s) := splitSign (s.dropWhile isspace)
  let s := if base = 16 then skipHexPrefix s else s
  let v : ℤ := numeral base (s.takeWhile fun c => digitValue c < base)
  if neg then max (-v) (-2 ^ 63) else min v (2 ^ 63 - 1)

/-- A hexadecimal digit is no blank, sign or `x`. -/
theorem isxdigit_ne {c : Char} (hc : isxdigit c = true) :
    isspace c = false ∧ c ≠ '-' ∧ c ≠ '+' ∧ c ≠ 'x' ∧ c ≠ 'X' := by
  have hblank : isspace c = false := by
    by_contra h
    have hspace : c = ' ' ∨ 9 ≤ c.toNat ∧ c.toNat ≤ 13 := by
      simpa [isspace, or_iff_not_imp_left] using h
    have hvalue : digitValue c = 36 := by
      obtain rfl | hspace := hspace
      · rfl
      · have hdigit : isdigit c = false := by simp [isdigit]; omega
        rw [digitValue, if_neg (by simp [hdigit]), if_neg (by omega), if_neg (by omega)]
    simp [isxdigit, hvalue] at hc
  refine ⟨hblank, ?_, ?_, ?_, ?_⟩ <;>
  · rintro rfl
    exact absurd hc (by decide)

/-- `strtol` makes of digits alone their value, or the last `long`. -/
theorem strtol_eq_min {s : List Char} {base : ℕ} (hbase : base ≤ 16)
    (hs : ∀ c ∈ s, digitValue c < base) :
    strtol s base = min (numeral base s : ℤ) (2 ^ 63 - 1) := by
  have hx : ∀ c ∈ s, isxdigit c = true := fun c hc =>
    decide_eq_true (lt_of_lt_of_le (hs c hc) hbase)
  have hdrop : s.dropWhile isspace = s := by
    cases s with
    | nil => rfl
    | cons c s =>
      have hblank := (isxdigit_ne (hx c List.mem_cons_self)).1
      rw [List.dropWhile_cons, hblank]
      rfl
  have hsign : splitSign s = (false, s) := by
    unfold splitSign
    split
    · exact absurd rfl (isxdigit_ne (hx '-' List.mem_cons_self)).2.1
    · exact absurd rfl (isxdigit_ne (hx '+' List.mem_cons_self)).2.2.1
    · rfl
  have hskip : skipHexPrefix s = s := by
    unfold skipHexPrefix
    split
    · rename_i x d s
      obtain ⟨_, _, _, hx₁, hx₂⟩ := isxdigit_ne (hx x (by simp))
      exact if_neg fun h => h.1.elim hx₁ hx₂
    · rfl
  have htake : s.takeWhile (fun c => digitValue c < base) = s :=
    List.takeWhile_eq_self_iff.mpr fun c hc => decide_eq_true (hs c hc)
  simp only [strtol, hdrop, hsign, hskip, ite_self, htake]
  rfl

/-- `strtol` makes of digits alone their value, if it is a `long`. -/
theorem strtol_digits {s : List Char} {base : ℕ} (hbase : base ≤ 16)
    (hs : ∀ c ∈ s, digitValue c < base) (hv : numeral base s < 2 ^ 63) :
    strtol s base = numeral base s := by
  rw [strtol_eq_min hbase hs]
  omega

/-! ## Lines -/

/-- A string ends at the first null character. -/
def cString (s : List Char) : List Char := s.takeWhile (· ≠ '\x00')

/-- Up to a number of characters, or through the end of the line. -/
def splitLine : ℕ → List Char → List Char × List Char
  | 0, s => ([], s)
  | _ + 1, [] => ([], [])
  | n + 1, c :: s =>
    if c = '\n' then ([c], s)
    else
      let (line, rest) := splitLine n s
      (c :: line, rest)

/-- `fgets`: what it stores in a buffer of some size, and the rest of the file. -/
def fgets (size : ℕ) (file : List Char) : Option (List Char × List Char) :=
  if file = [] then none else some (splitLine (size - 1) file)

/-- Nothing is lost of a line. -/
theorem length_splitLine (n : ℕ) (s : List Char) :
    (splitLine n s).1.length + (splitLine n s).2.length = s.length := by
  induction n generalizing s with
  | zero => simp [splitLine]
  | succ n ih =>
    cases s with
    | nil => rfl
    | cons c s =>
      have hrest := ih s
      rw [splitLine]
      split_ifs
      · simp only [List.length_cons, List.length_nil]
        omega
      · simp only [List.length_cons]
        omega

/-- A line that fits is read whole. -/
theorem splitLine_append {n : ℕ} {line : List Char} (rest : List Char) (hline : '\n' ∉ line)
    (hlen : line.length < n) : splitLine n (line ++ '\n' :: rest) = (line ++ ['\n'], rest) := by
  induction line generalizing n with
  | nil =>
    obtain ⟨n, rfl⟩ := Nat.exists_eq_succ_of_ne_zero (Nat.ne_of_gt hlen)
    simp [splitLine]
  | cons c line ih =>
    obtain ⟨n, rfl⟩ := Nat.exists_eq_succ_of_ne_zero (Nat.ne_of_gt (Nat.zero_lt_of_lt hlen))
    rw [List.mem_cons, not_or] at hline
    obtain ⟨hc, hline⟩ := hline
    have htail := ih hline (Nat.lt_of_succ_lt_succ hlen)
    rw [List.cons_append, splitLine, if_neg (Ne.symm hc), htail]
    rfl

/-- `fgets` reads a line that fits in the buffer. -/
theorem fgets_append {size : ℕ} {line : List Char} (rest : List Char) (hline : '\n' ∉ line)
    (hlen : line.length + 1 < size) :
    fgets size (line ++ '\n' :: rest) = some (line ++ ['\n'], rest) := by
  rw [fgets, if_neg (by simp), splitLine_append rest hline (by omega)]

/-- `fgets` leaves less than it was given, if the buffer has room for a character. -/
theorem fgets_lt {size : ℕ} {file line rest : List Char} (hsize : 1 < size)
    (h : fgets size file = some (line, rest)) : rest.length < file.length := by
  obtain ⟨n, hn⟩ : ∃ n, size - 1 = n + 1 := ⟨size - 2, by omega⟩
  rw [fgets, hn] at h
  split_ifs at h with hfile
  obtain ⟨c, s, rfl⟩ := List.exists_cons_of_ne_nil hfile
  have hlen := length_splitLine (n + 1) (c :: s)
  rw [Option.some.inj h] at hlen
  have hline : 0 < line.length := by
    rw [splitLine] at h
    split_ifs at h <;> simp only [Option.some.injEq, Prod.mk.injEq] at h <;> simp [← h.1]
  simp only at hlen
  omega

/-- The lines of a file, each with its end. -/
def fileLines : List Char → List (List Char)
  | [] => []
  | c :: s =>
    if c = '\n' then [c] :: fileLines s
    else
      match fileLines s with
      | [] => [[c]]
      | line :: lines => (c :: line) :: lines

/-- Only the empty file has no lines. -/
theorem fileLines_eq_nil {file : List Char} (h : fileLines file = []) : file = [] := by
  cases file with
  | nil => rfl
  | cons c s =>
    rw [fileLines] at h
    split at h
    · exact absurd h (List.cons_ne_nil _ _)
    · split at h <;> exact absurd h (List.cons_ne_nil _ _)

/-- The first line, if it fits. -/
theorem splitLine_fileLines {n : ℕ} {file line : List Char} {lines : List (List Char)}
    (h : fileLines file = line :: lines) (hlen : line.length ≤ n) :
    ∃ rest, splitLine n file = (line, rest) ∧ fileLines rest = lines := by
  induction file generalizing n line lines with
  | nil => exact absurd h.symm (List.cons_ne_nil _ _)
  | cons c s ih =>
    rw [fileLines] at h
    by_cases hc : c = '\n'
    · rw [if_pos hc] at h
      obtain ⟨rfl, rfl⟩ := List.cons.inj h
      obtain ⟨n, rfl⟩ : ∃ k, n = k + 1 := ⟨n - 1, by rw [List.length_singleton] at hlen; omega⟩
      exact ⟨s, by rw [splitLine, if_pos hc], rfl⟩
    · rw [if_neg hc] at h
      cases hs : fileLines s with
      | nil =>
        rw [hs] at h
        obtain ⟨rfl, rfl⟩ := List.cons.inj h
        obtain ⟨n, rfl⟩ : ∃ k, n = k + 1 := ⟨n - 1, by rw [List.length_singleton] at hlen; omega⟩
        obtain rfl := fileLines_eq_nil hs
        refine ⟨[], ?_, rfl⟩
        rw [splitLine, if_neg hc]
        cases n <;> rfl
      | cons line' lines' =>
        rw [hs] at h
        obtain ⟨rfl, rfl⟩ := List.cons.inj h
        obtain ⟨n, rfl⟩ : ∃ k, n = k + 1 := ⟨n - 1, by rw [List.length_cons] at hlen; omega⟩
        obtain ⟨rest, hrest, hlines⟩ := ih hs (Nat.le_of_succ_le_succ hlen)
        exact ⟨rest, by rw [splitLine, if_neg hc, hrest], hlines⟩

/-- `fgets` reads line by line, if the lines fit in the buffer. -/
theorem fgets_fileLines {size : ℕ} {file line : List Char} {lines : List (List Char)}
    (h : fileLines file = line :: lines) (hlen : line.length < size) :
    ∃ rest, fgets size file = some (line, rest) ∧ fileLines rest = lines := by
  have hne : file ≠ [] := by
    rintro rfl
    exact absurd h.symm (List.cons_ne_nil _ _)
  obtain ⟨rest, hrest, hlines⟩ := splitLine_fileLines h (Nat.le_sub_one_of_lt hlen)
  exact ⟨rest, by rw [fgets, if_neg hne, hrest], hlines⟩

end CLib
