import RpiVm.Lib.Stdio
import RpiVm.Snprintk

/-!
# What formats print

The text that a format and its arguments stand for, written down apart from the code: a
list of items, each with its part of the format, its arguments and its text. `snprintk`
leaves the beginning of that text in the buffer. What it returns for any format is the number of
bytes that it wrote, which is not the length of the text that its contract promises.
-/

namespace RpiVm

open CLib

/-! ## Items -/

/-- The width of a conversion: decimal digits for a number below 32, or none. -/
structure Width where
  /-- The digits. -/
  digits : List Char
  /-- They are digits. -/
  isDigit : ∀ c ∈ digits, c.isDigit = true
  /-- The number is small. -/
  small : numeral 10 digits < 32

/-- The number of columns. -/
def Width.value (w : Width) : ℕ := numeral 10 w.digits

/-- The conversions of a number. -/
inductive NumSpec where
  /-- Signed decimal. -/
  | d
  /-- Unsigned decimal. -/
  | u
  /-- Hexadecimal. -/
  | x
  /-- Hexadecimal, for a pointer. -/
  | p
  /-- Binary. -/
  | b

/-- The letter of a conversion. -/
def NumSpec.letter : NumSpec → Char
  | d => 'd'
  | u => 'u'
  | x => 'x'
  | p => 'p'
  | b => 'b'

/-- The canonical digits of a number. -/
def NumSpec.numeral : NumSpec → BitVec 32 → List Char
  | d, v => formatD v
  | u, v => Nat.toDigits 10 v.toNat
  | x, v => formatX v
  | p, v => formatX v
  | b, v => Nat.toDigits 2 v.toNat

/-- A piece of a format, with its argument. -/
inductive Item where
  /-- An ordinary character. -/
  | literal (c : Char) (hpercent : c ≠ '%') (hnul : c ≠ '\x00')
  /-- Two percent signs. -/
  | percent
  /-- A number. -/
  | number (w : Width) (spec : NumSpec) (v : BitVec 32)
  /-- A character, the low byte of the argument. -/
  | character (w : Width) (v : BitVec 32) (hnul : v.toNat % 256 ≠ 0)
  /-- A string, up to its NUL. -/
  | string (s : String)

/-- Blanks in front of a text that is shorter than the width. -/
def padLeft (w : ℕ) (text : List Char) : List Char :=
  List.replicate (w - text.length) ' ' ++ text

namespace Item

/-- The part of the format. -/
def format : Item → List Char
  | literal c _ _ => [c]
  | percent => ['%', '%']
  | number w spec _ => '%' :: (w.digits ++ [spec.letter])
  | character w _ _ => '%' :: (w.digits ++ ['c'])
  | string _ => ['%', 's']

/-- The arguments. -/
def args : Item → List PrintArg
  | literal _ _ _ => []
  | percent => []
  | number _ _ v => [.word v]
  | character _ v _ => [.word v]
  | string s => [.str s]

/-- The text. -/
def text : Item → List Char
  | literal c _ _ => [c]
  | percent => ['%']
  | number w spec v => padLeft w.value (spec.numeral v)
  | character w v _ => padLeft w.value [Char.ofNat (v.toNat % 256)]
  | string s => cString s.toList

end Item

/-- The format of some items. -/
def formatOf (items : List Item) : List Char := items.flatMap Item.format

/-- The arguments of some items. -/
def argsOf (items : List Item) : List PrintArg := items.flatMap Item.args

/-- The text of some items. -/
def textOf (items : List Item) : List Char := items.flatMap Item.text

/-! ## Digits -/

/-- The digits that `emit` produces are the canonical ones in reverse. -/
theorem reverse_emitDigits {base : ℕ} (hbase : 1 < base) {rounds u : ℕ} (hu : u < base ^ rounds)
    (hrounds : 0 < rounds) : (emitDigits base rounds u).reverse = Nat.toDigits base u := by
  induction rounds generalizing u with
  | zero => exact absurd hrounds (lt_irrefl 0)
  | succ rounds ih =>
    rw [emitDigits]
    by_cases hlast : u / base = 0
    · have hlt : u < base := (Nat.div_eq_zero_iff.mp hlast).resolve_left (by omega)
      rw [if_pos hlast, Nat.toDigits_of_lt_base hlt, Nat.mod_eq_of_lt hlt]
      rfl
    · have hle : base ≤ u := by
        by_contra hlt
        exact hlast (Nat.div_eq_of_lt (Nat.lt_of_not_le hlt))
      have hu' : u / base < base ^ rounds := by
        rw [Nat.div_lt_iff_lt_mul (by omega), ← pow_succ]
        exact hu
      have hrounds' : 0 < rounds := by
        rcases Nat.eq_zero_or_pos rounds with rfl | hpos
        · exact absurd (Nat.lt_one_iff.mp hu') hlast
        · exact hpos
      rw [if_neg hlast, List.reverse_cons, ih hu' hrounds', Nat.toDigits_of_base_le hbase hle]

/-- The digits of a word. -/
theorem reverse_emitDigits_word {base : ℕ} (hbase : 1 < base) (u : BitVec 32) :
    (emitDigits base 32 u.toNat).reverse = Nat.toDigits base u.toNat :=
  reverse_emitDigits hbase (lt_of_lt_of_le u.isLt (Nat.pow_le_pow_left hbase 32)) (by decide)

/-- What `emit` produces is padded on the left. -/
theorem emit_eq_padLeft (base : ℕ) (v w : BitVec 32) (signed : Bool) :
    emit base v w signed = padLeft w.toNat (Print.reversedDigits base v signed).reverse := by
  rw [padLeft, List.length_reverse]
  show (pad (Print.reversedDigits base v signed) w.toNat).reverse = _
  rw [pad, List.reverse_append, List.reverse_replicate]

/-- The digits of an unsigned number. -/
theorem reversedDigits_unsigned {base : ℕ} (hbase : 1 < base) (hne : base ≠ 8) (v : BitVec 32) :
    (Print.reversedDigits base v false).reverse = Nat.toDigits base v.toNat := by
  rw [Print.reversedDigits, if_neg hne, if_neg (by simp)]
  exact reverse_emitDigits_word hbase v

/-- The digits of a signed number. -/
theorem reversedDigits_signed (v : BitVec 32) :
    (Print.reversedDigits 10 v true).reverse = formatD v := by
  rw [Print.reversedDigits, if_neg (by decide), formatD]
  cases hmsb : v.msb with
  | false =>
    rw [if_neg (by simp), if_neg (by simp)]
    exact reverse_emitDigits_word (by decide) v
  | true =>
    rw [if_pos (by simp), if_pos rfl, List.reverse_append, reverse_emitDigits_word (by decide)]
    rfl

/-! ## One item -/

/-- A digit of a width is one for `isdigit`. -/
theorem isdigit_of_isDigit {c : Char} (h : c.isDigit = true) : isdigit c = true := by
  simp only [Char.isDigit, Bool.and_eq_true, decide_eq_true_eq, ge_iff_le,
    UInt32.le_iff_toNat_le] at h
  rw [isdigit, Bool.and_eq_true]
  exact ⟨decide_eq_true h.1, decide_eq_true h.2⟩

/-- What the digits of a width are scanned as. -/
theorem scanWidth_digits {ds : List Char} (hds : ∀ c ∈ ds, c.isDigit = true) {spec : Char}
    (hspec : spec.isDigit = false) (n : ℕ) (fmt : List Char) :
    Print.scanWidth (BitVec.ofNat 32 n) (ds ++ spec :: fmt) =
      (BitVec.ofNat 32 (ds.foldl (fun v c => 10 * v + digitValue c) n), spec :: fmt) := by
  induction ds generalizing n with
  | nil =>
    rw [List.nil_append, Print.scanWidth, if_neg (by simp [hspec])]
    rfl
  | cons c ds ih =>
    obtain ⟨hc, hds⟩ := List.forall_mem_cons.mp hds
    have hvalue : digitValue c = c.toNat - 48 := if_pos (isdigit_of_isDigit hc)
    have hadd : addDigit (BitVec.ofNat 32 n) c = BitVec.ofNat 32 (10 * n + digitValue c) := by
      rw [addDigit, hvalue, BitVec.ofNat_add, BitVec.ofNat_mul, BitVec.mul_comm]
      rfl
    rw [List.cons_append, Print.scanWidth, if_pos hc, hadd]
    exact ih hds _

/-- A width that is scanned. -/
theorem scanWidth_width (w : Width) {spec : Char} (hspec : spec.isDigit = false) (fmt : List Char) :
    Print.scanWidth 0 (w.digits ++ spec :: fmt) = (BitVec.ofNat 32 w.value, spec :: fmt) :=
  scanWidth_digits w.isDigit hspec 0 fmt

/-- A string is copied as far as there is room. -/
theorem copyString_eq (s : List Char) (room : ℕ) : copyString s room = (cString s).take room := by
  have hnul : (fun c : Char => c.toNat != 0) = fun c => decide (c ≠ '\x00') := by
    funext c
    rw [Bool.eq_iff_iff, bne_iff_ne, decide_eq_true_iff, not_iff_not]
    exact ⟨fun h => Char.ext (UInt32.toNat_inj.mp h), fun h => congrArg Char.toNat h⟩
  rw [copyString, hnul]
  rfl

/-- A text without NUL is copied as far as there is room. -/
theorem copyString_of_not_mem {s : List Char} (h : '\x00' ∉ s) (room : ℕ) :
    copyString s room = s.take room := by
  have hall : cString s = s := by
    refine List.takeWhile_eq_self_iff.mpr fun c hc => decide_eq_true ?_
    rintro rfl
    exact h hc
  rw [copyString_eq, hall]

/-- A conversion puts its text in front of the text of the rest. -/
theorem vaPrintk_conversion (w : Width) {spec : Char} (hspec : spec.isDigit = false)
    (hpercent : spec ≠ '%') {args args' : List PrintArg} {s fmt rest : List Char} {room : ℕ}
    (hconvert : convert (BitVec.ofNat 32 w.value) spec args = .ok (s, args'))
    (hrest : ∀ room, vaPrintk fmt .text args' room = .ok (rest.take room)) {text : List Char}
    (htext : ∀ room, copyString s room = text.take room) :
    vaPrintk ('%' :: (w.digits ++ spec :: fmt)) .text args room =
      .ok ((text ++ rest).take room) := by
  cases room with
  | zero =>
    rw [vaPrintk, if_pos rfl, List.take_zero]
    rfl
  | succ room =>
    have hstep : vaPrintk (w.digits ++ spec :: fmt) .percent args (room + 1) =
        Print.afterWidth args (room + 1) (Print.scanWidth 0 (w.digits ++ spec :: fmt)) := by
      cases hds : w.digits with
      | nil => exact Print.vaPrintk_percent hpercent _ _ _
      | cons c ds =>
        have hc : c ≠ '%' := by
          rintro rfl
          exact absurd (w.isDigit '%' (hds ▸ List.mem_cons_self)) (by decide)
        exact Print.vaPrintk_percent hc _ _ _
    have hlen : room + 1 - ((text.take (room + 1)).length) = room + 1 - text.length := by
      rw [List.length_take]
      omega
    rw [vaPrintk, if_neg (Nat.succ_ne_zero _), if_pos rfl, hstep, scanWidth_width w hspec,
      Print.afterWidth, ok_bind hconvert]
    dsimp only
    rw [htext, ok_bind (hrest _), hlen, List.take_append]
    rfl

/-- The digits printed for a number are no NUL. -/
theorem nul_not_mem_toDigits {base : ℕ} (hone : 1 < base) (hbase : base ≤ 16) (n : ℕ) :
    '\x00' ∉ Nat.toDigits base n := by
  intro hmem
  obtain ⟨d, hd, hnul⟩ := mem_toDigits hone hmem
  have hall : ∀ d : Fin 16, '\x00' ≠ Nat.digitChar d := by decide
  exact hall ⟨d, lt_of_lt_of_le hd hbase⟩ hnul

/-- The numeral of a number has no NUL. -/
theorem NumSpec.nul_not_mem (spec : NumSpec) (v : BitVec 32) : '\x00' ∉ spec.numeral v := by
  cases spec with
  | d =>
    rw [NumSpec.numeral, formatD]
    split_ifs
    · rw [List.mem_cons, not_or]
      exact ⟨by decide, nul_not_mem_toDigits (by decide) (by decide) _⟩
    · exact nul_not_mem_toDigits (by decide) (by decide) _
  | u => exact nul_not_mem_toDigits (by decide) (by decide) _
  | x => exact nul_not_mem_toDigits (by decide) (by decide) _
  | p => exact nul_not_mem_toDigits (by decide) (by decide) _
  | b => exact nul_not_mem_toDigits (by decide) (by decide) _

/-- Padding adds no NUL. -/
theorem nul_not_mem_padLeft {text : List Char} (h : '\x00' ∉ text) (w : ℕ) :
    '\x00' ∉ padLeft w text := by
  rw [padLeft, List.mem_append, not_or]
  exact ⟨fun hmem => absurd (List.eq_of_mem_replicate hmem) (by decide), h⟩

/-- The low byte of a word that is not zero. -/
theorem ofNat_ne_nul {k : ℕ} (hk : k % 256 ≠ 0) : Char.ofNat (k % 256) ≠ '\x00' := by
  intro hnul
  have hvalid : (k % 256).isValidChar := .inl (by omega)
  have htoNat : (Char.ofNat (k % 256)).toNat = k % 256 := by
    rw [Char.ofNat, dif_pos hvalid]
    rfl
  rw [hnul] at htoNat
  exact hk htoNat.symm

/-- No text has a NUL. -/
theorem Item.nul_not_mem (item : Item) : '\x00' ∉ item.text := by
  cases item with
  | literal c _ hnul => exact fun hmem => hnul (List.mem_singleton.mp hmem).symm
  | percent => decide
  | number w spec v => exact nul_not_mem_padLeft (spec.nul_not_mem v) _
  | character w v hnul =>
    refine nul_not_mem_padLeft (fun hmem => ?_) _
    exact ofNat_ne_nul hnul (List.mem_singleton.mp hmem).symm
  | string s =>
    intro hmem
    have := List.mem_takeWhile_imp hmem
    exact absurd this (by decide)

/-- The width of a conversion, as the code has it. -/
theorem Width.toNat (w : Width) : (BitVec.ofNat 32 w.value).toNat = w.value := by
  have := w.small
  rw [BitVec.toNat_ofNat]
  exact Nat.mod_eq_of_lt (by rw [Width.value]; omega)

/-- The width of a conversion passes the check. -/
theorem Width.assert (w : Width) :
    CLib.assert (decide (BitVec.ofNat 32 w.value < 32)) "width < 32" = .ok () := by
  refine assert_eq_ok.mpr (decide_eq_true (BitVec.lt_def.mpr ?_))
  rw [w.toNat]
  exact w.small

/-- A number is converted to its padded numeral. -/
theorem convert_number (w : Width) (spec : NumSpec) (v : BitVec 32) (args : List PrintArg) :
    convert (BitVec.ofNat 32 w.value) spec.letter (.word v :: args) =
      .ok (padLeft w.value (spec.numeral v), args) := by
  have hpad : ∀ base signed, emit base v (BitVec.ofNat 32 w.value) signed =
      padLeft w.value (Print.reversedDigits base v signed).reverse := by
    intro base signed
    rw [emit_eq_padLeft, w.toNat]
  unfold convert
  rw [ok_bind w.assert]
  cases spec with
  | d =>
    rw [NumSpec.numeral, ← reversedDigits_signed, ← hpad]
    rfl
  | u =>
    rw [NumSpec.numeral, ← reversedDigits_unsigned (by decide) (by decide), ← hpad]
    rfl
  | x =>
    rw [NumSpec.numeral, formatX, ← reversedDigits_unsigned (by decide) (by decide), ← hpad]
    rfl
  | p =>
    rw [NumSpec.numeral, formatX, ← reversedDigits_unsigned (by decide) (by decide), ← hpad]
    rfl
  | b =>
    rw [NumSpec.numeral, ← reversedDigits_unsigned (by decide) (by decide), ← hpad]
    rfl

/-- A character is converted to itself, padded. -/
theorem convert_character (w : Width) (v : BitVec 32) (args : List PrintArg) :
    convert (BitVec.ofNat 32 w.value) 'c' (.word v :: args) =
      .ok (padLeft w.value [Char.ofNat (v.toNat % 256)], args) := by
  have hemit := emit_eq_padLeft 8 v (BitVec.ofNat 32 w.value) false
  rw [w.toNat, Print.reversedDigits, if_pos rfl, List.reverse_singleton] at hemit
  unfold convert
  rw [ok_bind w.assert, ← hemit]
  rfl

/-- No width. -/
def Width.none : Width := ⟨[], fun _ h => absurd h List.not_mem_nil, by decide⟩

/-- An item puts its text in front of the text of the rest. -/
theorem vaPrintk_item (item : Item) {fmt : List Char} {args : List PrintArg} {rest : List Char}
    (hrest : ∀ room, vaPrintk fmt .text args room = .ok (rest.take room)) (room : ℕ) :
    vaPrintk (item.format ++ fmt) .text (item.args ++ args) room =
      .ok ((item.text ++ rest).take room) := by
  have hcopy := copyString_of_not_mem item.nul_not_mem
  cases item with
  | literal c hpercent hnul =>
    cases room with
    | zero => rfl
    | succ room =>
      rw [Item.format, List.singleton_append, vaPrintk, if_neg (Nat.succ_ne_zero _),
        if_neg hpercent]
      exact ok_bind (hrest room) _
  | percent =>
    cases room with
    | zero => rfl
    | succ room =>
      rw [Item.format, List.cons_append, vaPrintk, if_neg (Nat.succ_ne_zero _), if_pos rfl]
      exact ok_bind (hrest room) _
  | number w spec v =>
    have hspec : spec.letter.isDigit = false ∧ spec.letter ≠ '%' := by
      cases spec <;> decide
    have happend : (Item.number w spec v).format ++ fmt =
        '%' :: (w.digits ++ spec.letter :: fmt) := by simp [Item.format]
    rw [happend]
    exact vaPrintk_conversion w hspec.1 hspec.2 (convert_number w spec v args) hrest hcopy
  | character w v hnul =>
    have happend : (Item.character w v hnul).format ++ fmt = '%' :: (w.digits ++ 'c' :: fmt) := by
      simp [Item.format]
    rw [happend]
    exact vaPrintk_conversion w (by decide) (by decide) (convert_character w v args) hrest hcopy
  | string s =>
    have hconvert : convert (BitVec.ofNat 32 Width.none.value) 's' (.str s :: args) =
        .ok (s.toList, args) := rfl
    exact vaPrintk_conversion Width.none (by decide) (by decide) hconvert hrest
      (copyString_eq s.toList)

/-- The text of `va_printk` for items and their arguments is the beginning of their text. -/
theorem vaPrintk_items (items : List Item) (extra : List PrintArg) (room : ℕ) :
    vaPrintk (formatOf items) .text (argsOf items ++ extra) room =
      .ok ((textOf items).take room) := by
  induction items generalizing room with
  | nil => exact congrArg _ List.take_nil.symm
  | cons item items ih =>
    rw [formatOf, argsOf, textOf, List.flatMap_cons, List.flatMap_cons, List.flatMap_cons,
      List.append_assoc]
    exact vaPrintk_item item ih room

/-- The format of an item has no NUL. -/
theorem Item.nul_not_mem_format (item : Item) : '\x00' ∉ item.format := by
  have hwidth (w : Width) (c : Char) (hc : c ≠ '\x00') : '\x00' ∉ '%' :: (w.digits ++ [c]) := by
    intro hmem
    rcases List.mem_cons.mp hmem with h | h
    · exact absurd h (by decide)
    · rcases List.mem_append.mp h with h | h
      · exact absurd (w.isDigit _ h) (by decide)
      · exact hc (List.mem_singleton.mp h).symm
  cases item with
  | literal c _ hnul => exact fun hmem => hnul (List.mem_singleton.mp hmem).symm
  | percent => decide
  | number w spec v => exact hwidth w spec.letter (by cases spec <;> decide)
  | character w v hnul => exact hwidth w 'c' (by decide)
  | string s => exact (by decide : '\x00' ∉ ['%', 's'])

/-- No format of items has a NUL. -/
theorem nul_not_mem_formatOf (items : List Item) : '\x00' ∉ formatOf items := by
  intro hmem
  obtain ⟨item, -, hitem⟩ := List.mem_flatMap.mp hmem
  exact item.nul_not_mem_format hitem

/-! ## The buffer -/

/-- What `snprintk` writes and returns, if there is a byte at least. -/
theorem snprintk_cut {n : BitVec 32} (hpos : 1 ≤ n.toNat) (hn : n.toNat < 2 ^ 31)
    {fmt : List Char} (hfmt : '\x00' ∉ fmt) {args : List PrintArg} {text : List Char}
    (htext : vaPrintk fmt .text args (n.toNat - 1) = .ok (text.take (n.toNat - 1)))
    {buf : List Char} (hbuf : buf.length = n.toNat) :
    Print.snprintk buf n fmt args =
      .ok (text.take (n.toNat - 1) ++ '\x00' :: buf.drop (min text.length (n.toNat - 1) + 1),
        min text.length (n.toNat - 1) + 1) := by
  have hlen : (text.take (n.toNat - 1)).length = min text.length (n.toNat - 1) := by
    rw [List.length_take, Nat.min_comm]
  rw [Print.snprintk_eq hpos hn hbuf hfmt htext, overlay, List.length_append,
    List.length_singleton, hlen, List.append_assoc]
  rfl

/-- `snprintk` formats and truncates: in a buffer of the size given it leaves the beginning of the
text that fits in front of a NUL, and every byte behind the NUL as it was; no access leaves the
buffer or one of the local arrays, and none reads what was not written. -/
theorem snprintk_formats {n : BitVec 32} (hpos : 1 ≤ n.toNat) (hn : n.toNat < 2 ^ 31)
    (items : List Item) (extra : List PrintArg) {buf : List Char} (hbuf : buf.length = n.toNat) :
    ∃ r, Print.snprintk buf n (formatOf items) (argsOf items ++ extra) =
      .ok ((textOf items).take (n.toNat - 1) ++
        '\x00' :: buf.drop (min (textOf items).length (n.toNat - 1) + 1), r) :=
  ⟨_, snprintk_cut hpos hn (nul_not_mem_formatOf items) (vaPrintk_items items extra _) hbuf⟩

/-- A signed number, truncated in a buffer of four. -/
theorem snprintk_formats_negative : ∃ r, Print.snprintk (List.replicate 4 '?') 4
    (formatOf [.number Width.none .d 0x80000000])
    (argsOf [.number Width.none .d 0x80000000] ++ []) = .ok (['-', '2', '1', '\x00'], r) :=
  snprintk_formats (by decide) (by decide) [.number Width.none .d 0x80000000] [] rfl

/-! ## The contract -/

/-- The contract of `snprintk` for a buffer of the size given and the text that would be written if
there were enough space: it stores within the buffer, and returns the length of that text, so that
what it returns is the size or more exactly if the buffer does not hold the text and its NUL. -/
def KeepsContract (n : BitVec 32) (fmt : List Char) (args : List PrintArg)
    (text buf : List Char) : Prop :=
  ∃ buf' r, Print.snprintk buf n fmt args = .ok (buf', r) ∧ r = text.length ∧
    (n.toNat ≤ r ↔ ¬ text ++ ['\x00'] <+: buf')

/-- Items would write their text. -/
theorem wouldWrite_items (items : List Item) (extra : List PrintArg) :
    WouldWrite (formatOf items) (argsOf items ++ extra) (textOf items) := by
  refine ⟨(textOf items).length + 1, Nat.lt_succ_self _, ?_⟩
  rw [vaPrintk_items, List.take_of_length_le (Nat.le_succ _)]

/-- For every size below `2 ^ 31`, every format that `va_printk` supports and all arguments the
contract is kept exactly if the size is not zero and equals the length of the whole text. -/
theorem keepsContract_iff {n : BitVec 32} (hn : n.toNat < 2 ^ 31) {fmt : List Char}
    (hfmt : '\x00' ∉ fmt) {args : List PrintArg} {text : List Char}
    (htext : WouldWrite fmt args text) {buf : List Char} (hbuf : buf.length = n.toNat) :
    KeepsContract n fmt args text buf ↔ 1 ≤ n.toNat ∧ text.length = n.toNat := by
  rcases Nat.eq_zero_or_pos n.toNat with hzero | hpos
  · refine iff_of_false ?_ fun h => by omega
    rintro ⟨buf', r, hok, -⟩
    obtain rfl : buf = [] := List.eq_nil_of_length_eq_zero (hbuf.trans hzero)
    cases hok
  · have hprint := snprintk_cut hpos hn hfmt (htext.vaPrintk_eq _) hbuf
    constructor
    · rintro ⟨buf', r, hok, hr, -⟩
      have hret := congrArg Prod.snd (Except.ok.inj (hok.symm.trans hprint))
      dsimp only at hret
      refine ⟨hpos, ?_⟩
      omega
    · rintro ⟨-, hlen⟩
      refine ⟨_, _, hprint, by omega, iff_of_true (by omega) fun hprefix => ?_⟩
      -- a text as long as the buffer leaves no place for its NUL
      have hle := hprefix.length_le
      simp at hle
      omega

/-- A number of one digit in a buffer of one. -/
theorem keepsContract_iff_one :
    KeepsContract 1 ['%', 'u'] [.word 7] ['7'] ['?'] ↔
      1 ≤ (1 : BitVec 32).toNat ∧ ['7'].length = (1 : BitVec 32).toNat :=
  keepsContract_iff (by decide) (by decide) ⟨2, by decide, rfl⟩ rfl

/-- For a text of one character that fits, two is returned; and a buffer of no bytes is written
to. -/
theorem snprintk_counts_nul :
    Print.snprintk ['?', '?', '?'] 3 ['a'] [] = .ok (['a', '\x00', '?'], 2) ∧
    Print.snprintk [] 0 ['a'] [] = .error .outOfBounds ∧
    WouldWrite ['a'] [] ['a'] ∧ ¬ KeepsContract 3 ['a'] [] ['a'] ['?', '?', '?'] := by
  have hprint : Print.snprintk ['?', '?', '?'] 3 ['a'] [] = .ok (['a', '\x00', '?'], 2) :=
    Print.snprintk_eq (n := 3) (by decide) (by decide) rfl (by decide : '\x00' ∉ ['a']) rfl
  refine ⟨hprint, rfl, ⟨2, by decide, rfl⟩, ?_⟩
  rintro ⟨buf', r, hok, hr, -⟩
  have hret := congrArg Prod.snd (Except.ok.inj (hok.symm.trans hprint))
  exact absurd (hret.symm.trans hr) (by decide)

end RpiVm
