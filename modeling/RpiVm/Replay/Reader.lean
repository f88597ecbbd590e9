import RpiVm.Replay.RoundTrip

/-!
# The reader on any text

What `read_input` does with every file: which lines it takes, which of the others end it
with a message, and where it reads through a null pointer. It does so for the field of the
operation when no character ends it.
-/

namespace RpiVm.Replay

open CLib

/-! ## The form of a line -/

/-- A line with its fields: `TRACE`, an operation, decimal digits and hexadecimal digits, each
ended by a colon or a blank. -/
def HasFields (line : List Char) (op : Op) (dec hex : List Char) : Prop :=
  ∃ s₁ s₂ s₃ s₄ rest, (∀ s ∈ [s₁, s₂, s₃, s₄], isSep s = true) ∧
    line = "TRACE".toList ++ s₁ :: ((opToS op).toList ++ s₂ :: (dec ++ s₃ :: (hex ++ s₄ :: rest))) ∧
    (dec ≠ [] ∧ ∀ c ∈ dec, isdigit c = true) ∧ hex ≠ [] ∧ ∀ c ∈ hex, isxdigit c = true

/-- The line of a number. -/
def IsTraceLine (n : ℕ) (line : List Char) : Prop :=
  ∃ op dec hex, HasFields line op dec hex ∧ numeral 10 dec = n

/-- The decimal digits name a number as far as `strtol` and an `unsigned` tell. -/
def CountsAs (dec : List Char) (n : ℕ) : Prop :=
  min (numeral 10 dec) (2 ^ 63 - 1) % 2 ^ 32 = n % 2 ^ 32

/-- A line that is taken for the line of a number. -/
def IsTaken (n : ℕ) (line : List Char) : Prop :=
  ∃ op dec hex, HasFields line op dec hex ∧ CountsAs dec n

/-- No character ends the field behind `TRACE`. -/
def OpUnended (line : List Char) : Prop :=
  ∃ s rest, isSep s = true ∧ line = "TRACE".toList ++ s :: rest ∧ ∀ c ∈ rest, isSep c = false

/-! ## Fields -/

/-- What the loop of `pop_field` finds. -/
theorem popFieldLoop_cases (orig passed line : List Char) :
    (∃ field sep rest, line = field ++ sep :: rest ∧ isSep sep = true ∧ passed ++ field ≠ [] ∧
      (∀ c ∈ field, isSep c = false) ∧
      popFieldLoop orig passed line = .ok (some (passed ++ field, rest))) ∨
    ((∀ c ∈ line, isSep c = false) ∧ popFieldLoop orig passed line = .ok none) ∨
    ((∃ c ∈ line, isSep c = true) ∧
      ∃ msg, popFieldLoop orig passed line = .error (.panicked msg)) := by
  induction line generalizing passed with
  | nil => exact .inr (.inl ⟨fun c hc => absurd hc List.not_mem_nil, rfl⟩)
  | cons c line ih =>
    rw [popFieldLoop]
    by_cases hc : isSep c = true
    · rw [if_pos hc]
      by_cases hpassed : passed = []
      · rw [if_pos hpassed]
        exact .inr (.inr ⟨⟨c, List.mem_cons_self, hc⟩, _, rfl⟩)
      · rw [if_neg hpassed]
        refine .inl ⟨[], c, line, rfl, hc, ?_, fun c hc => absurd hc List.not_mem_nil, ?_⟩
        · rwa [List.append_nil]
        · rw [List.append_nil]
          rfl
    · rw [if_neg hc]
      have hc' : isSep c = false := Bool.eq_false_iff.mpr hc
      rcases ih (passed ++ [c]) with ⟨field, sep, rest, hline, hsep, -, hfield, hok⟩ |
        ⟨hnone, hok⟩ | ⟨⟨d, hd, hsep⟩, herror⟩
      · refine .inl ⟨c :: field, sep, rest, by rw [hline]; rfl, hsep, by simp, ?_, ?_⟩
        · exact List.forall_mem_cons.mpr ⟨hc', hfield⟩
        · rw [hok, List.append_assoc]
          rfl
      · exact .inr (.inl ⟨List.forall_mem_cons.mpr ⟨hc', hnone⟩, hok⟩)
      · exact .inr (.inr ⟨⟨d, List.mem_cons_of_mem _ hd, hsep⟩, herror⟩)

/-- What `pop_field` finds: a field, no end of one, or an empty one, with which it panics. -/
theorem popField_cases (line : List Char) :
    (∃ field sep rest, line = field ++ sep :: rest ∧ isSep sep = true ∧ field ≠ [] ∧
      (∀ c ∈ field, isSep c = false) ∧ popField line = .ok (some (field, rest))) ∨
    ((∀ c ∈ line, isSep c = false) ∧ popField line = .ok none) ∨
    ((∃ c ∈ line, isSep c = true) ∧ ∃ msg, popField line = .error (.panicked msg)) :=
  popFieldLoop_cases line [] line

/-- `pop_field` returns null exactly where no character ends a field. -/
theorem popField_eq_none {line : List Char} :
    popField line = .ok none ↔ ∀ c ∈ line, isSep c = false := by
  rcases popField_cases line with ⟨field, sep, rest, hline, hsep, -, -, hok⟩ | ⟨hnone, hok⟩ |
    ⟨⟨c, hc, hsep⟩, msg, hmsg⟩
  · refine iff_of_false (by simp [hok]) fun h => ?_
    have hmem : sep ∈ line := by simp [hline]
    exact absurd hsep (by simp [h sep hmem])
  · exact iff_of_true hok hnone
  · refine iff_of_false (by simp [hmsg]) fun h => ?_
    exact absurd hsep (by simp [h c hc])

/-- A field that `pop_field` returns. -/
theorem of_popField_eq_some {line field rest : List Char}
    (h : popField line = .ok (some (field, rest))) :
    ∃ sep, line = field ++ sep :: rest ∧ isSep sep = true ∧ field ≠ [] := by
  rcases popField_cases line with ⟨field', sep, rest', hline, hsep, hne, -, hok⟩ | ⟨-, hok⟩ |
    ⟨-, msg, hmsg⟩
  · obtain ⟨rfl, rfl⟩ := Prod.mk.inj (Option.some.inj (Except.ok.inj (h.symm.trans hok)))
    exact ⟨sep, hline, hsep, hne⟩
  · exact absurd (Except.ok.inj (h.symm.trans hok)) (by simp)
  · exact absurd (h.symm.trans hmsg) (by simp)

/-- `pop_field` never reads through null. -/
theorem popField_ne_nullString (line : List Char) : popField line ≠ .error .nullString := by
  rcases popField_cases line with ⟨_, _, _, _, _, _, _, hok⟩ | ⟨_, hok⟩ | ⟨_, msg, hmsg⟩
  · simp [hok]
  · simp [hok]
  · simp [hmsg]

/-- A number that `pop_num` or `pop_hex_num` returns. -/
theorem of_popNumber_eq_ok {digit : Char → Bool} {base : ℕ} {line rest : List Char}
    {v : BitVec 32} (h : popNumber digit base line = .ok (v, rest)) :
    ∃ num sep, line = num ++ sep :: rest ∧ isSep sep = true ∧ num ≠ [] ∧
      (∀ c ∈ num, digit c = true) ∧ v = BitVec.ofInt 32 (strtol num base) := by
  rw [popNumber] at h
  split at h
  · cases h
  · obtain ⟨found, hfound, hrest⟩ := bind_eq_ok.mp h
    cases found with
    | none => cases hrest
    | some pair =>
      obtain ⟨num, rest'⟩ := pair
      obtain ⟨sep, hline, hsep, hne⟩ := of_popField_eq_some hfound
      dsimp only at hrest
      split at hrest
      · rename_i hall
        obtain ⟨hv, rfl⟩ := Prod.mk.inj (Except.ok.inj hrest)
        exact ⟨num, sep, hline, hsep, hne, List.all_eq_true.mp hall, hv.symm⟩
      · cases hrest

/-- `pop_num` and `pop_hex_num` never read through null. -/
theorem popNumber_ne_nullString (digit : Char → Bool) (base : ℕ) (line : List Char) :
    popNumber digit base line ≠ .error .nullString := by
  intro h
  rw [popNumber] at h
  split at h
  · cases h
  · rcases bind_eq_error.mp h with hnull | ⟨found, -, hrest⟩
    · exact popField_ne_nullString line hnull
    · cases found with
      | none => cases hrest
      | some pair =>
        dsimp only at hrest
        split at hrest <;> cases hrest

/-- A line that `expect` accepts. -/
theorem of_expect_eq_ok {line exp p : List Char} (h : expect line exp = .ok p) :
    ∃ sep, line = exp ++ sep :: p ∧ isSep sep = true := by
  rw [expect] at h
  obtain ⟨found, hfound, hrest⟩ := bind_eq_ok.mp h
  cases found with
  | none => cases hrest
  | some pair =>
    obtain ⟨field, rest⟩ := pair
    obtain ⟨sep, hline, hsep, -⟩ := of_popField_eq_some hfound
    dsimp only at hrest
    split at hrest
    · cases hrest
    · rename_i hfield
      obtain rfl := not_not.mp hfield
      cases hrest
      exact ⟨sep, hline, hsep⟩

/-- `expect` never reads through null. -/
theorem expect_ne_nullString (line exp : List Char) : expect line exp ≠ .error .nullString := by
  intro h
  rw [expect] at h
  rcases bind_eq_error.mp h with hnull | ⟨found, -, hrest⟩
  · exact popField_ne_nullString line hnull
  · cases found with
    | none => cases hrest
    | some pair =>
      dsimp only at hrest
      split at hrest <;> cases hrest

/-- A field that names an operation. -/
theorem of_opOfS_eq_ok {field : List Char} {op : Op} (h : opOfS field = .ok op) :
    field = (opToS op).toList := by
  rw [opOfS] at h
  split_ifs at h with hwrite hread32 hread8
  · cases h
    exact hwrite
  · cases h
    exact hread32
  · cases h
    exact hread8

/-- A field that names no operation ends with a message. -/
theorem opOfS_ne_nullString (field : List Char) : opOfS field ≠ .error .nullString := by
  intro h
  rw [opOfS] at h
  split_ifs at h <;> cases h

/-! ## Lines -/

/-- What `strtol` makes of decimal digits, as an `unsigned`. -/
theorem countsAs_iff {dec : List Char} (hdec : ∀ c ∈ dec, isdigit c = true) {n : ℕ} :
    BitVec.ofInt 32 (strtol dec 10) = BitVec.ofNat 32 n ↔ CountsAs dec n := by
  have hlong := strtol_eq_min (s := dec) (by decide) fun c hc => digitValue_of_isdigit (hdec c hc)
  have hcast : min (numeral 10 dec : ℤ) (2 ^ 63 - 1) =
      ((min (numeral 10 dec) (2 ^ 63 - 1) : ℕ) : ℤ) := by
    push_cast
    rfl
  rw [hlong, hcast, BitVec.ofInt_natCast, CountsAs, BitVec.toNat_inj.symm, BitVec.toNat_ofNat,
    BitVec.toNat_ofNat]

/-- A line that is read. -/
theorem of_readLine_eq_ok {emitP : Bool} {n : BitVec 32} {line : List Char} {s s' : ReadState}
    (h : readLine emitP n line s = .ok s') :
    ∃ op dec hex, HasFields line op dec hex ∧ BitVec.ofInt 32 (strtol dec 10) = n ∧
      (s'.q, s'.heap) = qAppend s.q s.heap op n (BitVec.ofInt 32 (strtol hex 16)) := by
  rw [readLine] at h
  obtain ⟨p₁, htrace, h⟩ := bind_eq_ok.mp h
  obtain ⟨found, hfound, h⟩ := bind_eq_ok.mp h
  cases found with
  | none => cases h
  | some pair =>
    obtain ⟨opS, p₂⟩ := pair
    obtain ⟨op, hop, h⟩ := bind_eq_ok.mp h
    obtain ⟨⟨cnt, p₃⟩, hcnt, h⟩ := bind_eq_ok.mp h
    dsimp only at h
    split at h
    · cases h
    · rename_i hsame
      obtain ⟨⟨u, p₄⟩, hu, h⟩ := bind_eq_ok.mp h
      obtain rfl := pure_eq_ok.mp h
      obtain ⟨s₁, hline, hs₁⟩ := of_expect_eq_ok htrace
      obtain ⟨s₂, hp₁, hs₂, -⟩ := of_popField_eq_some hfound
      obtain ⟨dec, s₃, hp₂, hs₃, hdec, hdigits, rfl⟩ := of_popNumber_eq_ok hcnt
      obtain ⟨hex, s₄, hp₃, hs₄, hhex, hxdigits, rfl⟩ := of_popNumber_eq_ok hu
      have hopS := of_opOfS_eq_ok hop
      subst hline hp₁ hp₂ hp₃ hopS
      refine ⟨op, dec, hex, ⟨s₁, s₂, s₃, s₄, p₄, ?_, rfl, ⟨hdec, hdigits⟩, hhex, hxdigits⟩,
        not_not.mp hsame, ?_⟩
      · simp [hs₁, hs₂, hs₃, hs₄]
      · rfl

/-- The number of a line is made of digits. -/
theorem HasFields.isdigit {line : List Char} {op : Op} {dec hex : List Char}
    (h : HasFields line op dec hex) : ∀ c ∈ dec, isdigit c = true := by
  obtain ⟨_, _, _, _, _, _, _, ⟨_, hdigits⟩, _⟩ := h
  exact hdigits

/-- A line with its fields is read, if its number counts as the one wanted. -/
theorem HasFields.readLine_eq {line : List Char} {op : Op} {dec hex : List Char}
    (h : HasFields line op dec hex) {n : BitVec 32} (hn : BitVec.ofInt 32 (strtol dec 10) = n)
    (emitP : Bool) (s : ReadState) :
    ∃ out, readLine emitP n line s =
      .ok ⟨(qAppend s.q s.heap op n (BitVec.ofInt 32 (strtol hex 16))).1,
        (qAppend s.q s.heap op n (BitVec.ofInt 32 (strtol hex 16))).2, out⟩ := by
  obtain ⟨s₁, s₂, s₃, s₄, rest, hseps, rfl, ⟨hdec, hdigits⟩, hhex, hxdigits⟩ := h
  simp only [List.mem_cons, List.not_mem_nil, or_false, forall_eq_or_imp, forall_eq] at hseps
  obtain ⟨hs₁, hs₂, hs₃, hs₄⟩ := hseps
  have hnum := popNumber_digits hdigits (fun _ => isxdigit_of_isdigit) hdec hs₃ 10
    (hex ++ s₄ :: rest)
  have hval := popNumber_digits hxdigits (fun _ hc => hc) hhex hs₄ 16 rest
  rw [readLine, ok_bind (expect_trace hs₁ _), ok_bind (popField_op hs₂ op _)]
  dsimp only
  rw [ok_bind (opOfS_opToS op), popNum, ok_bind hnum]
  dsimp only
  rw [if_neg (not_not.mpr hn), popHexNum, ok_bind hval]
  exact ⟨_, rfl⟩

/-- Without an end of the second field `strcmp` is given null. -/
theorem OpUnended.readLine_eq {line : List Char} (h : OpUnended line) (emitP : Bool)
    (n : BitVec 32) (s : ReadState) : readLine emitP n line s = .error .nullString := by
  obtain ⟨sep, rest, hsep, rfl, hrest⟩ := h
  rw [readLine, ok_bind (expect_trace hsep rest), ok_bind (popField_eq_none.mpr hrest)]
  rfl

/-- Nothing else gives `strcmp` null. -/
theorem opUnended_of_readLine {emitP : Bool} {n : BitVec 32} {line : List Char} {s : ReadState}
    (h : readLine emitP n line s = .error .nullString) : OpUnended line := by
  rw [readLine] at h
  rcases bind_eq_error.mp h with hnull | ⟨p₁, htrace, h⟩
  · exact absurd hnull (expect_ne_nullString _ _)
  rcases bind_eq_error.mp h with hnull | ⟨found, hfound, h⟩
  · exact absurd hnull (popField_ne_nullString _)
  cases found with
  | none =>
    obtain ⟨sep, rfl, hsep⟩ := of_expect_eq_ok htrace
    exact ⟨sep, p₁, hsep, rfl, popField_eq_none.mp hfound⟩
  | some pair =>
    obtain ⟨opS, p₂⟩ := pair
    rcases bind_eq_error.mp h with hnull | ⟨op, -, h⟩
    · exact absurd hnull (opOfS_ne_nullString _)
    rcases bind_eq_error.mp h with hnull | ⟨⟨cnt, p₃⟩, -, h⟩
    · exact absurd hnull (popNumber_ne_nullString _ _ _)
    dsimp only at h
    split at h
    · cases h
    rcases bind_eq_error.mp h with hnull | ⟨⟨u, p₄⟩, -, h⟩
    · exact absurd hnull (popNumber_ne_nullString _ _ _)
    · cases h

/-! ## Files -/

/-- `read_input` on the lines of a file. -/
def readLines (emitP : Bool) : BitVec 32 → List (List Char) → ReadState →
    Except InputError ReadState
  | _, [], s => pure s
  | n, line :: lines, s => do
    let s ← readLine emitP n line s
    readLines emitP (n + 1) lines s

/-- Lines that fit in the buffer are read one by one. -/
theorem readLoop_eq (emitP : Bool) {n : BitVec 32} {file : List Char} {s : ReadState}
    (hfit : ∀ line ∈ fileLines file, line.length < 1024 ∧ '\x00' ∉ line) :
    readLoop emitP n file s = readLines emitP n (fileLines file) s := by
  induction hlines : fileLines file generalizing n file s with
  | nil =>
    obtain rfl := fileLines_eq_nil hlines
    rw [readLoop]
    rfl
  | cons line lines ih =>
    obtain ⟨hlen, hnull⟩ := hfit line (hlines ▸ List.mem_cons_self)
    obtain ⟨rest, hread, hrest⟩ := fgets_fileLines hlines hlen
    have hwhole : cString line = line := by
      refine List.takeWhile_eq_self_iff.mpr fun c hc => decide_eq_true ?_
      rintro rfl
      exact hnull hc
    rw [readLoop]
    split
    · rename_i hnone
      exact absurd (hread.symm.trans hnone) (by simp)
    · rename_i line' rest' hsome
      obtain ⟨rfl, rfl⟩ := Prod.mk.inj (Option.some.inj (hread.symm.trans hsome))
      rw [hwhole, readLines]
      refine congrArg _ (funext fun s₁ => ih ?_ hrest)
      intro l hl
      exact hfit l (hlines ▸ List.mem_cons_of_mem _ (hrest ▸ hl))

/-- What is said of the lines in order, of the first and of the others. -/
theorem forall_getElem?_cons {α : Type} {P : ℕ → α → Prop} {x : α} {xs : List α} :
    (∀ i y, (x :: xs)[i]? = some y → P i y) ↔ P 0 x ∧ ∀ i y, xs[i]? = some y → P (i + 1) y := by
  constructor
  · intro h
    exact ⟨h 0 x rfl, fun i y hy => h (i + 1) y hy⟩
  · rintro ⟨hx, hxs⟩ i y hy
    cases i with
    | zero =>
      cases hy
      exact hx
    | succ i => exact hxs i y hy

/-- What is said of the lines in front of one behind the first. -/
theorem forall_lt_getElem?_cons {α : Type} {P : ℕ → α → Prop} {x : α} {xs : List α} {i : ℕ} :
    (∀ j < i + 1, ∀ y, (x :: xs)[j]? = some y → P j y) ↔
      P 0 x ∧ ∀ j < i, ∀ y, xs[j]? = some y → P (j + 1) y := by
  constructor
  · intro h
    exact ⟨h 0 (Nat.succ_pos i) x rfl, fun j hj y hy => h (j + 1) (Nat.succ_lt_succ hj) y hy⟩
  · rintro ⟨hx, hxs⟩ j hj y hy
    cases j with
    | zero =>
      cases hy
      exact hx
    | succ j => exact hxs j (Nat.lt_of_succ_lt_succ hj) y hy

/-- A line is taken exactly if the loop goes on behind it. -/
theorem isTaken_iff {emitP : Bool} {n : ℕ} {line : List Char} {s : ReadState} :
    IsTaken n line ↔ ∃ s', readLine emitP (BitVec.ofNat 32 n) line s = .ok s' := by
  constructor
  · rintro ⟨op, dec, hex, hfields, hcnt⟩
    obtain ⟨out, hok⟩ := hfields.readLine_eq ((countsAs_iff hfields.isdigit).mpr hcnt) emitP s
    exact ⟨_, hok⟩
  · rintro ⟨s', hok⟩
    obtain ⟨op, dec, hex, hfields, hcnt, -⟩ := of_readLine_eq_ok hok
    exact ⟨op, dec, hex, hfields, (countsAs_iff hfields.isdigit).mp hcnt⟩

/-- The next number of a line. -/
theorem ofNat_succ (n : ℕ) : BitVec.ofNat 32 n + 1 = BitVec.ofNat 32 (n + 1) := by
  rw [BitVec.ofNat_add]
  rfl

/-- The lines are read exactly if all of them are taken. -/
theorem readLines_returns_iff {emitP : Bool} {n : ℕ} {lines : List (List Char)} {s : ReadState} :
    (∃ s', readLines emitP (BitVec.ofNat 32 n) lines s = .ok s') ↔
      ∀ i line, lines[i]? = some line → IsTaken (n + i) line := by
  induction lines generalizing n s with
  | nil => exact iff_of_true ⟨s, rfl⟩ fun i line h => absurd h (by simp)
  | cons line lines ih =>
    rw [forall_getElem?_cons, readLines, ofNat_succ]
    simp only [Nat.add_zero, ← Nat.add_assoc, Nat.add_right_comm n _ 1]
    constructor
    · rintro ⟨s', hok⟩
      obtain ⟨s₁, hline, hrest⟩ := bind_eq_ok.mp hok
      exact ⟨isTaken_iff.mpr ⟨s₁, hline⟩, ih.mp ⟨s', hrest⟩⟩
    · rintro ⟨htaken, hrest⟩
      obtain ⟨s₁, hline⟩ := isTaken_iff.mp htaken
      obtain ⟨s', hok⟩ := ih.mpr hrest
      exact ⟨s', by rw [ok_bind hline, hok]⟩

/-- The lines are read without null exactly if in none of them behind lines that are taken the
second field has no end. -/
theorem readLines_ne_nullString_iff {emitP : Bool} {n : ℕ} {lines : List (List Char)}
    {s : ReadState} :
    readLines emitP (BitVec.ofNat 32 n) lines s ≠ .error .nullString ↔
      ∀ i line, lines[i]? = some line →
        (∀ j < i, ∀ l, lines[j]? = some l → IsTaken (n + j) l) → ¬ OpUnended line := by
  induction lines generalizing n s with
  | nil =>
    refine iff_of_true ?_ fun i line h => absurd h (by simp)
    rw [readLines]
    simp [Pure.pure, Except.pure]
  | cons line lines ih =>
    rw [forall_getElem?_cons, readLines, ofNat_succ]
    simp only [forall_lt_getElem?_cons, Nat.add_zero, ← Nat.add_assoc, Nat.add_right_comm n _ 1]
    by_cases htaken : IsTaken n line
    · obtain ⟨s₁, hline⟩ := isTaken_iff.mp htaken
      have hended : ¬ OpUnended line := by
        intro hunended
        rw [hunended.readLine_eq] at hline
        cases hline
      rw [ok_bind hline, ih]
      constructor
      · exact fun h => ⟨fun _ => hended, fun i l hl htakens => h i l hl htakens.2⟩
      · exact fun h i l hl htakens => h.2 i l hl ⟨htaken, htakens⟩
    · cases hline : readLine emitP (BitVec.ofNat 32 n) line s with
      | ok s₁ => exact absurd (isTaken_iff.mpr ⟨s₁, hline⟩) htaken
      | error e =>
        constructor
        · intro h
          refine ⟨fun _ hunended => h ?_, fun i l _ htakens => absurd htakens.1 htaken⟩
          rw [← hline, hunended.readLine_eq]
          rfl
        · intro h hnull
          have he : e = .nullString := Except.error.inj hnull
          refine h.1 (fun j hj => absurd hj (Nat.not_lt_zero j)) ?_
          exact opUnended_of_readLine (hline.trans (congrArg _ he))

/-- An entry says what its line does. -/
def ReadAs (n : ℕ) (line : List Char) (e : Entry) : Prop :=
  ∃ op dec hex, HasFields line op dec hex ∧
    e = ⟨op, BitVec.ofNat 32 n, BitVec.ofInt 32 (strtol hex 16)⟩

/-- The queue holds one more entry for each line. -/
theorem readLines_holds {emitP : Bool} {n : ℕ} {lines : List (List Char)} {s s' : ReadState}
    {es : List Entry} (hq : s.q.Holds s.heap es)
    (hok : readLines emitP (BitVec.ofNat 32 n) lines s = .ok s') :
    ∃ es', s'.q.Holds s'.heap (es ++ es') ∧ es'.length = lines.length ∧
      ∀ i line, lines[i]? = some line → ∃ e, es'[i]? = some e ∧ ReadAs (n + i) line e := by
  induction lines generalizing n s es with
  | nil =>
    cases hok
    exact ⟨[], by rwa [List.append_nil], rfl, fun i line h => absurd h (by simp)⟩
  | cons line lines ih =>
    rw [readLines, ofNat_succ] at hok
    obtain ⟨s₁, hline, hrest⟩ := bind_eq_ok.mp hok
    obtain ⟨op, dec, hex, hfields, -, happend⟩ := of_readLine_eq_ok hline
    have hholds := hq.append op (BitVec.ofNat 32 n) (BitVec.ofInt 32 (strtol hex 16))
    rw [← happend] at hholds
    obtain ⟨es', hes', hlen, hread⟩ := ih hholds hrest
    refine ⟨⟨op, BitVec.ofNat 32 n, BitVec.ofInt 32 (strtol hex 16)⟩ :: es', ?_,
      congrArg Nat.succ hlen, forall_getElem?_cons.mpr ⟨?_, ?_⟩⟩
    · rwa [List.append_assoc] at hes'
    · exact ⟨_, rfl, op, dec, hex, hfields, rfl⟩
    · intro i l hl
      rw [← Nat.add_assoc, Nat.add_right_comm]
      exact hread i l hl

/-- The value of hexadecimal digits, if it is an `unsigned`. -/
theorem toNat_strtol_hex {hex : List Char} (hhex : ∀ c ∈ hex, isxdigit c = true)
    (hlt : numeral 16 hex < 2 ^ 32) : (BitVec.ofInt 32 (strtol hex 16)).toNat = numeral 16 hex := by
  have hsmall : ∀ c ∈ hex, digitValue c < 16 := fun c hc => of_decide_eq_true (hhex c hc)
  rw [strtol_digits (by decide) hsmall (by omega), BitVec.ofInt_natCast, BitVec.toNat_ofNat]
  omega

/-- `read_input` reads a file right: never through null; to the end exactly if every line is the
line of its number; and then with an entry for each line that says what the line does. -/
structure ReadsRight (emitP : Bool) (file : List Char) : Prop where
  noNull : readInput emitP file ≠ .error .nullString
  returns : (∃ s, readInput emitP file = .ok s) ↔
    ∀ n line, (fileLines file)[n]? = some line → IsTraceLine n line
  entries : ∀ s, readInput emitP file = .ok s → ∃ es, s.q.Holds s.heap es ∧
    es.length = (fileLines file).length ∧
    ∀ n line, (fileLines file)[n]? = some line → ∃ e : Entry, es[n]? = some e ∧ e.cnt.toNat = n ∧
      ∃ dec hex, HasFields line e.op dec hex ∧
        (numeral 16 hex < 2 ^ 32 → e.val.toNat = numeral 16 hex)

/-- The line of a number is taken for it, as long as an `unsigned` tells the numbers apart. -/
theorem IsTraceLine.isTaken {n : ℕ} {line : List Char} (h : IsTraceLine n line) (hn : n < 2 ^ 32) :
    IsTaken n line := by
  obtain ⟨op, dec, hex, hfields, hdec⟩ := h
  refine ⟨op, dec, hex, hfields, ?_⟩
  rw [CountsAs, hdec]
  omega

/-- What the entry of a line says. -/
theorem ReadAs.entry {n : ℕ} {line : List Char} {e : Entry} (h : ReadAs n line e)
    (hn : n < 2 ^ 32) : e.cnt.toNat = n ∧ ∃ dec hex, HasFields line e.op dec hex ∧
      (numeral 16 hex < 2 ^ 32 → e.val.toNat = numeral 16 hex) := by
  obtain ⟨op, dec, hex, hfields, rfl⟩ := h
  refine ⟨by rw [BitVec.toNat_ofNat, Nat.mod_eq_of_lt hn], dec, hex, hfields, ?_⟩
  obtain ⟨_, _, _, _, _, _, _, _, _, hxdigits⟩ := hfields
  exact toNat_strtol_hex hxdigits

/-- Behind lines that are taken, no line lacks the end of its second field. -/
def OpsEnded (lines : List (List Char)) : Prop :=
  ∀ n line, lines[n]? = some line → (∀ j < n, ∀ l, lines[j]? = some l → IsTaken j l) →
    ¬ OpUnended line

/-- Lines that are all taken have their own numbers, and an `unsigned` counts such lines. -/
def OwnNumbers (lines : List (List Char)) : Prop :=
  ((∀ n line, lines[n]? = some line → IsTaken n line) →
    ∀ n line, lines[n]? = some line → IsTraceLine n line) ∧
  ((∀ n line, lines[n]? = some line → IsTraceLine n line) → lines.length ≤ 2 ^ 32)

/-- For every file with lines that fit in the buffer and without null characters, `read_input`
reads it right exactly if no line that it comes to lacks the end of its second field, and it takes
all lines only if they have their own numbers. -/
theorem readsRight_iff {emitP : Bool} {file : List Char}
    (hfit : ∀ line ∈ fileLines file, line.length < 1024 ∧ '\x00' ∉ line) :
    ReadsRight emitP file ↔ OpsEnded (fileLines file) ∧ OwnNumbers (fileLines file) := by
  have hread : readInput emitP file =
      readLines emitP (BitVec.ofNat 32 0) (fileLines file) ⟨mkQ, [], []⟩ := readLoop_eq emitP hfit
  have hreturns : (∃ s, readInput emitP file = .ok s) ↔
      ∀ n line, (fileLines file)[n]? = some line → IsTaken n line := by
    rw [hread, readLines_returns_iff]
    simp only [Nat.zero_add]
  have hnull : readInput emitP file ≠ .error .nullString ↔ OpsEnded (fileLines file) := by
    rw [hread, readLines_ne_nullString_iff]
    simp only [Nat.zero_add, OpsEnded]
  constructor
  · intro h
    refine ⟨hnull.mp h.noNull, fun htaken => h.returns.mp (hreturns.mpr htaken), fun htrace => ?_⟩
    obtain ⟨s, hok⟩ := h.returns.mpr htrace
    obtain ⟨es, -, -, hes⟩ := h.entries s hok
    by_contra hlong
    obtain ⟨e, -, hcnt, -⟩ := hes (2 ^ 32) _ (List.getElem?_eq_getElem (by omega))
    have := e.cnt.isLt
    omega
  · rintro ⟨hended, htrace, hshort⟩
    refine ⟨hnull.mpr hended, hreturns.trans ⟨htrace, fun h n line hline => ?_⟩, fun s hok => ?_⟩
    · have hn := (List.getElem?_eq_some_iff.mp hline).1
      have := hshort h
      exact (h n line hline).isTaken (by omega)
    · have hlen := hshort (htrace (hreturns.mp ⟨s, hok⟩))
      obtain ⟨es, hholds, heslen, hes⟩ := readLines_holds (mkQ_holds []) (hread.symm.trans hok)
      refine ⟨es, hholds, heslen, fun n line hline => ?_⟩
      obtain ⟨e, he, hreadAs⟩ := hes n line hline
      have hn := (List.getElem?_eq_some_iff.mp hline).1
      rw [Nat.zero_add] at hreadAs
      exact ⟨e, he, hreadAs.entry (by omega)⟩

/-- A file of one line. -/
theorem readsRight_iff_bytes : ReadsRight true "TRACE:READ8:0:4d [bytes]\n".toList ↔
    OpsEnded (fileLines "TRACE:READ8:0:4d [bytes]\n".toList) ∧
      OwnNumbers (fileLines "TRACE:READ8:0:4d [bytes]\n".toList) :=
  readsRight_iff (by decide)

/-- A line that ends behind `TRACE:` is read through null, and a line whose number is `2 ^ 32` is
taken for the first. -/
theorem traceLine_cut_short : ¬ ReadsRight false "TRACE:\n".toList ∧
    readInput false "TRACE:\n".toList = .error .nullString ∧
    ∃ s, readInput false "TRACE:READ8:4294967296:4d:\n".toList = .ok s := by
  have hnull : readInput false "TRACE:\n".toList = .error .nullString := by
    rw [readInput, readLoop_eq false (by decide)]
    rfl
  have hnumber : ∃ s, readInput false "TRACE:READ8:4294967296:4d:\n".toList = .ok s := by
    rw [readInput, readLoop_eq false (by decide)]
    exact ⟨_, rfl⟩
  exact ⟨fun h => h.noNull hnull, hnull, hnumber⟩

end RpiVm.Replay
