import RpiVm.Lib.Panic
import RpiVm.Replay.Trace

/-!
# Reading a trace

`read_input` takes a trace apart line by line and field by field, and appends an entry
for each line. What the tracing calls have printed is read back as their events, and
printed again as it was.
-/

namespace RpiVm.Replay

open CLib

/-- Why `read_input` does not return. -/
inductive InputError where
  /-- `panic`, with its text. -/
  | panicked (msg : List Char)
  /-- `demand` found the expression false. -/
  | demanded (expr msg : String)
  /-- `strcmp` of a null pointer. -/
  | nullString

/-! ## Fields -/

/-- The characters that end a field. -/
def isSep (c : Char) : Bool := c = ':' || c = ' '

/-- The loop of `pop_field` behind the characters passed. -/
def popFieldLoop (orig passed : List Char) :
    List Char → Except InputError (Option (List Char × List Char))
  | [] => pure none
  | c :: p =>
    if isSep c then
      if passed = [] then throw (.panicked ("empty field: <".toList ++ orig ++ ">\n".toList))
      else pure (some (passed, p))
    else popFieldLoop orig (passed ++ [c]) p

/-- `pop_field`: the field, which ends where the null character is put, and the line
behind it; null when there is no end of a field. -/
def popField (line : List Char) : Except InputError (Option (List Char × List Char)) :=
  popFieldLoop line [] line

/-- `pop_num` and `pop_hex_num`, by the digits and the base. -/
def popNumber (digit : Char → Bool) (base : ℕ) (line : List Char) :
    Except InputError (BitVec 32 × List Char) := do
  if line = [] then throw (.demanded "*orig" "impossible")
  match ← popField line with
  | none =>
    throw (.panicked ("corrupt file: expected a field, have <".toList ++ line ++ ">\n".toList))
  | some (num, rest) =>
    -- the field is all that is left of the line when it is printed
    if num.all digit then pure (BitVec.ofInt 32 (strtol num base), rest)
    else throw (.panicked ("input corrupt: expected number, have <".toList ++ num ++ ">\n".toList))

/-- `pop_hex_num`. -/
def popHexNum : List Char → Except InputError (BitVec 32 × List Char) := popNumber isxdigit 16

/-- `pop_num`. -/
def popNum : List Char → Except InputError (BitVec 32 × List Char) := popNumber isdigit 10

/-- `expect`: the line behind the field. -/
def expect (input exp : List Char) : Except InputError (List Char) := do
  match ← popField input with
  | none =>
    throw (.panicked ("expected <".toList ++ exp ++ ">, have nothing: <".toList ++ input ++
      ">\n".toList))
  | some (field, p) =>
    if field ≠ exp then
      throw (.panicked ("expected <".toList ++ exp ++ ">, have <".toList ++ field ++ ">\n".toList))
    else pure p

/-- The operation that a field names. -/
def opOfS (opS : List Char) : Except InputError Op :=
  if opS = "WRITE32".toList then pure .write32
  else if opS = "READ32".toList then pure .read32
  else if opS = "READ8".toList then pure .read8
  else throw (.panicked ("input corrupt: expected WRITE32 or READ32, got=<".toList ++ opS ++
    ">\n".toList))

/-! ## Lines -/

/-- The queue that is read into, its elements, and what has been printed. -/
structure ReadState where
  /-- The queue. -/
  q : Q
  /-- The elements. -/
  heap : List E
  /-- The text printed. -/
  out : List Char

/-- The loop body of `read_input`, with the line in the buffer. -/
def readLine (emitP : Bool) (nlines : BitVec 32) (buf : List Char) (s : ReadState) :
    Except InputError ReadState := do
  let p ← expect buf "TRACE".toList
  match ← popField p with
  | none => throw .nullString
  | some (opS, p) =>
    let op ← opOfS opS
    let (cnt, p) ← popNum p
    if cnt ≠ nlines then
      throw (.panicked ("input cnt=".toList ++ formatD cnt ++ ", nlines=".toList ++
        formatD nlines ++ ", buf=<".toList ++ buf ++ ">\n".toList))
    let (u, p) ← popHexNum p
    let printed := "TRACE:".toList ++ (opToS op).toList ++ ':' :: formatD nlines ++
      ':' :: formatX u ++ ' ' :: p
    let (q, heap) := qAppend s.q s.heap op nlines u
    pure ⟨q, heap, if emitP then s.out ++ printed else s.out⟩

/-- The loop of `read_input` over the rest of the file. -/
def readLoop (emitP : Bool) (nlines : BitVec 32) (file : List Char) (s : ReadState) :
    Except InputError ReadState :=
  match hline : fgets 1024 file with
  | none => pure s
  | some (line, rest) => do
    let s ← readLine emitP nlines (cString line) s
    readLoop emitP (nlines + 1) rest s
termination_by file.length
decreasing_by exact fgets_lt (by decide) hline

/-- `read_input`. -/
def readInput (emitP : Bool) (file : List Char) : Except InputError ReadState :=
  readLoop emitP 0 file ⟨mkQ, [], []⟩

/-! ## Fields that are there -/

/-- A field is popped up to the character that ends it. -/
theorem popField_append {field : List Char} (hfield : ∀ c ∈ field, isSep c = false)
    (hne : field ≠ []) {sep : Char} (hsep : isSep sep = true) (rest : List Char) :
    popField (field ++ sep :: rest) = .ok (some (field, rest)) := by
  have hloop : ∀ (orig passed : List Char), passed ++ field ≠ [] →
      popFieldLoop orig passed (field ++ sep :: rest) = .ok (some (passed ++ field, rest)) := by
    clear hne
    intro orig
    induction field with
    | nil =>
      intro passed hne
      rw [List.append_nil] at hne
      rw [List.nil_append, popFieldLoop, if_pos hsep, if_neg hne, List.append_nil]
      rfl
    | cons c field ih =>
      intro passed _
      have hc : ¬ isSep c = true := by simp [hfield c List.mem_cons_self]
      have hrest := ih (fun c' hc' => hfield c' (List.mem_cons_of_mem _ hc')) (passed ++ [c])
        (by simp)
      rw [List.cons_append, popFieldLoop, if_neg hc, hrest, List.append_assoc]
      rfl
  exact hloop _ [] hne

/-- `expect` accepts its word. -/
theorem expect_trace {sep : Char} (hsep : isSep sep = true) (rest : List Char) :
    expect ("TRACE".toList ++ sep :: rest) "TRACE".toList = .ok rest := by
  have hplain : ∀ c ∈ "TRACE".toList, isSep c = false := by simp [isSep]
  rw [expect, ok_bind (popField_append hplain (by simp) hsep rest)]
  exact if_neg fun h => h rfl

/-- The name of an operation has no end of a field in it. -/
theorem popField_op {sep : Char} (hsep : isSep sep = true) (op : Op) (rest : List Char) :
    popField ((opToS op).toList ++ sep :: rest) = .ok (some ((opToS op).toList, rest)) := by
  have hplain : ∀ c ∈ (opToS op).toList, isSep c = false := by
    cases op <;> simp [opToS, isSep]
  exact popField_append hplain (by cases op <;> simp [opToS]) hsep rest

/-- The name of an operation names it. -/
theorem opOfS_opToS (op : Op) : opOfS (opToS op).toList = .ok op := by
  cases op <;> rfl

/-- A digit ends no field. -/
theorem isSep_of_isxdigit {c : Char} (h : isxdigit c = true) : isSep c = false := by
  rw [isSep, Bool.or_eq_false_iff]
  constructor <;>
  · refine decide_eq_false ?_
    rintro rfl
    exact absurd h (by decide)

/-- A decimal digit is a hexadecimal one. -/
theorem isxdigit_of_isdigit {c : Char} (h : isdigit c = true) : isxdigit c = true :=
  decide_eq_true (lt_trans (digitValue_of_isdigit h) (by decide))

/-- Digits with an end are popped as a number. -/
theorem popNumber_digits {digit : Char → Bool} {num : List Char}
    (hdigits : ∀ c ∈ num, digit c = true) (hx : ∀ c, digit c = true → isxdigit c = true)
    (hne : num ≠ []) {sep : Char} (hsep : isSep sep = true) (base : ℕ) (rest : List Char) :
    popNumber digit base (num ++ sep :: rest) = .ok (BitVec.ofInt 32 (strtol num base), rest) := by
  have hplain : ∀ c ∈ num, isSep c = false := fun c hc => isSep_of_isxdigit (hx c (hdigits c hc))
  rw [popNumber, if_neg (by simp)]
  rw [ok_bind (popField_append hplain hne hsep rest)]
  exact if_pos (List.all_eq_true.mpr hdigits)

/-- A number is popped that is printed in the base. -/
theorem popNumber_append {digit : Char → Bool} {base : ℕ} (hone : 1 < base) (hbase : base ≤ 16)
    (hdigit : ∀ n, ∀ c ∈ Nat.toDigits base n, digit c = true)
    (hvalue : ∀ c, digit c = true → digitValue c < base) (v : BitVec 32) {sep : Char}
    (hsep : isSep sep = true) (rest : List Char) :
    popNumber digit base (Nat.toDigits base v.toNat ++ sep :: rest) = .ok (v, rest) := by
  have hdigits := hdigit v.toNat
  have hsmall : ∀ c ∈ Nat.toDigits base v.toNat, digitValue c < base :=
    fun c hc => hvalue c (hdigits c hc)
  have hx : ∀ c, digit c = true → isxdigit c = true :=
    fun c hc => decide_eq_true (lt_of_lt_of_le (hvalue c hc) hbase)
  have hnum := numeral_toDigits hone hbase v.toNat
  have hlong := strtol_digits hbase hsmall (by have hv := v.isLt; omega)
  rw [hnum] at hlong
  rw [popNumber_digits hdigits hx Nat.toDigits_ne_nil hsep, hlong]
  simp

/-- `pop_num` pops a printed number. -/
theorem popNum_append (v : BitVec 32) {sep : Char} (hsep : isSep sep = true) (rest : List Char) :
    popNum (Nat.toDigits 10 v.toNat ++ sep :: rest) = .ok (v, rest) :=
  popNumber_append (by decide) (by decide) (fun _ _ hc => isdigit_of_mem_toDigits hc)
    (fun _ hc => digitValue_of_isdigit hc) v hsep rest

/-- `pop_hex_num` pops a printed number. -/
theorem popHexNum_append (v : BitVec 32) {sep : Char} (hsep : isSep sep = true) (rest : List Char) :
    popHexNum (formatX v ++ sep :: rest) = .ok (v, rest) :=
  popNumber_append (by decide) (by decide) (fun _ _ hc => isxdigit_of_mem_toDigits hc)
    (fun _ hc => of_decide_eq_true hc) v hsep rest

end RpiVm.Replay
