import RpiVm.Lib.Panic

/-!
# Formatted output

`printk` formats into a buffer of 1024 bytes and sends what fits. It panics on a
specifier that it does not know and on a width from 32 on; a format whose specifiers
match the arguments always returns.
-/

namespace RpiVm

open CLib

/-- An argument of `printk`. -/
inductive PrintArg where
  /-- An integer or a pointer. -/
  | word (v : BitVec 32)
  /-- A string. -/
  | str (s : String)

/-- What a specifier takes. -/
inductive ArgKind where
  /-- An integer or a pointer. -/
  | word
  /-- A string. -/
  | str
  deriving DecidableEq

/-- The kind of an argument. -/
def PrintArg.kind : PrintArg → ArgKind
  | word _ => .word
  | str _ => .str

/-- The loop of `emit` over the digits, lowest first; 32 rounds suffice for any word. -/
def emitDigits (base : ℕ) : ℕ → ℕ → List Char
  | 0, _ => []
  | rounds + 1, u =>
    Nat.digitChar (u % base) :: if u / base = 0 then [] else emitDigits base rounds (u / base)

/-- `pad`: the digits are still in reverse, so that the blanks come first at the end. -/
def pad (digits : List Char) (width : ℕ) : List Char :=
  digits ++ List.replicate (width - digits.length) ' '

/-- `emit`: base 8 stands for a single character. -/
def emit (base : ℕ) (val width : BitVec 32) (signed : Bool) : List Char :=
  let digits :=
    if base = 8 then [Char.ofNat (val.toNat % 256)]
    else if signed && val.msb then emitDigits base 32 (-val).toNat ++ ['-']
    else emitDigits base 32 val.toNat
  (pad digits width.toNat).reverse

/-- The text for one specifier, and the arguments that are left. An argument that is
missing or of the wrong kind is undefined behaviour, which never returns here. -/
def convert (width : BitVec 32) (c : Char) (args : List PrintArg) :
    Except Panic (List Char × List PrintArg) := do
  assert (width < 32) "width < 32"
  match c, args with
  | 'd', .word v :: args => pure (emit 10 v width true, args)
  | 'u', .word v :: args => pure (emit 10 v width false, args)
  | 'p', .word v :: args => pure (emit 16 v width false, args)
  | 'x', .word v :: args => pure (emit 16 v width false, args)
  | 'b', .word v :: args => pure (emit 2 v width false, args)
  | 's', .str s :: args => pure (s.toList, args)
  | 'c', .word v :: args => pure (emit 8 v width false, args)
  | 'f', _ => throw (.message "float not enabled!!!")
  | _, _ => throw (.message "printk: not handling specifier '%c'\n")

/-- Where the loop of `va_printk` stands in the format. -/
inductive FormatMode where
  /-- In plain text. -/
  | text
  /-- Right after a percent sign. -/
  | percent
  /-- After digits of a width. -/
  | width (w : BitVec 32)

/-- One more digit of a width. -/
def addDigit (w : BitVec 32) (c : Char) : BitVec 32 := w * 10 + BitVec.ofNat 32 (c.toNat - 48)

/-- The safe string copy: up to the end of the string or of the buffer. -/
def copyString (s : List Char) (room : ℕ) : List Char :=
  (s.takeWhile fun c => c.toNat != 0).take room

/-- `va_printk`: `room` characters are left in the buffer. -/
def vaPrintk : List Char → FormatMode → List PrintArg → ℕ → Except Panic (List Char)
  | [], .text, _, _ => pure []
  | [], _, _, _ => throw (.message "printk: not handling specifier '%c'\n")
  | c :: fmt, .text, args, room =>
    if room = 0 then pure []
    else if c = '%' then vaPrintk fmt .percent args room
    else do
      let rest ← vaPrintk fmt .text args (room - 1)
      pure (c :: rest)
  | c :: fmt, .percent, args, room =>
    if c = '%' then do
      let rest ← vaPrintk fmt .text args (room - 1)
      pure (c :: rest)
    else if c.isDigit then vaPrintk fmt (.width (addDigit 0 c)) args room
    else do
      let (s, args) ← convert 0 c args
      let s := copyString s room
      let rest ← vaPrintk fmt .text args (room - s.length)
      pure (s ++ rest)
  | c :: fmt, .width w, args, room =>
    if c.isDigit then vaPrintk fmt (.width (addDigit w c)) args room
    else do
      let (s, args) ← convert w c args
      let s := copyString s room
      let rest ← vaPrintk fmt .text args (room - s.length)
      pure (s ++ rest)

/-- `printk`: the text that it sends. -/
def printk (fmt : String) (args : List PrintArg) : Except Panic (List Char) :=
  vaPrintk fmt.toList .text args 1023

/-! ## Formats that always return -/

/-- What a specifier takes, if `va_printk` knows it. -/
def specifierKind (c : Char) : Option ArgKind :=
  if c ∈ ['d', 'u', 'p', 'x', 'b', 'c'] then some .word
  else if c = 's' then some .str
  else none

/-- A specifier with a small width that takes the next argument. -/
def specifierFits (w : BitVec 32) (c : Char) (kinds : List ArgKind) : Bool :=
  w < 32 && specifierKind c == kinds.head?

/-- The specifiers of a format match the kinds of the arguments. -/
def formatFits : List Char → FormatMode → List ArgKind → Bool
  | [], .text, _ => true
  | [], _, _ => false
  | c :: fmt, .text, kinds =>
    if c = '%' then formatFits fmt .percent kinds else formatFits fmt .text kinds
  | c :: fmt, .percent, kinds =>
    if c = '%' then formatFits fmt .text kinds
    else if c.isDigit then formatFits fmt (.width (addDigit 0 c)) kinds
    else !kinds.isEmpty && specifierFits 0 c kinds && formatFits fmt .text kinds.tail
  | c :: fmt, .width w, kinds =>
    if c.isDigit then formatFits fmt (.width (addDigit w c)) kinds
    else !kinds.isEmpty && specifierFits w c kinds && formatFits fmt .text kinds.tail

/-- A specifier that fits takes one argument. -/
theorem convert_returns {w : BitVec 32} {c : Char} {a : PrintArg} {args : List PrintArg}
    (h : specifierFits w c (a.kind :: args.map PrintArg.kind) = true) :
    ∃ s, convert w c (a :: args) = .ok (s, args) := by
  obtain ⟨hw, hkind⟩ := (Bool.and_eq_true _ _).mp h
  have hspec : specifierKind c = some a.kind := by simpa using hkind
  have hassert : assert (decide (w < 32)) "width < 32" = .ok () := assert_eq_ok.mpr hw
  unfold convert
  rw [hassert]
  unfold specifierKind at hspec
  split_ifs at hspec with hword hstr
  · cases a with
    | word v =>
      simp only [List.mem_cons, List.not_mem_nil, or_false] at hword
      rcases hword with rfl | rfl | rfl | rfl | rfl | rfl <;> exact ⟨_, rfl⟩
    | str s => exact absurd hspec (by simp [PrintArg.kind])
  · cases a with
    | word v => exact absurd hspec (by simp [PrintArg.kind])
    | str s =>
      subst hstr
      exact ⟨_, rfl⟩

/-- A specifier that fits returns if the rest of the format does. -/
theorem specifier_returns {w : BitVec 32} {c : Char} {args : List PrintArg} {room : ℕ}
    {next : List PrintArg → ℕ → Except Panic (List Char)} {rest : List ArgKind → Bool}
    (hnext : ∀ args room, rest (args.map PrintArg.kind) = true → ∃ t, next args room = .ok t)
    (h : (!(args.map PrintArg.kind).isEmpty && specifierFits w c (args.map PrintArg.kind) &&
      rest (args.map PrintArg.kind).tail) = true) :
    ∃ t, (do
      let (s, args) ← convert w c args
      let s := copyString s room
      let rest ← next args (room - s.length)
      pure (s ++ rest) : Except Panic (List Char)) = .ok t := by
  cases args with
  | nil => simp at h
  | cons a args =>
    simp only [List.map_cons, List.isEmpty_cons, Bool.not_false, Bool.true_and,
      Bool.and_eq_true, List.tail_cons] at h
    obtain ⟨s, hs⟩ := convert_returns h.1
    obtain ⟨t, ht⟩ := hnext args (room - (copyString s room).length) h.2
    exact ⟨_, bind_eq_ok.mpr ⟨(s, args), hs, bind_eq_ok.mpr ⟨t, ht, rfl⟩⟩⟩

/-- A format that fits its arguments returns, whatever the arguments are. -/
theorem vaPrintk_returns {fmt : List Char} {mode : FormatMode} {args : List PrintArg}
    (h : formatFits fmt mode (args.map PrintArg.kind) = true) (room : ℕ) :
    ∃ t, vaPrintk fmt mode args room = .ok t := by
  induction fmt generalizing mode args room with
  | nil =>
    cases mode with
    | text => exact ⟨[], rfl⟩
    | percent => simp [formatFits] at h
    | width w => simp [formatFits] at h
  | cons c fmt ih =>
    cases mode with
    | text =>
      rw [vaPrintk]
      rw [formatFits] at h
      split_ifs at h ⊢ with hc hroom
      · exact ⟨[], rfl⟩
      · exact ⟨[], rfl⟩
      · exact ih h room
      · obtain ⟨t, ht⟩ := ih h (room - 1)
        exact ⟨_, bind_eq_ok.mpr ⟨t, ht, rfl⟩⟩
    | percent =>
      rw [vaPrintk]
      rw [formatFits] at h
      split_ifs at h ⊢ with hc hdigit
      · obtain ⟨t, ht⟩ := ih h (room - 1)
        exact ⟨_, bind_eq_ok.mpr ⟨t, ht, rfl⟩⟩
      · exact ih h room
      · exact specifier_returns (fun args' room' h' => ih h' room') h
    | width w =>
      rw [vaPrintk]
      rw [formatFits] at h
      split_ifs at h ⊢ with hdigit
      · exact ih h room
      · exact specifier_returns (fun args' room' h' => ih h' room') h

/-- A call of `printk` whose format fits its arguments returns. -/
theorem printk_returns {fmt : String} {args : List PrintArg}
    (h : formatFits fmt.toList .text (args.map PrintArg.kind) = true) :
    ∃ t, printk fmt args = .ok t := vaPrintk_returns h 1023

/-! ## Enough space -/

/-- With enough space the loop of `va_printk` writes the text, and is not stopped by the end of the
buffer. -/
def WouldWrite (fmt : List Char) (args : List PrintArg) (text : List Char) : Prop :=
  ∃ room, text.length < room ∧ vaPrintk fmt .text args room = .ok text

/-- A string that was copied to its end is cut by any other end of the buffer. -/
theorem copyString_take {s : List Char} {room : ℕ} (h : (copyString s room).length < room)
    (room' : ℕ) : copyString s room' = (copyString s room).take room' := by
  have hwhole : copyString s room = s.takeWhile fun c => c.toNat != 0 := by
    refine List.take_of_length_le ?_
    rw [copyString, List.length_take] at h
    omega
  rw [hwhole]
  rfl

/-- A specifier and what follows are cut by the end of the buffer, if the rest is. -/
theorem specifier_take {w : BitVec 32} {c : Char} {args : List PrintArg} {room : ℕ}
    {text : List Char} {next : List PrintArg → ℕ → Except Panic (List Char)}
    (hnext : ∀ args room text, next args room = .ok text → text.length < room →
      ∀ room', next args room' = .ok (text.take room'))
    (h : (do
      let (s, args) ← convert w c args
      let s := copyString s room
      let rest ← next args (room - s.length)
      pure (s ++ rest) : Except Panic (List Char)) = .ok text)
    (hlt : text.length < room) (room' : ℕ) :
    (do
      let (s, args) ← convert w c args
      let s := copyString s room'
      let rest ← next args (room' - s.length)
      pure (s ++ rest) : Except Panic (List Char)) = .ok (text.take room') := by
  obtain ⟨⟨s, args'⟩, hconvert, h⟩ := bind_eq_ok.mp h
  obtain ⟨rest, hrest, hpure⟩ := bind_eq_ok.mp h
  obtain rfl := pure_eq_ok.mp hpure
  rw [List.length_append] at hlt
  have hcopy : ∀ room', copyString s room' = (copyString s room).take room' :=
    copyString_take (by omega)
  have htail := hnext args' _ rest hrest (by omega)
  have hroom : room' - ((copyString s room).take room').length =
      room' - (copyString s room).length := by
    rw [List.length_take]
    omega
  rw [ok_bind hconvert]
  dsimp only
  rw [hcopy, hroom, ok_bind (htail _), List.take_append]
  rfl

/-- A text that ends before the buffer is what any other buffer gets the beginning of. -/
theorem vaPrintk_take {fmt : List Char} {mode : FormatMode} {args : List PrintArg} {room : ℕ}
    {text : List Char} (h : vaPrintk fmt mode args room = .ok text) (hlt : text.length < room)
    {room' : ℕ} (hroom' : mode ≠ .text → 0 < room') :
    vaPrintk fmt mode args room' = .ok (text.take room') := by
  induction fmt generalizing mode args room text room' with
  | nil =>
    cases mode with
    | text =>
      obtain rfl := pure_eq_ok.mp h
      exact congrArg _ List.take_nil.symm
    | percent => cases h
    | width w => cases h
  | cons c fmt ih =>
    -- a character, and the rest of the format behind it
    have hchar (room' : ℕ) (h : (vaPrintk fmt .text args (room - 1) >>= fun rest =>
        pure (c :: rest)) = .ok text) :
        (vaPrintk fmt .text args room' >>= fun rest => pure (c :: rest)) =
          .ok (text.take (room' + 1)) := by
      obtain ⟨rest, hrest, hpure⟩ := bind_eq_ok.mp h
      obtain rfl := pure_eq_ok.mp hpure
      rw [List.length_cons] at hlt
      rw [ok_bind (ih hrest (by omega) fun hne => absurd rfl hne), List.take_succ_cons]
      rfl
    have hnext : ∀ args room text, vaPrintk fmt .text args room = .ok text → text.length < room →
        ∀ room', vaPrintk fmt .text args room' = .ok (text.take room') :=
      fun _ _ _ hrest hshort _ => ih hrest hshort fun hne => absurd rfl hne
    cases mode with
    | text =>
      rw [vaPrintk, if_neg (by omega)] at h
      rcases Nat.eq_zero_or_pos room' with rfl | hpos
      · rw [vaPrintk, if_pos rfl, List.take_zero]
        rfl
      · rw [vaPrintk, if_neg hpos.ne']
        split_ifs at h ⊢ with hpercent
        · exact ih h hlt fun _ => hpos
        · obtain ⟨k, rfl⟩ := Nat.exists_eq_succ_of_ne_zero hpos.ne'
          exact hchar k h
    | percent =>
      have hpos := hroom' (by simp)
      rw [vaPrintk] at h ⊢
      split_ifs at h ⊢ with hpercent hdigit
      · obtain ⟨k, rfl⟩ := Nat.exists_eq_succ_of_ne_zero hpos.ne'
        exact hchar k h
      · exact ih h hlt fun _ => hpos
      · exact specifier_take hnext h hlt room'
    | width w =>
      rw [vaPrintk] at h ⊢
      split_ifs at h ⊢ with hdigit
      · exact ih h hlt fun _ => hroom' (by simp)
      · exact specifier_take hnext h hlt room'

/-- Whatever the space is, the beginning of the text is written that fits. -/
theorem WouldWrite.vaPrintk_eq {fmt : List Char} {args : List PrintArg} {text : List Char}
    (h : WouldWrite fmt args text) (room : ℕ) :
    vaPrintk fmt .text args room = .ok (text.take room) := by
  obtain ⟨_, hlt, hok⟩ := h
  exact vaPrintk_take hok hlt fun hne => absurd rfl hne

/-- A specifier that fits is written if there is enough space for the rest. -/
theorem specifier_wouldWrite {w : BitVec 32} {c : Char} {args : List PrintArg}
    {next : List PrintArg → ℕ → Except Panic (List Char)} {rest : List ArgKind → Bool}
    (hnext : ∀ args, rest (args.map PrintArg.kind) = true →
      ∃ room text, text.length < room ∧ next args room = .ok text)
    (h : (!(args.map PrintArg.kind).isEmpty && specifierFits w c (args.map PrintArg.kind) &&
      rest (args.map PrintArg.kind).tail) = true) :
    ∃ room text, text.length < room ∧ (do
      let (s, args) ← convert w c args
      let s := copyString s room
      let rest ← next args (room - s.length)
      pure (s ++ rest) : Except Panic (List Char)) = .ok text := by
  cases args with
  | nil => simp at h
  | cons a args =>
    simp only [List.map_cons, List.isEmpty_cons, Bool.not_false, Bool.true_and,
      Bool.and_eq_true, List.tail_cons] at h
    obtain ⟨s, hs⟩ := convert_returns h.1
    obtain ⟨room, t, hlt, ht⟩ := hnext args h.2
    let whole := s.takeWhile fun c => c.toNat != 0
    have hcopy : copyString s (whole.length + room) = whole :=
      List.take_of_length_le (Nat.le_add_right _ _)
    refine ⟨whole.length + room, whole ++ t, ?_, ?_⟩
    · rw [List.length_append]
      omega
    · rw [ok_bind hs]
      dsimp only
      rw [hcopy, Nat.add_sub_cancel_left, ok_bind ht]
      rfl

/-- A format that fits its arguments ends if there is enough space. -/
theorem vaPrintk_ends {fmt : List Char} {mode : FormatMode} {args : List PrintArg}
    (h : formatFits fmt mode (args.map PrintArg.kind) = true) :
    ∃ room text, text.length < room ∧ vaPrintk fmt mode args room = .ok text := by
  induction fmt generalizing mode args with
  | nil =>
    cases mode with
    | text => exact ⟨1, [], Nat.zero_lt_one, rfl⟩
    | percent => simp [formatFits] at h
    | width w => simp [formatFits] at h
  | cons c fmt ih =>
    cases mode with
    | text =>
      rw [formatFits] at h
      split_ifs at h with hc
      · obtain ⟨room, text, hlt, hok⟩ := ih h
        refine ⟨room, text, hlt, ?_⟩
        rw [vaPrintk, if_neg (by omega), if_pos hc, hok]
      · obtain ⟨room, text, hlt, hok⟩ := ih h
        refine ⟨room + 1, c :: text, Nat.succ_lt_succ hlt, ?_⟩
        rw [vaPrintk, if_neg (Nat.succ_ne_zero _), if_neg hc]
        exact ok_bind hok _
    | percent =>
      rw [formatFits] at h
      simp only [vaPrintk]
      split_ifs at h ⊢ with hc hdigit
      · obtain ⟨room, text, hlt, hok⟩ := ih h
        exact ⟨room + 1, c :: text, Nat.succ_lt_succ hlt, ok_bind hok _⟩
      · exact ih h
      · exact specifier_wouldWrite (fun args' h' => ih h') h
    | width w =>
      rw [formatFits] at h
      simp only [vaPrintk]
      split_ifs at h ⊢ with hdigit
      · exact ih h
      · exact specifier_wouldWrite (fun args' h' => ih h') h

/-- A format that fits its arguments would write some text. -/
theorem exists_wouldWrite {fmt : List Char} {args : List PrintArg}
    (h : formatFits fmt .text (args.map PrintArg.kind) = true) :
    ∃ text, WouldWrite fmt args text := by
  obtain ⟨room, text, hlt, hok⟩ := vaPrintk_ends h
  exact ⟨text, room, hlt, hok⟩

/-- A format with a width and a string. -/
example : printk "va=0x%8x = %s\n" [.word 0x100000, .str "base"] =
    .ok "va=0x  100000 = base\n".toList := by decide

end RpiVm
