import RpiVm.Replay.Process

/-!
# All or nothing

`read_exact` should return 1 with all of the bytes, and otherwise fail. It looks at the last
`bytesRead` only, so what counts is by what the bytes are cut short: a failing `read` is
reported, a pause or the end of the file passes for success.
-/

namespace RpiVm.Replay

open CLib

/-- By what a number of bytes is cut short. -/
inductive Cut where
  /-- By nothing: they all arrive. -/
  | none
  /-- By the end of the file. -/
  | endOfFile
  /-- By a pause. -/
  | pause
  /-- By a failing `read`. -/
  | readFailed
  /-- By a failing `select`. -/
  | selectFailed
  deriving DecidableEq, Repr

/-- What cuts the first `n` bytes short. -/
def cut : ℕ → List Sym → Cut
  | 0, _ => .none
  | _ + 1, [] => .endOfFile
  | n + 1, .byte _ :: rest => cut n rest
  | _ + 1, .pause :: _ => .pause
  | _ + 1, .readFailed :: _ => .readFailed
  | _ + 1, .selectFailed :: _ => .selectFailed

/-- Some bytes arrive before anything else. -/
def Arrives (n : ℕ) (syms : List Sym) (got : List (BitVec 8)) (rest : List Sym) : Prop :=
  got.length = n ∧ syms = got.map .byte ++ rest

/-- Nothing cuts the bytes short exactly if they all arrive. -/
theorem cut_eq_none_iff {n : ℕ} {syms : List Sym} :
    cut n syms = .none ↔ ∃ got rest, Arrives n syms got rest := by
  constructor
  · intro h
    induction n, syms using cut.induct with
    | case1 syms => exact ⟨[], syms, rfl, rfl⟩
    | case2 n => cases h
    | case3 n b syms ih =>
      obtain ⟨got, rest, hlen, rfl⟩ := ih h
      exact ⟨b :: got, rest, congrArg Nat.succ hlen, rfl⟩
    | case4 n syms => cases h
    | case5 n syms => cases h
    | case6 n syms => cases h
  · rintro ⟨got, rest, rfl, rfl⟩
    induction got with
    | nil => rw [List.length_nil, cut]
    | cons b got ih => exact ih

/-- How reading ends, by what cuts the bytes short. -/
theorem receive_of_cut (junk : ℤ) (n : ℕ) (got : List (BitVec 8)) (syms : List Sym) :
    match cut n syms with
    | .none => True
    | .endOfFile => ∃ bs, receive junk n got syms = .bytes bs []
    | .pause => 0 ≤ junk → ∃ bs rest, receive junk n got syms = .bytes bs rest
    | .readFailed => ∃ rest, receive junk n got syms = .failed rest
    | .selectFailed => receive junk n got syms = .died := by
  induction n, syms using cut.induct generalizing got with
  | case1 syms => rw [cut]; trivial
  | case2 n => exact ⟨got, rfl⟩
  | case3 n b syms ih => exact ih (got ++ [b])
  | case4 n syms =>
    intro hjunk
    refine ⟨got, syms, ?_⟩
    rw [receive, if_neg fun h => absurd h.2 (not_lt.mpr hjunk)]
  | case5 n syms => exact ⟨syms, rfl⟩
  | case6 n syms => rfl

/-- `read_exact` delivers all or nothing. -/
structure ReadsAllOrNothing (n : ℕ) (canFailP : Bool) (a : List Arrival) : Prop where
  /-- When the bytes arrive, it returns 1, and the buffer begins with them, in their order. -/
  delivers : ∀ got rest, Arrives n (symsOf a) got rest → ∀ junk old, ∃ a', symsOf a' = rest ∧
    readExact junk old n canFailP a = .ok (1, got ++ old.drop n, a')
  /-- Otherwise it returns 0 or reports an error, as `can_fail_p` says. -/
  fails : (¬ ∃ got rest, Arrives n (symsOf a) got rest) → ∀ junk old,
    if canFailP then ∃ buf a', readExact junk old n canFailP a = .ok (0, buf, a')
    else ∃ stop, readExact junk old n canFailP a = .error stop
  /-- What `bytesRead` holds at first decides nothing. -/
  independent : ∀ junk junk' old,
    readExact junk old n canFailP a = readExact junk' old n canFailP a

/-- Unless a pause comes first, `bytesRead` is set before it is looked at. -/
theorem readExactLoop_junk {n : ℕ} (hn : 0 < n) {a : List Arrival}
    (hfirst : cut n (symsOf a) ≠ .pause) (junk junk' : ℤ) (old : List (BitVec 8)) :
    readExactLoop n 0 junk old a = readExactLoop n 0 junk' old a := by
  obtain ⟨n, rfl⟩ := Nat.exists_eq_succ_of_ne_zero hn.ne'
  rw [readExactLoop, readExactLoop]
  cases a with
  | nil => rfl
  | cons x a =>
    cases x with
    | chunk b bs => rfl
    | pause => exact absurd rfl hfirst
    | readFailed => rfl
    | selectFailed => rfl

variable {n : ℕ} {canFailP : Bool} {a : List Arrival}

/-- Then `bytesRead` decides nothing. -/
theorem readExact_junk (hn : 0 < n) (hfirst : cut n (symsOf a) ≠ .pause) (junk junk' : ℤ)
    (old : List (BitVec 8)) :
    readExact junk old n canFailP a = readExact junk' old n canFailP a := by
  rw [readExact, readExact, readExactLoop_junk hn hfirst junk junk']

/-- With the bytes read so far it returns 1. -/
theorem readExact_of_bytes (hn : 0 < n) {junk : ℤ} {got : List (BitVec 8)} {rest : List Sym}
    (h : receive junk n [] (symsOf a) = .bytes got rest) (canFailP : Bool)
    (old : List (BitVec 8)) :
    ∃ a', symsOf a' = rest ∧
      readExact junk old n canFailP a = .ok (1, got ++ old.drop got.length, a') := by
  have heq := readExact_eq hn junk old canFailP a
  rwa [h] at heq

/-- When the bytes arrive, `read_exact` returns 1 with them. -/
theorem readExact_of_arrives (hn : 0 < n) {got : List (BitVec 8)} {rest : List Sym}
    (h : Arrives n (symsOf a) got rest) (junk : ℤ) (old : List (BitVec 8)) :
    ∃ a', symsOf a' = rest ∧
      readExact junk old n canFailP a = .ok (1, got ++ old.drop n, a') := by
  obtain ⟨rfl, hsyms⟩ := h
  refine readExact_of_bytes hn ?_ canFailP old
  have happend := receive_append junk 0 [] got rest
  rwa [Nat.add_zero, List.nil_append, receive, ← hsyms] at happend

/-- A success with too few bytes is neither all nor nothing. -/
theorem not_readsAllOrNothing_of_bytes (hn : 0 < n) {got : List (BitVec 8)} {rest : List Sym}
    (hcut : cut n (symsOf a) ≠ .none) (h : receive 0 n [] (symsOf a) = .bytes got rest) :
    ¬ ReadsAllOrNothing n canFailP a := by
  intro hall
  obtain ⟨a', -, hone⟩ := readExact_of_bytes hn h canFailP []
  have hfails := hall.fails (fun harrive => hcut (cut_eq_none_iff.mpr harrive)) 0 []
  rw [hone] at hfails
  cases canFailP with
  | false =>
    obtain ⟨stop, hstop⟩ := hfails
    cases hstop
  | true =>
    obtain ⟨buf, a'', hzero⟩ := hfails
    cases hzero

/-- When a `read` fails first, that is reported. -/
theorem readExact_of_readFailed (hn : 0 < n) (hcut : cut n (symsOf a) = .readFailed) (junk : ℤ)
    (old : List (BitVec 8)) :
    if canFailP then ∃ buf a', readExact junk old n canFailP a = .ok (0, buf, a')
    else ∃ stop, readExact junk old n canFailP a = .error stop := by
  have hends := receive_of_cut junk n [] (symsOf a)
  rw [hcut] at hends
  obtain ⟨rest, hfailed⟩ := hends
  have heq := readExact_eq hn junk old canFailP a
  rw [hfailed] at heq
  obtain ⟨buf, a', -, heq⟩ := heq
  cases canFailP with
  | false => exact ⟨_, heq⟩
  | true => exact ⟨buf, a', heq⟩

/-- When a `select` fails first, the replayer ends. -/
theorem readExact_of_selectFailed (hn : 0 < n) (hcut : cut n (symsOf a) = .selectFailed) (junk : ℤ)
    (old : List (BitVec 8)) :
    readExact junk old n canFailP a = .error (.sysDie "select" "select failed") := by
  have hends := receive_of_cut junk n [] (symsOf a)
  rw [hcut] at hends
  have heq := readExact_eq hn junk old canFailP a
  rwa [hends] at heq

/-- For each number of bytes and all that may arrive: `read_exact` delivers all or nothing exactly
if nothing cuts the bytes short, or a failing `read` does, or a failing `select` does and the
caller does not ask for a return. -/
theorem readExact_allOrNothing_iff (hn : 0 < n) :
    ReadsAllOrNothing n canFailP a ↔
      cut n (symsOf a) = .none ∨ cut n (symsOf a) = .readFailed ∨
        cut n (symsOf a) = .selectFailed ∧ canFailP = false := by
  have hends := receive_of_cut 0 n [] (symsOf a)
  have harrives : (∃ got rest, Arrives n (symsOf a) got rest) → cut n (symsOf a) = .none :=
    cut_eq_none_iff.mpr
  cases hcut : cut n (symsOf a) with
  | none =>
    refine iff_of_true ⟨fun got rest h junk old => readExact_of_arrives hn h junk old,
      fun h => absurd (cut_eq_none_iff.mp hcut) h,
      fun junk junk' old => readExact_junk hn (by rw [hcut]; nofun) junk junk' old⟩ (.inl rfl)
  | endOfFile =>
    rw [hcut] at hends
    obtain ⟨bs, hbytes⟩ := hends
    exact iff_of_false (not_readsAllOrNothing_of_bytes hn (by rw [hcut]; nofun) hbytes) (by simp)
  | pause =>
    rw [hcut] at hends
    obtain ⟨bs, rest, hbytes⟩ := hends le_rfl
    exact iff_of_false (not_readsAllOrNothing_of_bytes hn (by rw [hcut]; nofun) hbytes) (by simp)
  | readFailed =>
    refine iff_of_true ⟨fun got rest h => ?_, fun _ junk old => ?_, fun junk junk' old => ?_⟩
      (.inr (.inl rfl))
    · exact absurd (hcut.symm.trans (harrives ⟨got, rest, h⟩)) nofun
    · exact readExact_of_readFailed hn hcut junk old
    · exact readExact_junk hn (by rw [hcut]; nofun) junk junk' old
  | selectFailed =>
    have hnot : ¬ ∃ got rest, Arrives n (symsOf a) got rest := fun h =>
      absurd (hcut.symm.trans (harrives h)) nofun
    cases canFailP with
    | false =>
      refine iff_of_true ⟨fun got rest h => absurd ⟨got, rest, h⟩ hnot, fun _ junk old => ?_,
        fun junk junk' old => ?_⟩ (.inr (.inr ⟨rfl, rfl⟩))
      · exact ⟨_, readExact_of_selectFailed hn hcut junk old⟩
      · exact readExact_junk hn (by rw [hcut]; nofun) junk junk' old
    | true =>
      refine iff_of_false (fun hall => ?_) (by simp)
      obtain ⟨buf, a', hzero⟩ := hall.fails hnot 0 []
      rw [readExact_of_selectFailed hn hcut] at hzero
      cases hzero

/-- A word in two pieces, with nothing in between. -/
theorem readExact_allOrNothing_iff_split :
    ReadsAllOrNothing 4 true [.chunk 1 [2], .chunk 3 [4, 5]] ↔
      cut 4 (symsOf [.chunk 1 [2], .chunk 3 [4, 5]]) = .none ∨
        cut 4 (symsOf [.chunk 1 [2], .chunk 3 [4, 5]]) = .readFailed ∨
        cut 4 (symsOf [.chunk 1 [2], .chunk 3 [4, 5]]) = .selectFailed ∧ true = false :=
  readExact_allOrNothing_iff (by decide)

/-- Two bytes of four pass for all of them, and after a pause before the first byte the result is
what `bytesRead` happened to hold. -/
theorem readExact_short :
    (∃ a, readExact 0 [0, 0, 0, 0] 4 false [.chunk 1 [2], .pause] = .ok (1, [1, 2, 0, 0], a)) ∧
      readExact 0 [0, 0, 0, 0] 4 true [.pause] = .ok (1, [0, 0, 0, 0], []) ∧
      readExact (-1) [0, 0, 0, 0] 4 true [.pause] = .ok (0, [0, 0, 0, 0], []) ∧
      ¬ ReadsAllOrNothing 4 false [.chunk 1 [2], .pause] := by
  have hbytes : receive 0 4 [] (symsOf [.chunk 1 [2], .pause]) = .bytes [1, 2] [] := rfl
  -- the loop ends before its first read
  have hpause (junk : ℤ) :
      readExactLoop 4 0 junk [0, 0, 0, 0] [.pause] = .ok (junk, [0, 0, 0, 0], []) := by
    rw [readExactLoop]
    rfl
  refine ⟨?_, ?_, ?_, not_readsAllOrNothing_of_bytes (by decide) (by decide) hbytes⟩
  · obtain ⟨a, -, hone⟩ := readExact_of_bytes (by decide) hbytes false [0, 0, 0, 0]
    exact ⟨a, hone⟩
  · rw [readExact, hpause]
    rfl
  · rw [readExact, hpause]
    rfl

end RpiVm.Replay
