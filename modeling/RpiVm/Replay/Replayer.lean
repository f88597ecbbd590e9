import RpiVm.Lib.Recording
import RpiVm.Replay.Soundness

/-!
# The replayer as a machine

`replay` again, byte by byte: what it writes to the child and what it waits for. Where the
child keeps sending, the verdict of `replay` is the one that the machine comes to.
-/

namespace RpiVm.Replay

open CLib Channel

/-! ## The machine -/

/-- Where the loop of `replay` is. -/
inductive ReplayerState where
  /-- At the head, with the rest of the log. -/
  | entry (n : ℕ) (es : List Entry) (canFailP : Bool)
  /-- In `write_exact`, with the bytes that are left. -/
  | writing (bs : List (BitVec 8)) (n : ℕ) (es : List Entry) (canFailP : Bool)
  /-- In `read_exact`, with the word expected and the bytes that have been read. -/
  | reading (v : BitVec 32) (got : List (BitVec 8)) (n : ℕ) (es : List Entry) (canFailP : Bool)
  /-- At the label `error`. -/
  | error (canFailP : Bool)
  /-- It has stopped. -/
  | stopped (stop : Stop)

/-- Bytes that are written one after the other. -/
def writeBytes (n : ℕ) (es : List Entry) (canFailP : Bool) :
    List (BitVec 8) → Action (BitVec 8) ReplayerState
  | [] => .halt
  | [b] => .send b (.entry (n + 1) es canFailP)
  | b :: bs => .send b (.writing bs n es canFailP)

/-- One byte for a word that is expected. -/
def readByte (v : BitVec 32) (got : List (BitVec 8)) (n : ℕ) (es : List Entry) (canFailP : Bool) :
    Action (BitVec 8) ReplayerState :=
  .recv fun b =>
    let got := got ++ [b]
    if got.length < 4 then .reading v got n es canFailP
    else if got ≠ wordBytes v then
      if canFailP then .error canFailP
      else .stopped (.panic "values don't match; expected: %s:%d:%x, got %x\n")
    else .entry (n + 1) es canFailP

/-- The loop of `replay`, with the values of `random` at each entry. -/
def replayer (random : ℕ → List (BitVec 32)) (corruptOp : BitVec 32) :
    Machine (BitVec 8) ReplayerState
  | .entry _ [] _ => .halt
  | .entry n (e :: es) canFailP =>
    match if e.cnt = corruptOp then (corrupt32 (random n) e.val).map (·, true)
      else pure (e.val, canFailP) with
    | .error _ => .halt
    | .ok (v, canFailP) =>
      match e.op with
      | .read8 => writeBytes n es canFailP [v.setWidth 8]
      | .read32 => writeBytes n es canFailP (wordBytes v)
      | .write32 =>
        if BitVec.ofNat 32 n = corruptOp then .halt else readByte v [] n es canFailP
  | .writing bs n es canFailP => writeBytes n es canFailP bs
  | .reading v got n es canFailP => readByte v got n es canFailP
  | .error _ => .halt
  | .stopped _ => .halt

/-! ## What is left of `replay` -/

/-- From an entry on, all that is written before a corruption is taken. -/
def Behaviour.Takes (b : Behaviour) (corruptOp : BitVec 32) (n : ℕ) (es : List Entry)
    (canFailP : Bool) : Prop :=
  canFailP = false → ∀ i < es.length,
    (∃ j ≤ i, ∃ e, es[j]? = some e ∧ e.cnt = corruptOp) ∨ ∀ buf, b.writes (n + i) buf = buf.length

/-- So it is from where the machine is. -/
def ReplayerState.Taken (b : Behaviour) (corruptOp : BitVec 32) : ReplayerState → Prop
  | .entry n es canFailP => b.Takes corruptOp n es canFailP
  | .writing _ n es canFailP => b.Takes corruptOp (n + 1) es canFailP
  | .reading _ _ n es canFailP => b.Takes corruptOp (n + 1) es canFailP
  | .error _ => True
  | .stopped _ => True

/-- The loop of `replay` from where the machine is. -/
def rest (b : Behaviour) (corruptOp : BitVec 32) : ReplayerState → List Arrival →
    Except Stop (LoopExit × Bool × List Arrival)
  | .entry n es canFailP, a => replayLoop b corruptOp n es canFailP a
  | .writing _ n es canFailP, a => replayLoop b corruptOp (n + 1) es canFailP a
  | .reading v _ n es canFailP, a =>
    readExact (b.bytesRead n) (wordBytes (b.temp n)) 4 canFailP a >>= fun x =>
      if x.1 ≠ 1 then throw (.err "read exact messed up")
      else if x.2.1 ≠ wordBytes v then
        if canFailP then pure (.error, canFailP, x.2.2)
        else throw (.panic "values don't match; expected: %s:%d:%x, got %x\n")
      else replayLoop b corruptOp (n + 1) es canFailP x.2.2
  | .error canFailP, a => pure (.error, canFailP, a)
  | .stopped stop, _ => throw stop

/-- The bytes read of a word that is not complete. -/
def ReplayerState.pending : ReplayerState → List (BitVec 8)
  | .reading _ got _ _ _ => got
  | _ => []

/-- The first write is taken, and then the others. -/
theorem Behaviour.Takes.of_cons {b : Behaviour} {corruptOp : BitVec 32} {n : ℕ} {e : Entry}
    {es : List Entry} {canFailP : Bool} (hb : b.Takes corruptOp n (e :: es) canFailP)
    {v : BitVec 32} {canFailP' : Bool}
    (hv : (if e.cnt = corruptOp then (corrupt32 (b.random n) e.val).map (·, true)
      else pure (e.val, canFailP)) = .ok (v, canFailP')) :
    (∀ buf, writeExact b n buf canFailP' = .ok ()) ∧ b.Takes corruptOp (n + 1) es canFailP' := by
  by_cases hcnt : e.cnt = corruptOp
  · rw [if_pos hcnt] at hv
    have hfail : canFailP' = true := by
      cases hcorrupt : corrupt32 (b.random n) e.val with
      | error stop =>
        rw [hcorrupt] at hv
        cases hv
      | ok c =>
        rw [hcorrupt] at hv
        cases hv
        rfl
    subst hfail
    exact ⟨fun buf => writeExact_eq_ok.mpr nofun, nofun⟩
  · rw [if_neg hcnt] at hv
    obtain ⟨rfl, rfl⟩ := Prod.mk.inj (Except.ok.inj hv)
    constructor
    · refine fun buf => writeExact_eq_ok.mpr fun hfail => ?_
      obtain ⟨j, hj, e', he', hcnt'⟩ | hwrites := hb hfail 0 (by simp)
      · obtain rfl := Nat.le_zero.mp hj
        obtain rfl := Option.some.inj he'
        exact absurd hcnt' hcnt
      · exact hwrites buf
    · intro hfail i hi
      obtain ⟨j, hj, e', he', hcnt'⟩ | hwrites := hb hfail (i + 1) (by simpa using hi)
      · cases j with
        | zero =>
          obtain rfl := Option.some.inj he'
          exact absurd hcnt' hcnt
        | succ j => exact .inl ⟨j, by omega, e', he', hcnt'⟩
      · exact .inr (by rwa [Nat.add_right_comm])

/-- What is left while bytes are written. -/
theorem rest_of_writeBytes {b : Behaviour} {corruptOp : BitVec 32} {n : ℕ} {es : List Entry}
    {canFailP : Bool} (hb : b.Takes corruptOp (n + 1) es canFailP) {bs : List (BitVec 8)}
    {x : BitVec 8} {t : ReplayerState} (hsend : writeBytes n es canFailP bs = .send x t)
    (a : List Arrival) : t.Taken b corruptOp ∧ t.pending = [] ∧
      rest b corruptOp t a = replayLoop b corruptOp (n + 1) es canFailP a := by
  cases bs with
  | nil => cases hsend
  | cons b' bs =>
    cases bs with
    | nil =>
      obtain ⟨-, rfl⟩ := Action.send.inj hsend
      exact ⟨hb, rfl, rfl⟩
    | cons =>
      obtain ⟨-, rfl⟩ := Action.send.inj hsend
      exact ⟨hb, rfl, rfl⟩

/-- An entry after the decision on its value. -/
theorem replayLoop_cons {b : Behaviour} {corruptOp : BitVec 32} {n : ℕ} {e : Entry}
    {es : List Entry} {canFailP : Bool} {v : BitVec 32} {canFailP' : Bool} (a : List Arrival)
    (hv : (if e.cnt = corruptOp then (corrupt32 (b.random n) e.val).map (·, true)
      else pure (e.val, canFailP)) = .ok (v, canFailP')) :
    replayLoop b corruptOp n (e :: es) canFailP a =
      match e.op with
      | .read8 => writeExact b n [v.setWidth 8] canFailP' >>= fun _ =>
          replayLoop b corruptOp (n + 1) es canFailP' a
      | .read32 => writeExact b n (wordBytes v) canFailP' >>= fun _ =>
          replayLoop b corruptOp (n + 1) es canFailP' a
      | .write32 =>
        if BitVec.ofNat 32 n = corruptOp then throw (.assertion "n != corrupt_op")
        else rest b corruptOp (.reading v [] n es canFailP') a := by
  rw [replayLoop]
  by_cases hcnt : e.cnt = corruptOp
  · rw [if_pos hcnt] at hv ⊢
    rw [hv]
    cases hop : e.op with
    | write32 =>
      by_cases hn : BitVec.ofNat 32 n = corruptOp
      · simp only [bind, Except.bind, if_pos hn]
        rfl
      · simp only [bind, Except.bind, if_neg hn]
        rfl
    | _ => rfl
  · rw [if_neg hcnt] at hv ⊢
    rw [hv]
    cases hop : e.op with
    | write32 =>
      by_cases hn : BitVec.ofNat 32 n = corruptOp
      · simp only [bind, Except.bind, if_pos hn]
        rfl
      · simp only [bind, Except.bind, if_neg hn]
        rfl
    | _ => rfl

/-- A byte that is written does not change what is left. -/
theorem rest_of_send {b : Behaviour} {corruptOp : BitVec 32} {s t : ReplayerState}
    (hs : s.Taken b corruptOp) {x : BitVec 8}
    (hsend : replayer b.random corruptOp s = .send x t) (a : List Arrival) :
    t.Taken b corruptOp ∧ s.pending = [] ∧ t.pending = [] ∧
      rest b corruptOp s a = rest b corruptOp t a := by
  cases s with
  | entry n es canFailP =>
    cases es with
    | nil => cases hsend
    | cons e es =>
      rw [replayer] at hsend
      split at hsend
      · cases hsend
      · rename_i v canFailP' hv
        obtain ⟨hwrites, hnext⟩ := Behaviour.Takes.of_cons hs hv
        rw [rest, replayLoop_cons a hv]
        cases hop : e.op with
        | read8 =>
          rw [hop] at hsend
          obtain ⟨ht, hpending, hrest⟩ := rest_of_writeBytes hnext hsend a
          refine ⟨ht, rfl, hpending, ?_⟩
          rw [hrest]
          simp only [hwrites]
          rfl
        | read32 =>
          rw [hop] at hsend
          obtain ⟨ht, hpending, hrest⟩ := rest_of_writeBytes hnext hsend a
          refine ⟨ht, rfl, hpending, ?_⟩
          rw [hrest]
          simp only [hwrites]
          rfl
        | write32 =>
          rw [hop] at hsend
          simp only at hsend
          split at hsend <;> cases hsend
  | writing bs n es canFailP =>
    obtain ⟨ht, hpending, hrest⟩ := rest_of_writeBytes hs hsend a
    exact ⟨ht, rfl, hpending, hrest.symm⟩
  | reading => cases hsend
  | error => cases hsend
  | stopped => cases hsend

/-- A byte that is read for a word is one of the bytes that `read_exact` reads. -/
theorem rest_of_readByte {b : Behaviour} {corruptOp v : BitVec 32} {n : ℕ} {es : List Entry}
    {canFailP : Bool} (hb : b.Takes corruptOp (n + 1) es canFailP) {got : List (BitVec 8)}
    (hgot : got.length < 4) {f : BitVec 8 → ReplayerState}
    (hrecv : readByte v got n es canFailP = .recv f) (x : BitVec 8) {S : List Sym} {a : List Arrival}
    (ha : symsOf a = (got ++ [x]).map .byte ++ S) :
    (f x).Taken b corruptOp ∧ (f x).pending.length < 4 ∧
      ∃ a', symsOf a' = (f x).pending.map .byte ++ S ∧
        rest b corruptOp (.reading v got n es canFailP) a = rest b corruptOp (f x) a' := by
  obtain rfl := Action.recv.inj hrecv
  dsimp only
  by_cases hlt : (got ++ [x]).length < 4
  · rw [if_pos hlt]
    exact ⟨hb, hlt, a, ha, rfl⟩
  · have hlen : (got ++ [x]).length = 4 := by
      rw [List.length_append, List.length_singleton] at hlt ⊢
      omega
    rw [if_neg hlt]
    -- the word is complete
    have hreceive := receive_append (b.bytesRead n) 0 [] (got ++ [x]) S
    have hread := readExact_eq (n := 4) (by decide) (b.bytesRead n) (wordBytes (b.temp n)) canFailP a
    rw [hlen, List.nil_append] at hreceive
    rw [ha, hreceive] at hread
    obtain ⟨a', hrest, heq⟩ := hread
    have hdrop : (wordBytes (b.temp n)).drop (got ++ [x]).length = [] :=
      List.drop_eq_nil_of_le (by rw [hlen]; rfl)
    rw [hdrop, List.append_nil] at heq
    rw [rest, heq]
    by_cases hword : got ++ [x] = wordBytes v
    · rw [if_neg (not_not.mpr hword)]
      refine ⟨hb, Nat.zero_lt_succ 3, a', hrest, ?_⟩
      simp only [bind, Except.bind, ne_eq, not_true_eq_false, if_false, hword]
      rfl
    · rw [if_pos hword]
      cases canFailP with
      | true =>
        refine ⟨trivial, Nat.zero_lt_succ 3, a', hrest, ?_⟩
        simp only [bind, Except.bind, ne_eq, not_true_eq_false, if_false, hword, not_false_eq_true,
          if_true]
        rfl
      | false =>
        refine ⟨trivial, Nat.zero_lt_succ 3, a', hrest, ?_⟩
        simp only [bind, Except.bind, ne_eq, not_true_eq_false, if_false, hword, not_false_eq_true,
          if_true]
        rfl

/-- A byte that is read. -/
theorem rest_of_recv {b : Behaviour} {corruptOp : BitVec 32} {s : ReplayerState}
    (hs : s.Taken b corruptOp) (hlt : s.pending.length < 4) {f : BitVec 8 → ReplayerState}
    (hrecv : replayer b.random corruptOp s = .recv f) (x : BitVec 8) {S : List Sym} {a : List Arrival}
    (ha : symsOf a = (s.pending ++ [x]).map .byte ++ S) :
    (f x).Taken b corruptOp ∧ (f x).pending.length < 4 ∧
      ∃ a', symsOf a' = (f x).pending.map .byte ++ S ∧
        rest b corruptOp s a = rest b corruptOp (f x) a' := by
  have hnowrite : ∀ {n es canFailP bs}, writeBytes n es canFailP bs ≠ .recv f := by
    intro n es canFailP bs
    cases bs with
    | nil => exact nofun
    | cons b' bs => cases bs <;> exact nofun
  cases s with
  | entry n es canFailP =>
    cases es with
    | nil => cases hrecv
    | cons e es =>
      rw [replayer] at hrecv
      split at hrecv
      · cases hrecv
      · rename_i v canFailP' hv
        obtain ⟨-, hnext⟩ := Behaviour.Takes.of_cons hs hv
        rw [rest, replayLoop_cons a hv]
        cases hop : e.op with
        | read8 =>
          rw [hop] at hrecv
          exact absurd hrecv hnowrite
        | read32 =>
          rw [hop] at hrecv
          exact absurd hrecv hnowrite
        | write32 =>
          rw [hop] at hrecv
          simp only at hrecv ⊢
          split at hrecv
          · cases hrecv
          · rename_i hn
            rw [if_neg hn]
            exact rest_of_readByte hnext (by decide) hrecv x ha
  | writing => exact absurd hrecv hnowrite
  | reading v got n es canFailP => exact rest_of_readByte hs hlt hrecv x ha
  | error => cases hrecv
  | stopped => cases hrecv

/-- Where the machine comes to, `replay` does: with the bytes arriving that the machine
receives, in any pieces, what is left at the end of a recording is what there was to do at
its beginning. -/
theorem rest_of_recording {b : Behaviour} {corruptOp : BitVec 32} {s t : ReplayerState}
    {l : List (Move (BitVec 8))} (hrec : Recording (replayer b.random corruptOp) s l t)
    (hs : s.Taken b corruptOp) (hlt : s.pending.length < 4) {S : List Sym} {a : List Arrival}
    (ha : symsOf a = (s.pending ++ receivedOf l).map .byte ++ S) :
    ∃ a', symsOf a' = t.pending.map .byte ++ S ∧
      rest b corruptOp s a = rest b corruptOp t a' := by
  induction hrec generalizing a with
  | nil => exact ⟨a, by simpa using ha, rfl⟩
  | send hM _ ih =>
    obtain ⟨ht, hpending, hpending', hrest⟩ := rest_of_send hs hM a
    rw [hpending, receivedOf_sent] at ha
    rw [hrest]
    exact ih ht (by rw [hpending']; decide) (by rw [hpending', ha])
  | @recv s t f l x hM _ ih =>
    have ha₁ : symsOf a = (s.pending ++ [x]).map .byte ++ ((receivedOf l).map .byte ++ S) := by
      rw [ha]
      simp
    obtain ⟨ht, hlt', a₁, ha₁, hrest⟩ := rest_of_recv hs hlt hM x ha₁
    obtain ⟨a', ha', hrest'⟩ := ih ht hlt' (a := a₁) (by rw [ha₁]; simp)
    exact ⟨a', ha', hrest.trans hrest'⟩

end RpiVm.Replay
