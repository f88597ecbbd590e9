import RpiVm.Replay.Trace
import RpiVm.Replay.Verdict

/-!
# When a verdict is right

A replay without a corruption should report success only of a child that writes the
words of the log and exits with zero, and one with a corruption should report success of
every child that then fails. Both hold exactly when no word is cut short and passes, no
read fails after a corruption, and no signal kills the child.
-/

namespace RpiVm.Replay

open CLib

/-! ## The claims and the conditions -/

/-- A success that `replay(end, -1)` reports is one: the child has written exactly the words
of the log and exited with zero. -/
def SuccessSound (b : Behaviour) (log : List Entry) : Prop :=
  ∀ status, replay b (-1) log = .ok status →
    symsOf b.arrivals = (writtenBytes log).map .byte ∧ b.wait = some (.exited 0)

/-- When the whole log passes and then the file ends, no signal has killed the child, and if
it has exited with zero no word was cut short. -/
def NoneCutShort (b : Behaviour) (log : List Entry) : Prop :=
  ∀ c, Passes b false 0 log c (symsOf b.arrivals) [] →
    (∀ sig core hsig, b.wait ≠ some (.signaled sig core hsig)) ∧
      (b.wait = some (.exited 0) → c = 0)

/-- The child ends otherwise than with exit code zero. -/
def Behaviour.EndsBadly (b : Behaviour) : Prop := ∃ w, b.wait = some w ∧ w ≠ .exited 0

/-- `replay(end, k)` reports success when `k` is a read of a word, the log is replayed up to
it and it is corrupted, and the child then ends badly. -/
def ReportsCrash (b : Behaviour) (log : List Entry) (k : ℕ) : Prop :=
  ∀ e a, log[k]? = some e → e.op = .read32 →
    replayLoop b (BitVec.ofNat 32 k) 0 (log.take k) false b.arrivals = .ok (.consumed, false, a) →
    (∃ v ∈ b.random k, v ≠ e.val) → b.EndsBadly →
    ∃ status, replay b (BitVec.ofNat 32 k) log = .ok status

/-- In such a run no signal kills the child, and no read fails behind the corruption before
a difference is found. -/
def NoReadFails (b : Behaviour) (log : List Entry) (k : ℕ) : Prop :=
  ∀ e c S, log[k]? = some e → e.op = .read32 →
    Passes b false 0 (log.take k) c (symsOf b.arrivals) S →
    (∃ v ∈ b.random k, v ≠ e.val) → b.EndsBadly →
    (∃ code, b.wait = some (.exited code)) ∧ ¬ FailsRead b (k + 1) (log.drop (k + 1)) S

/-! ## Numbered logs -/

/-- Two small numbers are the same word only if they are the same. -/
theorem ofNat_ne {i k : ℕ} (hi : i < 2 ^ 32) (hk : k < 2 ^ 32) (hne : i ≠ k) :
    BitVec.ofNat 32 i ≠ BitVec.ofNat 32 k := by
  intro h
  have hval := congrArg BitVec.toNat h
  rw [BitVec.toNat_ofNat, BitVec.toNat_ofNat, Nat.mod_eq_of_lt hi, Nat.mod_eq_of_lt hk] at hval
  exact hne hval

/-- What `read_input` makes of a trace is numbered. -/
theorem numbered_mapIdx (es : List Event) (hlen : es.length < 2 ^ 31) :
    Numbered (es.mapIdx fun i e => ⟨e.op, BitVec.ofNat 32 i, e.val⟩) := by
  refine ⟨by rwa [List.length_mapIdx], fun i e he => ?_⟩
  rw [List.getElem?_mapIdx] at he
  obtain ⟨ev, _, rfl⟩ := Option.map_eq_some_iff.mp he
  rfl

/-- With -1 no entry is corrupted. -/
theorem Numbered.uncorrupted {log : List Entry} (h : Numbered log) : Uncorrupted (-1) 0 log := by
  intro i e he
  have hlt : i < log.length := (List.getElem?_eq_some_iff.mp he).1
  have hlen := h.1
  have hne : BitVec.ofNat 32 i ≠ -1 := ofNat_ne (k := 2 ^ 32 - 1) (by omega) (by decide) (by omega)
  rw [h.2 i e he, Nat.zero_add]
  exact ⟨hne, hne⟩

/-- No entry before the one with the number is corrupted. -/
theorem Numbered.uncorrupted_take {log : List Entry} (h : Numbered log) {k : ℕ}
    (hk : k < log.length) : Uncorrupted (BitVec.ofNat 32 k) 0 (log.take k) := by
  intro i e he
  rw [List.getElem?_take] at he
  split_ifs at he with hlt
  have hlen := h.1
  have hne := ofNat_ne (i := i) (k := k) (by omega) (by omega) (by omega)
  rw [h.2 i e he, Nat.zero_add]
  exact ⟨hne, hne⟩

/-- No entry behind it is. -/
theorem Numbered.uncorrupted_drop {log : List Entry} (h : Numbered log) {k : ℕ} :
    Uncorrupted (BitVec.ofNat 32 k) (k + 1) (log.drop (k + 1)) := by
  intro i e he
  rw [List.getElem?_drop] at he
  have hlt := (List.getElem?_eq_some_iff.mp he).1
  have hlen := h.1
  have hne := ofNat_ne (i := k + 1 + i) (k := k) (by omega) (by omega) (by omega)
  rw [h.2 _ e he]
  exact ⟨hne, hne⟩

/-! ## Success without a corruption -/

/-- The words of a log, entry by entry. -/
theorem writtenBytes_cons (e : Entry) (es : List Entry) :
    writtenBytes (e :: es) =
      (if e.op = .write32 then wordBytes e.val else []) ++ writtenBytes es := by
  unfold writtenBytes
  rw [List.filter_cons]
  split_ifs <;> simp_all

/-- The number of bytes among symbols. -/
def byteCount (S : List Sym) : ℕ := S.countP fun s => s matches .byte _

/-- The bytes in front are counted. -/
theorem byteCount_append (bs : List (BitVec 8)) (S : List Sym) :
    byteCount (bs.map .byte ++ S) = bs.length + byteCount S := by
  have hall : (bs.map Sym.byte).countP (fun s => s matches .byte _) = bs.length := by
    rw [List.countP_map]
    exact List.countP_eq_length.mpr fun _ _ => rfl
  rw [byteCount, List.countP_append, hall]
  rfl

/-- When no word is cut, exactly the words arrive. -/
theorem Passes.eq_of_whole {b : Behaviour} {canFailP : Bool} {n c : ℕ} {es : List Entry}
    {S S' : List Sym} (h : Passes b canFailP n es c S S') (hc : c = 0) :
    S = (writtenBytes es).map .byte ++ S' := by
  induction h with
  | nil => rfl
  | read hop _ _ ih => rw [writtenBytes_cons, if_neg hop, List.nil_append, ih hc]
  | @write n c e es cut S S₁ S' hop hpiece _ ih =>
    obtain ⟨rfl, hcut⟩ : c = 0 ∧ cut.toNat = 0 := by omega
    rw [writtenBytes_cons, if_pos hop, List.map_append, List.append_assoc, ← ih rfl]
    cases hpiece with
    | whole => rfl
    | eof => cases hcut
    | pause => cases hcut

/-- When words are cut, fewer bytes arrive. -/
theorem Passes.byteCount_le {b : Behaviour} {canFailP : Bool} {n c : ℕ} {es : List Entry}
    {S S' : List Sym} (h : Passes b canFailP n es c S S') :
    byteCount S + c ≤ (writtenBytes es).length + byteCount S' := by
  induction h with
  | nil => exact Nat.le_add_left _ _
  | read hop _ _ ih =>
    rw [writtenBytes_cons, if_neg hop]
    exact ih
  | write hop hpiece _ ih =>
    have hword : ∀ v, (wordBytes v).length = 4 := fun _ => rfl
    have hnil : byteCount [] = 0 := rfl
    rw [writtenBytes_cons, if_pos hop, List.length_append, hword]
    cases hpiece with
    | whole =>
      rw [byteCount_append, hword, Bool.toNat_false]
      omega
    | @eof got hlt =>
      have hcount := byteCount_append got []
      rw [List.append_nil] at hcount
      rw [hcount, Bool.toNat_true]
      omega
    | @pause got _ hlt =>
      have hcount (S : List Sym) : byteCount (.pause :: S) = byteCount S := rfl
      rw [byteCount_append, hcount, Bool.toNat_true]
      omega

/-- The file has ended where nothing arrives any more. -/
theorem isEof_eq_ok {a : List Arrival} {r : Bool} :
    isEof a = .ok r ↔ r = true ∧ symsOf a = [] := by
  cases a with
  | nil => exact ⟨fun h => by cases h; exact ⟨rfl, rfl⟩, fun h => by rw [h.1]; rfl⟩
  | cons x a =>
    cases x with
    | chunk x bs =>
      obtain ⟨got, a', hread, hpos, _, _⟩ := readFd_chunk (m := 1) (by decide) x bs a
      have hready : hasData (.chunk x bs :: a) = .ok (true, .chunk x bs :: a) := rfl
      refine iff_of_false (fun h => ?_) fun h => by simp [symsOf, Arrival.syms] at h
      have hne : (got.length : ℤ) ≠ 0 := by omega
      simp only [isEof, hready, hread, bind, Except.bind, if_pos hne] at h
      cases h
    | pause => exact iff_of_false nofun fun h => by simp [symsOf, Arrival.syms] at h
    | readFailed => exact iff_of_false nofun fun h => by simp [symsOf, Arrival.syms] at h
    | selectFailed => exact iff_of_false nofun fun h => by simp [symsOf, Arrival.syms] at h

/-- Without a corruption success is reported exactly when the log passes, the file has ended,
and the code made of the wait status is zero. -/
theorem replay_eq_ok {b : Behaviour} {corruptOp : BitVec 32} {log : List Entry}
    (hlog : Uncorrupted corruptOp 0 log) {status : BitVec 32} :
    replay b corruptOp log = .ok status ↔ status = 0 ∧
      (∃ c, Passes b false 0 log c (symsOf b.arrivals) []) ∧
      ∃ w, b.wait = some w ∧ wexitstatus w.raw = 0 := by
  constructor
  · intro h
    obtain ⟨⟨exit, canFailP, a⟩, hrun, h⟩ := bind_eq_ok.mp h
    obtain rfl := canFailP_of_run hlog hrun
    cases exit with
    | error => cases h
    | consumed =>
      obtain ⟨r, heof, h⟩ := bind_eq_ok.mp h
      obtain ⟨rfl, hend⟩ := isEof_eq_ok.mp heof
      obtain ⟨code, hcode, h⟩ := bind_eq_ok.mp h
      obtain ⟨c, hpasses⟩ := passes_of_run hlog hrun
      rw [hend] at hpasses
      by_cases hzero : code = 0
      · rw [if_neg (not_not.mpr hzero)] at h
        cases hw : b.wait with
        | none =>
          rw [procExitCode, hw] at hcode
          cases hcode
        | some w =>
          rw [procExitCode, hw] at hcode
          have hraw : wexitstatus w.raw = code := Except.ok.inj hcode
          have hstatus : code = status := Except.ok.inj h
          exact ⟨by rw [← hstatus, hzero], ⟨c, hpasses⟩, w, rfl, by rw [hraw, hzero]⟩
      · rw [if_pos hzero] at h
        cases h
  · rintro ⟨rfl, ⟨c, hpasses⟩, w, hw, hzero⟩
    obtain ⟨a, hend, hrun⟩ := hpasses.run hlog rfl
    have heof : isEof a = .ok true := isEof_eq_ok.mpr ⟨rfl, hend⟩
    have hcode : procExitCode b = .ok 0 := by
      rw [procExitCode, hw, ← hzero]
      rfl
    rw [replay, hrun]
    simp only [bind, Except.bind, heof, hcode]
    rfl

/-- A success that is reported is one exactly under the condition. -/
theorem successSound_iff {b : Behaviour} {log : List Entry} (hlog : Numbered log) :
    SuccessSound b log ↔ NoneCutShort b log := by
  constructor
  · intro h c hpasses
    have hsound : ∀ w, b.wait = some w → wexitstatus w.raw = 0 →
        symsOf b.arrivals = (writtenBytes log).map .byte ∧ b.wait = some (.exited 0) :=
      fun w hw hraw => h 0 ((replay_eq_ok hlog.uncorrupted).mpr ⟨rfl, ⟨c, hpasses⟩, w, hw, hraw⟩)
    constructor
    · intro sig core hsig hw
      obtain ⟨_, hexit⟩ := hsound _ hw (wexitstatus_signaled sig core hsig)
      cases hw.symm.trans hexit
    · intro hw
      obtain ⟨hbytes, _⟩ := hsound _ hw (wexitstatus_exited_eq_zero.mpr rfl)
      have hle := hpasses.byteCount_le
      have hcount := byteCount_append (writtenBytes log) []
      have hnil : byteCount [] = 0 := rfl
      rw [List.append_nil] at hcount
      rw [hbytes, hcount] at hle
      omega
  · intro h status hok
    obtain ⟨_, ⟨c, hpasses⟩, w, hw, hraw⟩ := (replay_eq_ok hlog.uncorrupted).mp hok
    obtain ⟨hkilled, hwhole⟩ := h c hpasses
    cases w with
    | signaled sig core hsig => exact absurd hw (hkilled sig core hsig)
    | exited code =>
      obtain rfl := wexitstatus_exited_eq_zero.mp hraw
      have hbytes := hpasses.eq_of_whole (hwhole hw)
      rw [List.append_nil] at hbytes
      exact ⟨hbytes, hw⟩

/-! ## Success after a corruption -/

/-- After a corruption the loop goes on behind it, with the flag set. -/
theorem replayLoop_corrupted {b : Behaviour} {log : List Entry} (hlog : Numbered log) {k : ℕ}
    {e : Entry} {a : List Arrival} (he : log[k]? = some e) (hop : e.op = .read32)
    (hrun : replayLoop b (BitVec.ofNat 32 k) 0 (log.take k) false b.arrivals =
      .ok (.consumed, false, a)) (hrandom : ∃ v ∈ b.random k, v ≠ e.val) :
    replayLoop b (BitVec.ofNat 32 k) 0 log false b.arrivals =
      replayLoop b (BitVec.ofNat 32 k) (k + 1) (log.drop (k + 1)) true a := by
  obtain ⟨hk, hget⟩ := List.getElem?_eq_some_iff.mp he
  have hsplit : log.take k ++ e :: log.drop (k + 1) = log := by
    rw [← hget, List.cons_getElem_drop_succ, List.take_append_drop]
  have happend := replayLoop_append (hlog.uncorrupted_take hk) hrun
    (e :: log.drop (k + 1))
  rw [hsplit, List.length_take_of_le hk.le, Nat.zero_add] at happend
  rw [happend]
  obtain ⟨v, hv⟩ : ∃ v, (b.random k).find? (· ≠ e.val) = some v := by
    obtain ⟨v, hv, hne⟩ := hrandom
    exact Option.isSome_iff_exists.mp (List.find?_isSome.mpr ⟨v, hv, decide_eq_true hne⟩)
  have hcorrupt : corrupt32 (b.random k) e.val = .ok v := by
    rw [corrupt32, hv]
    rfl
  have hwrite : writeExact b k (wordBytes v) true = .ok () := writeExact_eq_ok.mpr nofun
  rw [replayLoop, if_pos (hlog.2 k e he), hcorrupt]
  simp only [Except.map, bind, Except.bind, hop, hwrite]

/-- At the label `error` success is reported exactly when the code made of the wait status
is not zero. -/
theorem replayError_eq_ok {b : Behaviour} : (∃ status, replayError b true = .ok status) ↔
    ∃ w, b.wait = some w ∧ wexitstatus w.raw ≠ 0 := by
  cases hw : b.wait with
  | none =>
    have hstuck : replayError b true = .error .stuck := by
      simp only [replayError, procExitCode, hw]
      rfl
    rw [hstuck]
    exact iff_of_false nofun nofun
  | some w =>
    have hcode : replayError b true = if wexitstatus w.raw = 0
        then .error (.err "process exited successfully, expected an error\n")
        else .ok (wexitstatus w.raw) := by
      simp only [replayError, procExitCode, hw]
      rfl
    rw [hcode]
    constructor
    · rintro ⟨status, h⟩
      refine ⟨w, rfl, fun hzero => ?_⟩
      rw [if_pos hzero] at h
      cases h
    · rintro ⟨w', hw', hne⟩
      obtain rfl := Option.some.inj hw'
      exact ⟨_, if_neg hne⟩

/-- After a corruption success is reported exactly when the loop ends and the code made of
the wait status is not zero. -/
theorem replay_corrupted_eq_ok {b : Behaviour} {log : List Entry} (hlog : Numbered log) {k : ℕ}
    {e : Entry} {a : List Arrival} (he : log[k]? = some e) (hop : e.op = .read32)
    (hrun : replayLoop b (BitVec.ofNat 32 k) 0 (log.take k) false b.arrivals =
      .ok (.consumed, false, a)) (hrandom : ∃ v ∈ b.random k, v ≠ e.val) :
    (∃ status, replay b (BitVec.ofNat 32 k) log = .ok status) ↔
      ¬ FailsRead b (k + 1) (log.drop (k + 1)) (symsOf a) ∧
        ∃ w, b.wait = some w ∧ wexitstatus w.raw ≠ 0 := by
  have hloop := replayLoop_corrupted hlog he hop hrun hrandom
  rw [failsRead_iff hlog.uncorrupted_drop, replay, hloop]
  cases hrest : replayLoop b (BitVec.ofNat 32 k) (k + 1) (log.drop (k + 1)) true a with
  | error stop => exact iff_of_false nofun fun h => h.1 ⟨stop, rfl⟩
  | ok x =>
    obtain ⟨exit, canFailP, a'⟩ := x
    obtain rfl := canFailP_of_run hlog.uncorrupted_drop hrest
    have hverdict : (∃ status, replayError b true = .ok status) ↔
        ¬ (∃ stop : Stop, Except.ok (exit, true, a') = Except.error stop) ∧
          ∃ w, b.wait = some w ∧ wexitstatus w.raw ≠ 0 := by
      rw [replayError_eq_ok]
      exact ⟨fun h => ⟨nofun, h⟩, fun h => h.2⟩
    cases exit <;> exact hverdict

/-- Success is reported of every child that ends badly after a corruption exactly under the
condition. -/
theorem reportsCrash_iff {b : Behaviour} {log : List Entry} (hlog : Numbered log) (k : ℕ) :
    ReportsCrash b log k ↔ NoReadFails b log k := by
  constructor
  · intro h e c S he hop hpasses hrandom hbad
    have hk := (List.getElem?_eq_some_iff.mp he).1
    obtain ⟨a, rfl, hrun⟩ := hpasses.run (hlog.uncorrupted_take hk) rfl
    obtain ⟨hfails, w, hw, hne⟩ := (replay_corrupted_eq_ok hlog he hop hrun hrandom).mp
      (h e a he hop hrun hrandom hbad)
    refine ⟨?_, hfails⟩
    cases w with
    | exited code => exact ⟨code, hw⟩
    | signaled sig core hsig => exact absurd (wexitstatus_signaled sig core hsig) hne
  · intro h e a he hop hrun hrandom hbad
    have hk := (List.getElem?_eq_some_iff.mp he).1
    obtain ⟨c, hpasses⟩ := passes_of_run (hlog.uncorrupted_take hk) hrun
    obtain ⟨⟨code, hw⟩, hfails⟩ := h e c _ he hop hpasses hrandom hbad
    refine (replay_corrupted_eq_ok hlog he hop hrun hrandom).mpr ⟨hfails, _, hw, ?_⟩
    obtain ⟨w', hw', hne⟩ := hbad
    obtain rfl := Option.some.inj (hw.symm.trans hw')
    exact fun hzero => hne (congrArg WaitStatus.exited (wexitstatus_exited_eq_zero.mp hzero))

/-- For every log and every behaviour of the child: a success reported without a corruption
is one exactly when no word is cut short and passes and no signal kills the child, and
success is reported of every child that ends badly after a corruption exactly when no
signal kills it and no read fails before a difference is found. -/
theorem replay_sound_iff {b : Behaviour} {log : List Entry} (hlog : Numbered log) :
    (SuccessSound b log ↔ NoneCutShort b log) ∧
      ∀ k, (ReportsCrash b log k ↔ NoReadFails b log k) :=
  ⟨successSound_iff hlog, reportsCrash_iff hlog⟩

/-! ## Examples -/

/-- A child that takes all that is written; 5 lies in `temp`. -/
def Behaviour.taking (arrivals : List Arrival) (wait : WaitStatus) : Behaviour where
  arrivals := arrivals
  writes _ buf := buf.length
  temp _ := 5
  bytesRead _ := 0
  random _ := [0]
  wait := some wait

/-- A child that writes the word of the log and exits with zero. -/
theorem replay_sound_iff_first :
    SuccessSound (.taking [.chunk 5 [0, 0, 0]] (.exited 0)) [⟨.write32, 0, 5⟩] := by
  have hlog : Numbered [⟨.write32, 0, 5⟩] := numbered_mapIdx [⟨.write32, 5⟩] (by decide)
  refine (replay_sound_iff hlog).1.mpr fun c hpasses => ⟨nofun, fun _ => ?_⟩
  have hle : 4 + c ≤ 4 := hpasses.byteCount_le
  omega

/-- A word that is missing passes when the one before it is the same; a child that a signal
kills passes, and is no success after a corruption. -/
theorem replay_unsound :
    ¬ SuccessSound (.taking [.chunk 5 [0, 0, 0]] (.exited 0))
      [⟨.write32, 0, 5⟩, ⟨.write32, 1, 5⟩] ∧
    ¬ SuccessSound (.taking [.chunk 5 [0, 0, 0]] (.signaled 11 false (by decide)))
      [⟨.write32, 0, 5⟩] ∧
    ¬ ReportsCrash (.taking [] (.signaled 11 false (by decide))) [⟨.read32, 0, 7⟩] 0 := by
  have htwo : Numbered [⟨.write32, 0, 5⟩, ⟨.write32, 1, 5⟩] :=
    numbered_mapIdx [⟨.write32, 5⟩, ⟨.write32, 5⟩] (by decide)
  have hone : Numbered [⟨.write32, 0, 5⟩] := numbered_mapIdx [⟨.write32, 5⟩] (by decide)
  have hread : Numbered [⟨.read32, 0, 7⟩] := numbered_mapIdx [⟨.read32, 7⟩] (by decide)
  refine ⟨fun h => ?_, fun h => ?_, fun h => ?_⟩
  · have hpasses : Passes (.taking [.chunk 5 [0, 0, 0]] (.exited 0)) false 0
        [⟨.write32, 0, 5⟩, ⟨.write32, 1, 5⟩] 1 (symsOf [.chunk 5 [0, 0, 0]]) [] :=
      .write rfl .whole (.write rfl (@Piece.eof _ _ _ [] (by decide) rfl) .nil)
    cases ((successSound_iff htwo).mp h 1 hpasses).2 rfl
  · have hpasses : Passes (.taking [.chunk 5 [0, 0, 0]] (.signaled 11 false (by decide))) false 0
        [⟨.write32, 0, 5⟩] 0 (symsOf [.chunk 5 [0, 0, 0]]) [] :=
      .write rfl .whole .nil
    exact ((successSound_iff hone).mp h 0 hpasses).1 11 false (by decide) rfl
  · obtain ⟨⟨code, hw⟩, _⟩ := (reportsCrash_iff hread 0).mp h _ 0 [] rfl rfl .nil
      ⟨0, List.mem_singleton.mpr rfl, by decide⟩ ⟨_, rfl, nofun⟩
    cases hw

end RpiVm.Replay
