import RpiVm.Boot.Shutdown
import RpiVm.Boot.Session
import RpiVm.Lib.Recording
import RpiVm.Replay.Process
import RpiVm.Replay.Trace

/-!
# The child that is recorded and replayed

`my-install` boots a program and then, unless it is silent, echoes what the Pi sends until
the Pi announces that it shuts down. Its trace has one call for each word exchanged and one
for each chunk echoed.
-/

namespace RpiVm.Replay

open CLib Channel Matching

/-! ## The process -/

/-- Where `my-install` is, from `simple_boot` on. -/
inductive InstallState where
  /-- In `simple_boot`, or behind it. -/
  | boot (s : Framed (BitVec 32) (BitVec 8) UnixState)
  /-- In `echo`, with the static `pos` of `done`. -/
  | echo (pos : ℕ)
  /-- `exit(0)` in `echo`. -/
  | exited
  /-- The assertion of `done` has failed. -/
  | aborted

/-- One turn of `echo` that reads one byte. What is read in longer chunks is the same for
`done` as long as there is no NUL in it. -/
def echoByte (pos : ℕ) : Action (BitVec 8) InstallState :=
  .recv fun c =>
    match done [c, 0] pos with
    | .ok (saw, pos) => if saw then .exited else .echo pos
    | .error _ => .aborted

/-- `main` of `my-install`, from `simple_boot` on and without `-exec`. -/
def install (printP : Bool) (program : List (BitVec 8)) : Machine (BitVec 8) InstallState
  | .boot s =>
    match framed wordCode (simpleBoot program) s with
    | .send b t => .send b (.boot t)
    | .recv f => .recv fun b => .boot (f b)
    | .halt => if s.state = .returned ∧ printP then echoByte 0 else .halt
  | .echo pos => echoByte pos
  | .exited => .halt
  | .aborted => .halt

/-- How `my-install` ends, if it does: `panic` exits with 1, `main` and `echo` with 0, and an
assertion that fails raises `SIGABRT`. -/
def InstallState.wait (printP : Bool) : InstallState → Option WaitStatus
  | .boot s =>
    match s.state with
    | .returned => if printP then none else some (.exited 0)
    | .panicked _ _ _ _ => some (.exited 1)
    | _ => none
  | .echo _ => none
  | .exited => some (.exited 0)
  | .aborted => some (.signaled 6 false (by decide))

/-- The calls that trace the words exchanged: `put_uint` traces before it sends, and
`get_uint` when all bytes are there. -/
def wordCall : Move (BitVec 32) → TraceCall
  | .sent u => .write32 u
  | .received u => .read32 u

/-- The call that traces a chunk that `echo` has read. -/
def chunkCall (chunk : List (BitVec 8)) : TraceCall :=
  .readBytes (fun i => chunk.getD i.toNat 0) (BitVec.ofNat 32 chunk.length)

/-- The events of a boot and of the chunks echoed after it. -/
def installEvents (l : List (Move (BitVec 32))) (chunks : List (List (BitVec 8))) : List Event :=
  (l.map wordCall ++ chunks.map chunkCall).flatMap TraceCall.events

/-! ## What the Pi has to send -/

/-- Output of the Pi that announces the shutdown at its end and not before, and has no NUL. -/
structure Announces (out : List (BitVec 8)) : Prop where
  /-- There is no NUL. -/
  plain : ∀ c ∈ out, c ≠ 0
  /-- The matcher has found the string at the end. -/
  found : exitPattern.scan 0 out = exitPattern.size
  /-- It has not found it before. -/
  first : ∀ pre, pre <+: out → pre ≠ out → exitPattern.scan 0 pre ≠ exitPattern.size

/-- `done` for a chunk without a NUL. -/
theorem done_plain {pos : ℕ} (hpos : pos < exitPattern.size) {chunk : List (BitVec 8)}
    (hplain : ∀ c ∈ chunk, c ≠ 0) :
    done (chunk ++ [0]) pos =
      .ok (decide (exitPattern.scan pos chunk = exitPattern.size), exitPattern.scan pos chunk) := by
  have hvisible : visible chunk = chunk :=
    List.takeWhile_eq_self_iff.mpr fun c hc => decide_eq_true (hplain c hc)
  rw [done_eq hpos, hvisible]

/-- However such output is cut into chunks, `done` returns 1 for the last one only. -/
theorem echoDone_of_announces {chunks : List (List (BitVec 8))} (hne : ∀ c ∈ chunks, c ≠ [])
    (hout : Announces chunks.flatten) :
    echoDone chunks 0 = .ok (List.replicate (chunks.length - 1) false ++ [true]) := by
  have hall : ∀ pos < exitPattern.size, (∀ chunk ∈ chunks, ∀ c ∈ chunk, c ≠ 0) →
      exitPattern.scan pos chunks.flatten = exitPattern.size →
      (∀ pre, pre <+: chunks.flatten → pre ≠ chunks.flatten →
        exitPattern.scan pos pre ≠ exitPattern.size) →
      echoDone chunks pos = .ok (List.replicate (chunks.length - 1) false ++ [true]) := by
    clear hout
    induction chunks with
    | nil =>
      intro pos hpos _ hfound _
      exact absurd hfound hpos.ne
    | cons chunk chunks ih =>
      intro pos hpos hplain hfound hfirst
      have hdone := done_plain hpos (hplain chunk List.mem_cons_self)
      rw [echoDone, hdone]
      by_cases hend : exitPattern.scan pos chunk = exitPattern.size
      · have hlast : chunks = [] := by
          by_contra hmore
          obtain ⟨next, rest, rfl⟩ := List.exists_cons_of_ne_nil hmore
          refine hfirst chunk ⟨_, rfl⟩ (fun heq => ?_) hend
          have hnext : next ++ rest.flatten = [] := by
            have hflat : chunk ++ [] = chunk ++ (next ++ rest.flatten) := by simpa using heq
            exact (List.append_cancel_left hflat).symm
          exact hne next (by simp) (List.append_eq_nil_iff.mp hnext).1
        simp [hend, hlast]
        rfl
      · have hle := exitPattern.scan_le hpos.le chunk
        have hrest := ih (fun c hc => hne c (List.mem_cons_of_mem _ hc))
          (exitPattern.scan pos chunk) (lt_of_le_of_ne hle hend)
          (fun c hc => hplain c (List.mem_cons_of_mem _ hc))
          (by rw [← Pattern.scan_append]; exact hfound)
          (fun pre hpre hne' => by
            rw [← Pattern.scan_append]
            refine hfirst (chunk ++ pre) ?_ ?_
            · exact (List.prefix_append_right_inj chunk).mpr hpre
            · exact fun heq => hne' (List.append_cancel_left heq))
        have hsome : chunks.length - 1 + 1 = chunks.length := by
          cases chunks with
          | nil => exact absurd (by simpa using hfound) hend
          | cons => rfl
        have hbits : List.replicate chunks.length false ++ [true] =
            false :: (List.replicate (chunks.length - 1) false ++ [true]) := by
          rw [← hsome, Nat.add_sub_cancel, List.replicate_succ, List.cons_append]
        rw [decide_eq_false hend]
        simp only [bind, Except.bind, Bool.false_eq_true, if_false, hrest, List.length_cons,
          Nat.add_sub_cancel, hbits]
        rfl
  refine hall 0 exitPattern.size_pos (fun chunk hchunk c hc => ?_) hout.found hout.first
  exact hout.plain c (List.mem_flatten.mpr ⟨chunk, hchunk, hc⟩)

/-! ## Recordings of the process -/

section

variable {program : List (BitVec 8)}

/-- What `simple_boot` does is what the process does. -/
theorem recording_boot (printP : Bool) {s t : Framed (BitVec 32) (BitVec 8) UnixState}
    {l : List (Move (BitVec 8))} (h : Recording (framed wordCode (simpleBoot program)) s l t) :
    Recording (install printP program) (.boot s) l (.boot t) := by
  induction h with
  | nil => exact .nil _
  | send hM _ ih => exact .send (by rw [install, hM]) ih
  | @recv s t f l a hM _ ih =>
    have hstep : install printP program (.boot s) = .recv fun b => .boot (f b) := by
      rw [install, hM]
    exact .recv a hstep ih

/-- `echo` reads output that announces the shutdown and exits. -/
theorem recording_echo (printP : Bool) {pos : ℕ} (hpos : pos < exitPattern.size)
    {out : List (BitVec 8)} (hplain : ∀ c ∈ out, c ≠ 0)
    (hfound : exitPattern.scan pos out = exitPattern.size)
    (hfirst : ∀ pre, pre <+: out → pre ≠ out → exitPattern.scan pos pre ≠ exitPattern.size) :
    Recording (install printP program) (.echo pos) (out.map .received) .exited := by
  induction out generalizing pos with
  | nil => exact absurd hfound hpos.ne
  | cons c out ih =>
    have hdone := @done_plain pos hpos [c] (by simpa using hplain c List.mem_cons_self)
    refine .recv c rfl ?_
    simp only [List.cons_append, List.nil_append] at hdone
    simp only [hdone]
    by_cases hend : exitPattern.scan pos [c] = exitPattern.size
    · have hlast : out = [] := by
        by_contra hmore
        exact hfirst [c] ⟨out, rfl⟩ (by simpa using hmore) hend
      subst hlast
      rw [decide_eq_true hend]
      exact .nil _
    · rw [decide_eq_false hend]
      have hle := exitPattern.scan_le hpos.le [c]
      refine ih (lt_of_le_of_ne hle hend) (fun c' hc' => hplain c' (List.mem_cons_of_mem _ hc'))
        hfound fun pre hpre hne => ?_
      exact hfirst (c :: pre) ((List.prefix_cons_inj c).mpr hpre) (by simpa using hne)

end

end RpiVm.Replay
