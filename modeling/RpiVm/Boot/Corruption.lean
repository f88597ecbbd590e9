import RpiVm.Boot.Exchange

/-!
# One word replaced

The channels replace at most one word. A changed length is caught by the echo of its
checksum, a changed program by the checksum of the file, and a changed reply by the UNIX
side, which never returns unless the Pi branches to the right program.
-/

namespace RpiVm

open CLib Channel Transition

section

variable {buf : List (BitVec 8)} {bssStart : BitVec 32} {mem : Mem}
  {e e' : Option (ℕ × BitVec 32)} {R Q R' Q' : List (BitVec 32)} {u : UnixState} {s : PiState}

/-! ## A changed length -/

/-- The Pi answers with the checksum of the length that it has received. -/
theorem PiHistory.echo_sent (hpi : PiHistory bssStart mem R Q s) (hlen : 1 < Q.length) :
    ∃ n h rest, header n h <+: R ∧ Q = soh :: crc32 (wordBytes n) :: rest := by
  have hdies : ∀ {D ws code}, PiDies bssStart mem R D ws code → D ≠ [] →
      ∃ n h, header n h <+: R ∧ D = echo n h := by
    intro D ws code hdie hD
    cases hdie with
    | notSoh => exact absurd rfl hD
    | tooLarge => exact absurd rfl hD
    | notAck => exact ⟨_, _, List.prefix_append _ _, rfl⟩
    | notEot => exact ⟨_, _, List.prefix_append _ _, rfl⟩
    | wrongCksum => exact ⟨_, _, List.prefix_append _ _, rfl⟩
  cases hpi with
  | getSoh => exact absurd hlen (by simp)
  | getNBytes => exact absurd hlen (by simp)
  | getFileHash => exact absurd hlen (by simp)
  | putSoh => exact absurd hlen (by simp)
  | putNBytesHash => exact absurd hlen (by simp)
  | putFileHash => exact ⟨_, _, _, List.prefix_refl _, rfl⟩
  | getAck => exact ⟨_, _, _, List.prefix_refl _, rfl⟩
  | copy => exact ⟨_, _, _, List.prefix_append _ _, rfl⟩
  | putAck => exact ⟨_, _, _, List.prefix_append _ _, rfl⟩
  | branchTo => exact ⟨_, _, _, List.prefix_append _ _, rfl⟩
  | die hdie =>
    obtain ⟨n, h, hR, rfl⟩ := hdies hdie (by rintro rfl; exact absurd hlen (by simp))
    exact ⟨n, h, _, hR, rfl⟩
  | reboot hdie =>
    obtain ⟨n, h, hR, rfl⟩ := hdies hdie (by rintro rfl; exact absurd hlen (by simp))
    exact ⟨n, h, _, hR, rfl⟩

/-- The UNIX side has panicked at a reply that is not the one expected. -/
theorem UnixHistory.panicked_at (hunix : UnixHistory buf R Q u) {k : ℕ} {v x : BitVec 32}
    (hv : (replies buf)[k]? = some v) (hx : R[k]? = some x) (hne : x ≠ v) :
    ∃ msg error, u = .panicked msg v x error := by
  have hnot : ¬ R <+: replies buf := by
    intro hpre
    have hsame := getElem_mono hpre hx
    rw [hv] at hsame
    exact hne (Option.some.inj hsame).symm
  obtain ⟨msg, v', x', error, rfl⟩ := hunix.panicked_iff.mpr hnot
  cases hunix with
  | @panicked R _ _ _ _ hexp hR hx' =>
    have hk : k < (R ++ [x']).length := (List.getElem?_eq_some_iff.mp hx).1
    rw [List.length_append, List.length_singleton] at hk
    obtain hlt | rfl : k < R.length ∨ k = R.length := by omega
    · rw [List.getElem?_append_left hlt] at hx
      have hsame := getElem_mono ((List.prefix_append R [v']).trans hR) hx
      rw [hv] at hsame
      exact absurd (Option.some.inj hsame).symm hne
    · rw [List.getElem?_concat_length] at hx
      have hlast := getElem_mono hR List.getElem?_concat_length
      rw [hv] at hlast
      obtain rfl := Option.some.inj hx
      obtain rfl := Option.some.inj hlast
      exact ⟨msg, _, rfl⟩

/-- A changed length is caught: at the second reply at the latest the UNIX side panics. -/
theorem Exchange.nBytes_caught {v : BitVec 32}
    (X : Exchange buf bssStart mem (some (1, v)) e' R Q u R' Q' s) (hv : v ≠ nBytesOf buf)
    (hlen : 1 < R.length) : ∃ msg error, u = .panicked msg (crc32 (wordBytes (nBytesOf buf)))
      (crc32 (wordBytes v)) error := by
  obtain rfl : e' = none := X.one.resolve_left (by simp)
  have hto := X.toUnix
  rw [mapIdx_replaceWord_none] at hto
  obtain ⟨n, h, rest, hheader, rfl⟩ := X.pi.echo_sent (hlen.trans_le hto.length_le)
  have hn : n = v := by
    have hscript := hheader.trans X.received_script
    rw [mapIdx_replaceWord_some] at hscript
    have hsecond := getElem_mono hscript (rfl : (header n h)[1]? = some n)
    simpa [script, header] using hsecond.symm
  have hecho : R[1]? = some (crc32 (wordBytes v)) := by
    have hsame := List.prefix_iff_getElem?.mp hto 1 hlen
    rw [List.getElem?_eq_getElem hlen, ← hsame, hn]
    rfl
  exact X.unix.panicked_at rfl hecho fun hcrc => hv (crc32_wordBytes_inj hcrc)

/-! ## A changed reply -/

/-- A changed reply is caught as it is received. -/
theorem Exchange.reply_caught {k : ℕ} {v w : BitVec 32}
    (X : Exchange buf bssStart mem e (some (k, v)) R Q u R' Q' s)
    (hw : (replies buf)[k]? = some w) (hv : v ≠ w) (hlen : k < R.length) :
    ∃ msg error, u = .panicked msg w v error := by
  have hto := X.toUnix
  rw [mapIdx_replaceWord_some] at hto
  have hreply : R[k]? = some v := by
    have hsame := List.prefix_iff_getElem?.mp hto k hlen
    have hk : k < Q'.length := by
      have hle := hto.length_le
      rw [List.length_set] at hle
      omega
    rw [List.getElem?_eq_getElem hlen, ← hsame, List.getElem?_set_self hk]
  exact X.unix.panicked_at hw hreply hv

/-! ## A changed program -/

/-- A changed program is caught by its checksum. -/
theorem Exchange.payload_caught {j : ℕ} {v : BitVec 32}
    (X : Exchange buf bssStart mem (some (j + 4, v)) e' R Q u R' Q' s)
    (hv : (wordsBytes ((dataWords buf).set j v)).take buf.length ≠ buf) :
    (s.pc ≠ .putAck ∧ s.pc ≠ .branchTo) ∧ (∀ code, s.pc = .die code → code = badCksum) ∧
      ∀ msg w x error, u = .panicked msg w x error → w = ack ∧ x = badCksum := by
  obtain rfl : e' = none := X.one.resolve_left (by simp)
  have hj : j < wordCount buf.length := by
    by_contra hj
    rw [List.set_eq_of_length_le (by rw [dataWords_length]; omega)] at hv
    exact hv (take_wordsBytes_dataWords buf)
  have hscript : R' <+: header (nBytesOf buf) (crc32 buf) ++
      ack :: ((dataWords buf).set j v ++ [eot]) := by
    have hset := X.received_script
    rw [mapIdx_replaceWord_some] at hset
    have hinner : (script buf).set (j + 4) v = header (nBytesOf buf) (crc32 buf) ++
        ack :: ((dataWords buf).set j v ++ [eot]) := by
      simp [script, header, hj]
    rwa [hinner] at hset
  have hdies : ∀ {D ws code}, PiDies bssStart mem R' D ws code →
      code = badCksum ∧ D = echo (nBytesOf buf) (crc32 buf) := by
    intro D ws code hdie
    obtain ⟨hcode, hD, -⟩ := hdie.of_script X.fits X.bss (by simp) hscript
    exact ⟨hcode, hD⟩
  have hrejects : ∀ {n h ws}, R' = header n h ++ ack :: (ws ++ [eot]) →
      ¬ PiAccepts bssStart mem n h ws := by
    intro n h ws hR hacc
    have hpre := hscript
    rw [hR] at hpre
    obtain ⟨rfl, rfl⟩ := header_inj hpre
    have hcount := hacc.wanted.length_eq X.fits.nBytesOf_lt hacc.ended
    rw [X.fits.nBytesOf_toNat] at hcount
    obtain rfl := (X.data_eq hR hcount).trans (mapIdx_replaceWord_add j 4 v _)
    exact hv (hacc.bytes X.fits)
  have hpc : (s.pc ≠ .putAck ∧ s.pc ≠ .branchTo) ∧ ∀ code, s.pc = .die code → code = badCksum := by
    have hpi := X.pi
    cases hpi with
    | putAck hacc => exact absurd hacc (hrejects rfl)
    | branchTo hacc => exact absurd hacc (hrejects rfl)
    | die hdie =>
      refine ⟨by simp [PiState.copied], fun code hcode => ?_⟩
      rw [← PiPc.die.inj hcode]
      exact (hdies hdie).1
    | _ => exact ⟨by simp [PiState.copied], by simp [PiState.copied]⟩
  refine ⟨hpc.1, hpc.2, ?_⟩
  have hsent : Q' <+: echo (nBytesOf buf) (crc32 buf) ++ [badCksum] := by
    obtain hecho | ⟨hbranch, -⟩ | ⟨D, ws, code, hdie, hQ⟩ := X.pi.sent hscript
    · exact hecho.trans (List.prefix_append _ _)
    · exact absurd hbranch hpc.1.2
    · obtain ⟨rfl, rfl⟩ := hdies hdie
      exact hQ
  have hto := X.toUnix
  rw [mapIdx_replaceWord_none] at hto
  rintro msg w x error rfl
  have hunix := X.unix
  cases hunix with
  | @panicked R _ _ _ _ hexp hR hx =>
    have hw := getElem_mono hR List.getElem?_concat_length
    have hx' := getElem_mono (hto.trans hsent) List.getElem?_concat_length
    by_cases hk : R.length < 3
    · rw [replies, List.getElem?_append_left hk] at hw
      rw [List.getElem?_append_left hk, hw] at hx'
      exact absurd (Option.some.inj hx').symm hx
    · have hlt := (List.getElem?_eq_some_iff.mp hw).1
      have hlast : R.length = 3 := by
        rw [replies_length] at hlt
        omega
      rw [hlast] at hw hx'
      exact ⟨(Option.some.inj hw).symm, (Option.some.inj hx').symm⟩

end

/-! ## What one replaced word can do -/

section

variable {buf : List (BitVec 8)} {bssStart : BitVec 32} {mem : Mem}
  {e e' : Option (ℕ × BitVec 32)} {sides : List Side}
  {c : Net (BitVec 8) (Framed (BitVec 32) (BitVec 8) (UnixState × ℕ))
    (Framed (BitVec 32) (BitVec 8) (PiState × ℕ))}

/-- A step of one side, with a byte, over channels that replace a word. -/
abbrev CorruptStep (buf : List (BitVec 8)) (bssStart : BitVec 32) (e e' : Option (ℕ × BitVec 32)) :=
  Net.Step (framed wordCode (altering (replaceWord e) (simpleBoot buf)))
    (framed wordCode (altering (replaceWord e') (notmain bssStart)))

/-- A run of both sides. -/
abbrev CorruptRun (buf : List (BitVec 8)) (bssStart : BitVec 32) (mem : Mem)
    (e e' : Option (ℕ × BitVec 32)) (sides : List Side)
    (c : Net (BitVec 8) (Framed (BitVec 32) (BitVec 8) (UnixState × ℕ))
      (Framed (BitVec 32) (BitVec 8) (PiState × ℕ))) : Prop :=
  Run (CorruptStep buf bssStart e e')
    ⟨.start (.putSoh, 0), .start (.start mem, 0), [], []⟩ sides c

/-- The words of a run are an exchange. -/
theorem CorruptRun.exchange (hrun : CorruptRun buf bssStart mem e e' sides c) (hfit : Fits buf)
    (hbss : 0x200000 < bssStart.toNat) (hone : e = none ∨ e' = none) :
    ∃ Q Q', Exchange buf bssStart mem e e' c.left.received Q c.left.state.1 c.right.received Q'
      c.right.state.1 ∧ c.left.sent = Q.mapIdx (replaceWord e) ∧
        c.right.sent = Q'.mapIdx (replaceWord e') := by
  obtain ⟨hunix, hpi, htoPi, htoUnix⟩ := framed_received hrun
  obtain ⟨Q, hunix', -, hQ⟩ := hunix.of_altering
  obtain ⟨Q', hpi', -, hQ'⟩ := hpi.of_altering
  rw [hQ] at htoPi
  rw [hQ'] at htoUnix
  exact ⟨Q, Q', ⟨hfit, hbss, hone, unixHistory hfit hunix', piHistory hpi', htoPi, htoUnix⟩, hQ, hQ'⟩

/-- A run has at most as many steps as the bytes of all words are sent and received. -/
theorem CorruptRun.length_le (hrun : CorruptRun buf bssStart mem e e' sides c) (hfit : Fits buf)
    (hbss : 0x200000 < bssStart.toNat) (hone : e = none ∨ e' = none) :
    sides.length ≤ 8 * (wordCount buf.length + 9) := by
  obtain ⟨Q, Q', X, hQ, hQ'⟩ := hrun.exchange hfit hbss hone
  have hle := framed_length hrun
  have hsent := X.unix.sent.length_le
  have hsent' := X.pi.length_le
  have hsize : wordCode.size = 4 := rfl
  rw [script_length] at hsent
  rw [hsize, hQ, hQ', List.length_mapIdx, List.length_mapIdx] at hle
  omega

/-- When no step is left, the UNIX side has returned or panicked. -/
theorem CorruptRun.finished (hrun : CorruptRun buf bssStart mem e e' sides c) (hfit : Fits buf)
    (hbss : 0x200000 < bssStart.toNat) (hone : e = none ∨ e' = none)
    (hterm : ∀ side c', ¬ CorruptStep buf bssStart e e' c side c') :
    c.left.state.1 = .returned ∨ ∃ msg v x error, c.left.state.1 = .panicked msg v x error := by
  obtain ⟨Q, Q', X, hQ, hQ'⟩ := hrun.exchange hfit hbss hone
  obtain ⟨hunix, hpi⟩ := framed_terminal hrun hterm
  rw [altering_eq_halt, altering_eq_recv, hQ'] at hunix
  rw [altering_eq_halt, altering_eq_recv, hQ] at hpi
  exact simpleBoot_eq_halt (X.halted hunix hpi)

/-- A replaced word that must be caught: the length, a word with bytes of the program,
or a reply. -/
inductive Detectable (buf : List (BitVec 8)) :
    Option (ℕ × BitVec 32) → Option (ℕ × BitVec 32) → Prop
  | nBytes {v : BitVec 32} (hv : v ≠ nBytesOf buf) : Detectable buf (some (1, v)) none
  | payload {j : ℕ} {v : BitVec 32}
      (hv : (wordsBytes ((dataWords buf).set j v)).take buf.length ≠ buf) :
      Detectable buf (some (j + 4, v)) none
  | reply {k : ℕ} {v w : BitVec 32} (hw : (replies buf)[k]? = some w) (hv : v ≠ w) :
      Detectable buf none (some (k, v))

/-- How such a word is caught, wherever the two sides are. -/
structure Caught (buf : List (BitVec 8)) (e e' : Option (ℕ × BitVec 32)) (R : List (BitVec 32))
    (u : UnixState) (s : PiState) : Prop where
  /-- The UNIX side panics at the echo of the checksum of the length, if not before. -/
  nBytes : ∀ v, e = some (1, v) → v ≠ nBytesOf buf → 1 < R.length →
    ∃ msg error, u = .panicked msg (crc32 (wordBytes (nBytesOf buf))) (crc32 (wordBytes v)) error
  /-- The Pi does not accept the program, and neither side fails but for its checksum. -/
  payload : ∀ j v, e = some (j + 4, v) →
    (wordsBytes ((dataWords buf).set j v)).take buf.length ≠ buf →
      (s.pc ≠ .putAck ∧ s.pc ≠ .branchTo) ∧ (∀ code, s.pc = .die code → code = badCksum) ∧
        ∀ msg w x error, u = .panicked msg w x error → w = ack ∧ x = badCksum
  /-- The UNIX side panics as soon as it has received the reply. -/
  reply : ∀ k v w, e' = some (k, v) → (replies buf)[k]? = some w → v ≠ w → k < R.length →
    ∃ msg error, u = .panicked msg w v error

/-- A replaced word is caught where it must be. -/
theorem Exchange.caught {R Q R' Q' : List (BitVec 32)} {u : UnixState} {s : PiState}
    (X : Exchange buf bssStart mem e e' R Q u R' Q' s) : Caught buf e e' R u s where
  nBytes := by
    rintro v rfl hv hlen
    exact X.nBytes_caught hv hlen
  payload := by
    rintro j v rfl hv
    exact X.payload_caught hv
  reply := by
    rintro k v w rfl hw hv hlen
    exact X.reply_caught hw hv hlen

/-- The UNIX side does not return when a word that must be caught is replaced. -/
theorem Exchange.not_returned {R Q R' Q' : List (BitVec 32)} {u : UnixState} {s : PiState}
    (X : Exchange buf bssStart mem e e' R Q u R' Q' s) (h : Detectable buf e e') :
    u ≠ .returned := by
  rintro rfl
  have hR := X.received_replies rfl
  cases h with
  | nBytes hv =>
    obtain ⟨msg, error, hpanic⟩ := X.nBytes_caught hv (by rw [hR, replies_length]; decide)
    cases hpanic
  | payload hv => exact (X.payload_caught hv).1.2 (X.returned rfl)
  | reply hw hv =>
    obtain ⟨msg, error, hpanic⟩ := X.reply_caught hw hv
      (by rw [hR]; exact (List.getElem?_eq_some_iff.mp hw).1)
    cases hpanic

/-- At most one word is replaced, in either direction. Then the Pi branches only to the
right program, the UNIX side returns only when the Pi does, a replaced length, program
word or reply is caught, and the UNIX side comes to an end in every run: it panics when
such a word is replaced. -/
theorem corruption_caught (hfit : Fits buf) (hbss : 0x200000 < bssStart.toNat)
    (hone : e = none ∨ e' = none) (hrun : CorruptRun buf bssStart mem e e' sides c) :
    (c.right.state.1.pc = .branchTo → readBytes c.right.state.1.mem armbase buf.length = buf) ∧
      (c.left.state.1 = .returned → c.right.state.1.pc = .branchTo ∧
        readBytes c.right.state.1.mem armbase buf.length = buf) ∧
      Caught buf e e' c.left.received c.left.state.1 c.right.state.1 ∧
      (Detectable buf e e' → c.left.state.1 ≠ .returned) ∧
      sides.length ≤ 8 * (wordCount buf.length + 9) ∧
      ((∀ side c', ¬ CorruptStep buf bssStart e e' c side c') → c.left.state.1 = .returned ∨
        ∃ msg v x error, c.left.state.1 = .panicked msg v x error) := by
  obtain ⟨Q, Q', X, -, -⟩ := hrun.exchange hfit hbss hone
  exact ⟨X.branch, fun hu => ⟨X.returned hu, X.branch (X.returned hu)⟩, X.caught, X.not_returned,
    hrun.length_le hfit hbss hone, hrun.finished hfit hbss hone⟩

/-- A run in which the length is replaced, to the panic of the UNIX side. -/
theorem corruption_caught_nBytes : ∃ sides c,
    CorruptRun [1, 2, 3, 4, 5] 0x201320 (fun _ => 0) (some (1, 6)) none sides c ∧
      ∃ msg v x error, c.left.state.1 = .panicked msg v x error := by
  have hfit : Fits [1, 2, 3, 4, 5] := by decide
  have hbss : 0x200000 < (0x201320 : BitVec 32).toNat := by decide
  obtain ⟨sides, c, hrun, hterm⟩ := Run.exists_terminal
    (fun _ _ h => (corruption_caught hfit hbss (.inr rfl) h).2.2.2.2.1)
    (Run.nil _ : CorruptRun [1, 2, 3, 4, 5] 0x201320 (fun _ => 0) (some (1, 6)) none [] _)
  obtain ⟨-, -, -, hnot, -, hend⟩ := corruption_caught hfit hbss (.inr rfl) hrun
  exact ⟨sides, c, hrun, (hend hterm).resolve_left (hnot (.nBytes (by decide)))⟩

end

end RpiVm
