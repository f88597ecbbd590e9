import RpiVm.Boot.Image

/-!
# The exchange of the boot protocol

What each side has sent and received wherever it is, and what follows when the two
are joined: the UNIX side sends one script whatever it receives, and the Pi answers it.
-/

namespace RpiVm

open CLib Channel

/-! ## The script and the replies -/

/-- The header for a length and a checksum. -/
def header (n h : BitVec 32) : List (BitVec 32) := [soh, n, h]

/-- The echo of a header. -/
def echo (n h : BitVec 32) : List (BitVec 32) := [soh, crc32 (wordBytes n), h]

/-- The length of a buffer, as `n` holds it. -/
def nBytesOf (buf : List (BitVec 8)) : BitVec 32 := BitVec.ofNat 32 buf.length

/-- Everything that the UNIX side sends for a buffer. -/
def script (buf : List (BitVec 8)) : List (BitVec 32) :=
  header (nBytesOf buf) (crc32 buf) ++ ack :: (dataWords buf ++ [eot])

/-- Everything that it expects in reply. -/
def replies (buf : List (BitVec 8)) : List (BitVec 32) :=
  echo (nBytesOf buf) (crc32 buf) ++ [ack]

@[simp] theorem replies_length (buf : List (BitVec 8)) : (replies buf).length = 4 := rfl

/-- A buffer that fits in memory below the code of the bootloader. -/
def Fits (buf : List (BitVec 8)) : Prop := armbase.toNat + 4 * wordCount buf.length ≤ 0x200000

instance (buf : List (BitVec 8)) : Decidable (Fits buf) := inferInstanceAs (Decidable (_ ≤ _))

/-- The length of a buffer that fits. -/
theorem Fits.nBytesOf_toNat {buf : List (BitVec 8)} (h : Fits buf) :
    (nBytesOf buf).toNat = buf.length := by
  have harm : armbase.toNat = 0x8000 := rfl
  unfold Fits wordCount at h
  rw [nBytesOf, BitVec.toNat_ofNat]
  omega

/-! ## The UNIX side -/

/-- The UNIX side waits: for the echo of the header, or after the script. -/
def Expecting (buf : List (BitVec 8)) (R Q : List (BitVec 32)) : Prop :=
  R.length < 3 ∧ Q = header (nBytesOf buf) (crc32 buf) ∨ R.length = 3 ∧ Q = script buf

/-- Where the UNIX side is after what it has received and sent. -/
inductive UnixHistory (buf : List (BitVec 8)) :
    List (BitVec 32) → List (BitVec 32) → UnixState → Prop
  | putSoh : UnixHistory buf [] [] .putSoh
  | putNBytes : UnixHistory buf [] [soh] .putNBytes
  | putFileHash : UnixHistory buf [] [soh, nBytesOf buf] .putFileHash
  | expectSoh : UnixHistory buf [] (header (nBytesOf buf) (crc32 buf)) .expectSoh
  | expectNBytesHash :
      UnixHistory buf [soh] (header (nBytesOf buf) (crc32 buf)) .expectNBytesHash
  | expectFileHash : UnixHistory buf [soh, crc32 (wordBytes (nBytesOf buf))]
      (header (nBytesOf buf) (crc32 buf)) .expectFileHash
  | putAck : UnixHistory buf (echo (nBytesOf buf) (crc32 buf))
      (header (nBytesOf buf) (crc32 buf)) .putAck
  | data {j : ℕ} (hj : j ≤ wordCount buf.length) :
      UnixHistory buf (echo (nBytesOf buf) (crc32 buf))
        (header (nBytesOf buf) (crc32 buf) ++ ack :: (dataWords buf).take j)
        (.data (BitVec.ofNat 32 (4 * j)))
  | expectAck :
      UnixHistory buf (echo (nBytesOf buf) (crc32 buf)) (script buf) .expectAck
  | returned : UnixHistory buf (replies buf) (script buf) .returned
  /-- The word received last is not the one expected. -/
  | panicked {R Q : List (BitVec 32)} {msg : String} {v x : BitVec 32}
      (hexp : Expecting buf R Q) (hR : R ++ [v] <+: replies buf) (hx : x ≠ v) :
      UnixHistory buf (R ++ [x]) Q (.panicked msg v x (expectError x))

/-- The offset of a word in a buffer that fits. -/
theorem Fits.offset_lt {buf : List (BitVec 8)} (h : Fits buf) {j : ℕ} (hj : j ≤ wordCount buf.length) :
    BitVec.ofNat 32 (4 * j) < nBytesOf buf ↔ j < wordCount buf.length := by
  have harm : armbase.toNat = 0x8000 := rfl
  have hlen := h.nBytesOf_toNat
  unfold Fits at h
  rw [BitVec.lt_def, hlen, BitVec.toNat_ofNat, Nat.mod_eq_of_lt (by omega)]
  unfold wordCount at hj ⊢
  omega

/-- The next word of a buffer. -/
theorem take_succ_dataWords {buf : List (BitVec 8)} {j : ℕ} (hj : j < wordCount buf.length) :
    (dataWords buf).take (j + 1) = (dataWords buf).take j ++ [loadChunk buf (4 * j)] := by
  rw [List.take_add_one, List.getElem?_eq_getElem (by rwa [dataWords_length])]
  simp [dataWords]

/-- What `expect` makes of a word. -/
theorem UnixHistory.expect {buf : List (BitVec 8)} {R Q : List (BitVec 32)} {msg : String}
    {v a : BitVec 32} {next : UnixState} {f : BitVec 32 → UnixState}
    (hM : expect msg v next = .recv f) (hexp : Expecting buf R Q) (hR : R ++ [v] <+: replies buf)
    (hnext : UnixHistory buf (R ++ [v]) Q next) : UnixHistory buf (R ++ [a]) Q (f a) := by
  obtain rfl := Action.recv.inj hM
  dsimp only
  by_cases ha : a = v
  · rw [if_neg (not_not.mpr ha), ha]
    exact hnext
  · rw [if_pos ha]
    exact .panicked hexp hR ha

/-- Every history of the UNIX side is of this kind. -/
theorem unixHistory {buf : List (BitVec 8)} (hfit : Fits buf) {R Q : List (BitVec 32)}
    {u : UnixState} (h : Trace (simpleBoot buf) .putSoh R Q u) : UnixHistory buf R Q u := by
  induction h with
  | nil => exact .putSoh
  | @send R Q t u a _ hM ih =>
    cases ih with
    | putSoh =>
      obtain ⟨rfl, rfl⟩ := Action.send.inj hM
      exact .putNBytes
    | putNBytes =>
      obtain ⟨rfl, rfl⟩ := Action.send.inj hM
      exact .putFileHash
    | putFileHash =>
      obtain ⟨rfl, rfl⟩ := Action.send.inj hM
      exact .expectSoh
    | putAck =>
      obtain ⟨rfl, rfl⟩ := Action.send.inj hM
      exact .data (Nat.zero_le _)
    | @data j hj =>
      have hM' : (if BitVec.ofNat 32 (4 * j) < nBytesOf buf then
          .send (loadChunk buf (BitVec.ofNat 32 (4 * j)).toNat)
            (.data (BitVec.ofNat 32 (4 * j) + 4))
        else .send eot .expectAck) = Action.send a u := hM
      by_cases hlt : j < wordCount buf.length
      · rw [if_pos ((hfit.offset_lt hj).mpr hlt)] at hM'
        obtain ⟨rfl, rfl⟩ := Action.send.inj hM'
        have hoffset : (BitVec.ofNat 32 (4 * j)).toNat = 4 * j := by
          have harm : armbase.toNat = 0x8000 := rfl
          unfold Fits at hfit
          rw [BitVec.toNat_ofNat]
          omega
        have hnext : BitVec.ofNat 32 (4 * j) + 4 = BitVec.ofNat 32 (4 * (j + 1)) := by
          rw [Nat.mul_add, BitVec.ofNat_add]
          rfl
        have hwords := take_succ_dataWords hlt
        have hhist : UnixHistory buf (echo (nBytesOf buf) (crc32 buf)) _ _ := .data (j := j + 1) hlt
        rw [hwords] at hhist
        rw [hoffset, hnext, List.append_assoc, List.cons_append]
        exact hhist
      · rw [if_neg (fun h => hlt ((hfit.offset_lt hj).mp h))] at hM'
        obtain ⟨rfl, rfl⟩ := Action.send.inj hM'
        have hall : (dataWords buf).take j = dataWords buf :=
          List.take_of_length_le (by rw [dataWords_length]; omega)
        rw [hall, List.append_assoc, List.cons_append]
        exact .expectAck
    | expectSoh => cases hM
    | expectNBytesHash => cases hM
    | expectFileHash => cases hM
    | expectAck => cases hM
    | returned => cases hM
    | panicked => cases hM
  | @recv R Q t f a _ hM ih =>
    cases ih with
    | expectSoh => exact .expect hM (.inl ⟨by simp, rfl⟩) ⟨_, rfl⟩ .expectNBytesHash
    | expectNBytesHash => exact .expect hM (.inl ⟨by simp, rfl⟩) ⟨_, rfl⟩ .expectFileHash
    | expectFileHash => exact .expect hM (.inl ⟨by simp, rfl⟩) ⟨_, rfl⟩ .putAck
    | expectAck => exact .expect hM (.inr ⟨rfl, rfl⟩) ⟨[], rfl⟩ .returned
    | putSoh => cases hM
    | putNBytes => cases hM
    | putFileHash => cases hM
    | putAck => cases hM
    | @data j hj =>
      simp only [simpleBoot] at hM
      split at hM <;> cases hM
    | returned => cases hM
    | panicked => cases hM

/-- The UNIX side sends the script, whatever it receives. -/
theorem UnixHistory.sent {buf : List (BitVec 8)} {R Q : List (BitVec 32)} {u : UnixState}
    (h : UnixHistory buf R Q u) : Q <+: script buf := by
  have hheader : header (nBytesOf buf) (crc32 buf) <+: script buf := List.prefix_append _ _
  cases h with
  | putSoh => exact List.nil_prefix
  | putNBytes => exact ⟨_, rfl⟩
  | putFileHash => exact ⟨_, rfl⟩
  | expectSoh => exact hheader
  | expectNBytesHash => exact hheader
  | expectFileHash => exact hheader
  | putAck => exact hheader
  | @data j hj =>
    rw [script, List.prefix_append_right_inj, List.prefix_cons_inj]
    exact (List.take_prefix _ _).trans (List.prefix_append _ _)
  | expectAck => exact List.prefix_refl _
  | returned => exact List.prefix_refl _
  | panicked hexp =>
    obtain ⟨_, rfl⟩ | ⟨_, rfl⟩ := hexp
    · exact hheader
    · exact List.prefix_refl _

/-- The word behind a prefix is unique. -/
theorem eq_of_concat {as cs : List (BitVec 32)} {a b : BitVec 32} (ha : as ++ [a] <+: cs)
    (hb : as ++ [b] <+: cs) : a = b := by
  have hpre := List.prefix_of_prefix_length_le ha hb (by simp)
  simpa using hpre

/-- It has panicked exactly when a word received was not the one expected. -/
theorem UnixHistory.panicked_iff {buf : List (BitVec 8)} {R Q : List (BitVec 32)} {u : UnixState}
    (h : UnixHistory buf R Q u) :
    (∃ msg v x error, u = .panicked msg v x error) ↔ ¬ R <+: replies buf := by
  cases h with
  | panicked hexp hR hx => 
    exact iff_of_true ⟨_, _, _, _, rfl⟩ fun hpre => hx (eq_of_concat hpre hR)
  | returned => exact iff_of_false (by simp) (not_not.mpr (List.prefix_refl _))
  | _ => exact iff_of_false (by simp) (not_not.mpr ⟨_, rfl⟩)

/-- Where it waits, it expects a word. -/
theorem UnixHistory.expecting {buf : List (BitVec 8)} {R Q : List (BitVec 32)} {u : UnixState}
    (h : UnixHistory buf R Q u) (hrecv : ∃ f, simpleBoot buf u = .recv f) :
    Expecting buf R Q := by
  obtain ⟨f, hf⟩ := hrecv
  cases h with
  | expectSoh => exact .inl ⟨by simp, rfl⟩
  | expectNBytesHash => exact .inl ⟨by simp, rfl⟩
  | expectFileHash => exact .inl ⟨by simp, rfl⟩
  | expectAck => exact .inr ⟨rfl, rfl⟩
  | @data j hj =>
    simp only [simpleBoot] at hf
    split at hf <;> cases hf
  | putSoh => cases hf
  | putNBytes => cases hf
  | putFileHash => cases hf
  | putAck => cases hf
  | returned => cases hf
  | panicked => cases hf

/-- It has stopped when it has returned or panicked. -/
theorem simpleBoot_eq_halt {buf : List (BitVec 8)} {u : UnixState}
    (h : simpleBoot buf u = .halt) :
    u = .returned ∨ ∃ msg v x error, u = .panicked msg v x error := by
  cases u with
  | returned => exact .inl rfl
  | panicked => exact .inr ⟨_, _, _, _, rfl⟩
  | data =>
    simp only [simpleBoot] at h
    split at h <;> cases h
  | _ => cases h

/-- Behind the header it sends only after the echo. -/
theorem UnixHistory.echo_received {buf : List (BitVec 8)} {R Q : List (BitVec 32)} {u : UnixState}
    (h : UnixHistory buf R Q u) (hlen : 3 < Q.length) :
    echo (nBytesOf buf) (crc32 buf) <+: R := by
  cases h with
  | data => exact List.prefix_refl _
  | expectAck => exact List.prefix_refl _
  | returned => exact List.prefix_append _ _
  | @panicked R Q msg v x hexp hR hx =>
    obtain ⟨_, rfl⟩ | ⟨hR3, _⟩ := hexp
    · simp [header] at hlen
    · have hecho : R = echo (nBytesOf buf) (crc32 buf) := by
        have hpre := List.prefix_of_prefix_length_le ((List.prefix_append _ _).trans hR)
          (List.prefix_append _ [ack]) hR3.le
        exact hpre.eq_of_length hR3
      rw [hecho]
      exact List.prefix_append _ _
  | _ => simp [header] at hlen

/-! ## The Pi side -/

/-- The addresses of the words copied, latest first. -/
def copyAddrs (k : ℕ) : List (BitVec 32) :=
  ((List.range k).map fun i => armbase + 4 * BitVec.ofNat 32 i).reverse

/-- The Pi after it has copied some words. -/
def PiState.copied (mem : Mem) (ws : List (BitVec 32)) (pc : PiPc) : PiState :=
  ⟨pc, (storeWords mem armbase ws).1, copyAddrs ws.length⟩

/-- The copy loop is still on before each of the words. -/
def Wanted (n : BitVec 32) (ws : List (BitVec 32)) : Prop :=
  ∀ k < ws.length, 4 * BitVec.ofNat 32 k < n

/-- No word. -/
theorem Wanted.nil (n : BitVec 32) : Wanted n [] := fun k hk => absurd hk (Nat.not_lt_zero k)

/-- One more word is wanted. -/
theorem Wanted.concat {n : BitVec 32} {ws : List (BitVec 32)} (h : Wanted n ws)
    (hlt : 4 * BitVec.ofNat 32 ws.length < n) (w : BitVec 32) : Wanted n (ws ++ [w]) := by
  intro k hk
  rw [List.length_append, List.length_singleton] at hk
  obtain hk | rfl : k < ws.length ∨ k = ws.length := by omega
  · exact h k hk
  · exact hlt

/-- The last word is wanted, and those before it. -/
theorem Wanted.of_concat {n w : BitVec 32} {ws : List (BitVec 32)} (h : Wanted n (ws ++ [w])) :
    Wanted n ws ∧ 4 * BitVec.ofNat 32 ws.length < n := by
  rw [Wanted, List.length_append, List.length_singleton] at h
  exact ⟨fun k hk => h k (by omega), h ws.length (by omega)⟩

/-- Why the Pi has died, with what it has received and sent until then. -/
inductive PiDies (bssStart : BitVec 32) (mem : Mem) :
    List (BitVec 32) → List (BitVec 32) → List (BitVec 32) → BitVec 32 → Prop
  | notSoh {u : BitVec 32} (hu : u ≠ soh) : PiDies bssStart mem [u] [] [] badStart
  | tooLarge {n h : BitVec 32} (hbig : bssStart ≤ armbase + n) :
      PiDies bssStart mem (header n h) [] [] tooBig
  | notAck {n h u : BitVec 32} (hbig : ¬ bssStart ≤ armbase + n) (hu : u ≠ ack) :
      PiDies bssStart mem (header n h ++ [u]) (echo n h) [] nak
  | notEot {n h u : BitVec 32} {ws : List (BitVec 32)} (hbig : ¬ bssStart ≤ armbase + n)
      (hws : Wanted n ws) (hend : ¬ 4 * BitVec.ofNat 32 ws.length < n) (hu : u ≠ eot) :
      PiDies bssStart mem (header n h ++ ack :: (ws ++ [u])) (echo n h) ws badEnd
  | wrongCksum {n h : BitVec 32} {ws : List (BitVec 32)} (hbig : ¬ bssStart ≤ armbase + n)
      (hws : Wanted n ws) (hend : ¬ 4 * BitVec.ofNat 32 ws.length < n)
      (hcrc : crc32 (readBytes (storeWords mem armbase ws).1 armbase n.toNat) ≠ h) :
      PiDies bssStart mem (header n h ++ ack :: (ws ++ [eot])) (echo n h) ws badCksum

/-- The Pi has received a program, and its checksum is right. -/
structure PiAccepts (bssStart : BitVec 32) (mem : Mem) (n h : BitVec 32) (ws : List (BitVec 32)) :
    Prop where
  /-- It is small enough. -/
  small : ¬ bssStart ≤ armbase + n
  /-- The loop takes every word. -/
  wanted : Wanted n ws
  /-- The loop takes no more. -/
  ended : ¬ 4 * BitVec.ofNat 32 ws.length < n
  /-- The checksum of the bytes in memory. -/
  cksum : crc32 (readBytes (storeWords mem armbase ws).1 armbase n.toNat) = h

/-- Where the Pi is after what it has received and sent. -/
inductive PiHistory (bssStart : BitVec 32) (mem : Mem) :
    List (BitVec 32) → List (BitVec 32) → PiState → Prop
  | getSoh : PiHistory bssStart mem [] [] (.copied mem [] .getSoh)
  | getNBytes : PiHistory bssStart mem [soh] [] (.copied mem [] .getNBytes)
  | getFileHash {n : BitVec 32} :
      PiHistory bssStart mem [soh, n] [] (.copied mem [] (.getFileHash n))
  | putSoh {n h : BitVec 32} (hbig : ¬ bssStart ≤ armbase + n) :
      PiHistory bssStart mem (header n h) [] (.copied mem [] (.putSoh n h))
  | putNBytesHash {n h : BitVec 32} (hbig : ¬ bssStart ≤ armbase + n) :
      PiHistory bssStart mem (header n h) [soh] (.copied mem [] (.putNBytesHash n h))
  | putFileHash {n h : BitVec 32} (hbig : ¬ bssStart ≤ armbase + n) :
      PiHistory bssStart mem (header n h) [soh, crc32 (wordBytes n)]
        (.copied mem [] (.putFileHash n h))
  | getAck {n h : BitVec 32} (hbig : ¬ bssStart ≤ armbase + n) :
      PiHistory bssStart mem (header n h) (echo n h) (.copied mem [] (.getAck n h))
  | copy {n h : BitVec 32} {ws : List (BitVec 32)} (hbig : ¬ bssStart ≤ armbase + n)
      (hws : Wanted n ws) :
      PiHistory bssStart mem (header n h ++ ack :: ws) (echo n h)
        (.copied mem ws (.copy n h (4 * BitVec.ofNat 32 ws.length)))
  | putAck {n h : BitVec 32} {ws : List (BitVec 32)} (hacc : PiAccepts bssStart mem n h ws) :
      PiHistory bssStart mem (header n h ++ ack :: (ws ++ [eot])) (echo n h)
        (.copied mem ws .putAck)
  | branchTo {n h : BitVec 32} {ws : List (BitVec 32)} (hacc : PiAccepts bssStart mem n h ws) :
      PiHistory bssStart mem (header n h ++ ack :: (ws ++ [eot])) (echo n h ++ [ack])
        (.copied mem ws .branchTo)
  | die {R Q ws : List (BitVec 32)} {code : BitVec 32} (hdie : PiDies bssStart mem R Q ws code) :
      PiHistory bssStart mem R Q (.copied mem ws (.die code))
  | reboot {R Q ws : List (BitVec 32)} {code : BitVec 32}
      (hdie : PiDies bssStart mem R Q ws code) :
      PiHistory bssStart mem R (Q ++ [code]) (.copied mem ws .reboot)

/-- One more word copied. -/
theorem PiState.copied_concat (mem : Mem) (ws : List (BitVec 32)) (w : BitVec 32) (pc : PiPc) :
    PiState.copied mem (ws ++ [w]) pc =
      ⟨pc, (PiState.copied mem ws pc).mem.store32 (armbase + 4 * BitVec.ofNat 32 ws.length) w,
        (armbase + 4 * BitVec.ofNat 32 ws.length) :: (PiState.copied mem ws pc).stores⟩ := by
  rw [copied, storeWords_concat, storeWords_snd, List.length_append, List.length_singleton,
    copyAddrs, List.range_succ, List.map_append, List.reverse_append]
  rfl

/-- Every history of the Pi is of this kind. -/
theorem piHistory {bssStart : BitVec 32} {mem : Mem} {R Q : List (BitVec 32)} {s : PiState}
    (h : Trace (notmain bssStart) (.start mem) R Q s) : PiHistory bssStart mem R Q s := by
  induction h with
  | nil => exact .getSoh
  | @send R Q t u a _ hM ih =>
    cases ih with
    | putSoh hbig =>
      obtain ⟨rfl, rfl⟩ := Action.send.inj hM
      exact .putNBytesHash hbig
    | putNBytesHash hbig =>
      obtain ⟨rfl, rfl⟩ := Action.send.inj hM
      exact .putFileHash hbig
    | putFileHash hbig =>
      obtain ⟨rfl, rfl⟩ := Action.send.inj hM
      exact .getAck hbig
    | putAck hacc =>
      obtain ⟨rfl, rfl⟩ := Action.send.inj hM
      exact .branchTo hacc
    | die hdie =>
      obtain ⟨rfl, rfl⟩ := Action.send.inj hM
      exact .reboot hdie
    | @copy n h ws hbig hws =>
      simp only [PiState.copied, notmain] at hM
      split at hM <;> cases hM
    | getSoh => cases hM
    | getNBytes => cases hM
    | getFileHash => cases hM
    | getAck => cases hM
    | branchTo => cases hM
    | reboot => cases hM
  | @recv R Q t f a _ hM ih =>
    cases ih with
    | getSoh =>
      obtain rfl := Action.recv.inj hM
      dsimp only
      by_cases ha : a = soh
      · rw [if_neg (not_not.mpr ha), ha]
        exact .getNBytes
      · rw [if_pos ha]
        exact .die (.notSoh ha)
    | getNBytes =>
      obtain rfl := Action.recv.inj hM
      exact .getFileHash
    | @getFileHash n =>
      obtain rfl := Action.recv.inj hM
      dsimp only
      by_cases hbig : bssStart ≤ armbase + n
      · rw [if_pos hbig]
        exact .die (.tooLarge hbig)
      · rw [if_neg hbig]
        exact .putSoh hbig
    | @getAck n h hbig =>
      obtain rfl := Action.recv.inj hM
      dsimp only
      by_cases ha : a = ack
      · rw [if_neg (not_not.mpr ha), ha]
        exact .copy hbig (Wanted.nil n)
      · rw [if_pos ha]
        exact .die (.notAck hbig ha)
    | @copy n h ws hbig hws =>
      have hM' : (if 4 * BitVec.ofNat 32 ws.length < n then
          .recv fun chunk => ⟨.copy n h (4 * BitVec.ofNat 32 ws.length + 4),
            (PiState.copied mem ws .getSoh).mem.store32
              (armbase + 4 * BitVec.ofNat 32 ws.length) chunk,
            (armbase + 4 * BitVec.ofNat 32 ws.length) :: (PiState.copied mem ws .getSoh).stores⟩
        else .recv fun u => .copied mem ws
          (if u ≠ eot then .die badEnd
            else if crc32 (readBytes (storeWords mem armbase ws).1 armbase n.toNat) = h then .putAck
            else .die badCksum)) = Action.recv f := hM
      rw [List.append_assoc, List.cons_append]
      by_cases hlt : 4 * BitVec.ofNat 32 ws.length < n
      · rw [if_pos hlt] at hM'
        obtain rfl := Action.recv.inj hM'
        have hhist : PiHistory bssStart mem (header n h ++ _) _ _ :=
          .copy hbig (hws.concat hlt a)
        rw [PiState.copied_concat, List.length_append, List.length_singleton, BitVec.ofNat_add,
          BitVec.mul_add] at hhist
        exact hhist
      · rw [if_neg hlt] at hM'
        obtain rfl := Action.recv.inj hM'
        dsimp only
        by_cases ha : a = eot
        · rw [if_neg (not_not.mpr ha), ha]
          by_cases hcrc : crc32 (readBytes (storeWords mem armbase ws).1 armbase n.toNat) = h
          · rw [if_pos hcrc]
            exact .putAck ⟨hbig, hws, hlt, hcrc⟩
          · rw [if_neg hcrc]
            exact .die (.wrongCksum hbig hws hlt hcrc)
        · rw [if_pos ha]
          exact .die (.notEot hbig hws hlt ha)
    | putSoh => cases hM
    | putNBytesHash => cases hM
    | putFileHash => cases hM
    | putAck => cases hM
    | branchTo => cases hM
    | die => cases hM
    | reboot => cases hM

/-! ## What the Pi has taken -/

/-- The loop of `notmain` goes by the offset modulo `2 ^ 32`. -/
theorem offset_lt_iff {n : BitVec 32} {k : ℕ} :
    4 * BitVec.ofNat 32 k < n ↔ 4 * k % 2 ^ 32 < n.toNat := by
  have h4 : (4 : BitVec 32).toNat = 4 := rfl
  rw [BitVec.lt_def, BitVec.toNat_mul, BitVec.toNat_ofNat, h4]
  omega

/-- The loop takes no more words than the length asks for, if the offset cannot wrap. -/
theorem Wanted.length_le {n : BitVec 32} {ws : List (BitVec 32)} (h : Wanted n ws)
    (hn : n.toNat + 3 < 2 ^ 32) : ws.length ≤ wordCount n.toNat := by
  by_contra hlt
  have hlast := offset_lt_iff.mp (h (wordCount n.toNat) (by omega))
  unfold wordCount at hlast
  omega

/-- The loop ends after as many words as the length asks for. -/
theorem Wanted.length_eq {n : BitVec 32} {ws : List (BitVec 32)} (h : Wanted n ws)
    (hn : n.toNat + 3 < 2 ^ 32) (hend : ¬ 4 * BitVec.ofNat 32 ws.length < n) :
    ws.length = wordCount n.toNat := by
  have hle := h.length_le hn
  rw [offset_lt_iff] at hend
  unfold wordCount at hle ⊢
  omega

/-- As many words as the length asks for are wanted, and no more. -/
theorem wanted_of_length {n : BitVec 32} {ws : List (BitVec 32)} (hn : n.toNat + 3 < 2 ^ 32)
    (hws : ws.length = wordCount n.toNat) : Wanted n ws ∧ ¬ 4 * BitVec.ofNat 32 ws.length < n := by
  constructor
  · intro k hk
    rw [offset_lt_iff]
    unfold wordCount at hws
    omega
  · rw [offset_lt_iff, hws]
    unfold wordCount
    omega

/-! ## Lengths that fit -/

/-- A length that fits does not let the offset wrap. -/
theorem length_lt_of_fits {n : ℕ} (hfit : armbase.toNat + 4 * wordCount n ≤ 0x200000) :
    n + 3 < 2 ^ 32 := by
  have harm : armbase.toNat = 0x8000 := rfl
  unfold wordCount at hfit
  omega

/-- The bytes of a program that fits, after its words are stored. -/
theorem readBytes_of_fits {n : ℕ} (hfit : armbase.toNat + 4 * wordCount n ≤ 0x200000) (mem : Mem)
    {ws : List (BitVec 32)} (hws : ws.length = wordCount n) :
    readBytes (storeWords mem armbase ws).1 armbase n = (wordsBytes ws).take n := by
  have harm : armbase.toNat = 0x8000 := rfl
  unfold wordCount at hfit hws
  exact readBytes_storeWords_take mem armbase (by omega) (by omega)

/-- A length that fits passes the comparison with `__bss_start__`. -/
theorem small_of_fits {n bssStart : BitVec 32}
    (hfit : armbase.toNat + 4 * wordCount n.toNat ≤ 0x200000) (hbss : 0x200000 < bssStart.toNat) :
    ¬ bssStart ≤ armbase + n := by
  have harm : armbase.toNat = 0x8000 := rfl
  unfold wordCount at hfit
  rw [BitVec.le_def, BitVec.toNat_add]
  omega

/-- The length of a buffer that fits does not let the offset wrap. -/
theorem Fits.nBytesOf_lt {buf : List (BitVec 8)} (h : Fits buf) :
    (nBytesOf buf).toNat + 3 < 2 ^ 32 := by
  rw [h.nBytesOf_toNat]
  exact length_lt_of_fits h

/-- A buffer that fits is not too big. -/
theorem Fits.small {buf : List (BitVec 8)} (h : Fits buf) {bssStart : BitVec 32}
    (hbss : 0x200000 < bssStart.toNat) : ¬ bssStart ≤ armbase + nBytesOf buf := by
  refine small_of_fits ?_ hbss
  rw [h.nBytesOf_toNat]
  exact h

/-- An image with one word replaced that has the checksum of the buffer holds it. -/
theorem PiAccepts.bytes {bssStart : BitVec 32} {mem : Mem} {buf : List (BitVec 8)} {j : ℕ}
    {v : BitVec 32} (hfit : Fits buf)
    (h : PiAccepts bssStart mem (nBytesOf buf) (crc32 buf) ((dataWords buf).set j v)) :
    (wordsBytes ((dataWords buf).set j v)).take buf.length = buf := by
  have hcrc := h.cksum
  rw [hfit.nBytesOf_toNat, readBytes_of_fits hfit mem (by simp)] at hcrc
  have hsame : crc32 ((wordsBytes ((dataWords buf).set j v)).take buf.length) =
      crc32 ((wordsBytes (dataWords buf)).take buf.length) := by
    rw [hcrc, take_wordsBytes_dataWords]
  rw [take_wordsBytes_set hsame, take_wordsBytes_dataWords]

/-- The length of the script. -/
@[simp] theorem script_length (buf : List (BitVec 8)) :
    (script buf).length = wordCount buf.length + 5 := by
  simp [script, header]

/-- A header that comes first is the one there. -/
theorem header_inj {n n' h h' : BitVec 32} {rest rest' : List (BitVec 32)}
    (hpre : header n h ++ rest <+: header n' h' ++ rest') : n = n' ∧ h = h' := by
  simp only [header, List.cons_append, List.cons_prefix_cons] at hpre
  exact ⟨hpre.2.1, hpre.2.2.1⟩

/-- Of the header for a buffer and as many words as it has, the Pi dies only for their
checksum. -/
theorem PiDies.of_script {bssStart : BitVec 32} {mem : Mem} {buf : List (BitVec 8)}
    {R Q ws ds : List (BitVec 32)} {code : BitVec 32} (hdie : PiDies bssStart mem R Q ws code)
    (hfit : Fits buf) (hbss : 0x200000 < bssStart.toNat) (hds : ds.length = wordCount buf.length)
    (hR : R <+: header (nBytesOf buf) (crc32 buf) ++ ack :: (ds ++ [eot])) :
    code = badCksum ∧ Q = echo (nBytesOf buf) (crc32 buf) ∧
      (wordsBytes ds).take buf.length ≠ buf := by
  have hwhole : ∀ {n h u : BitVec 32} {ws : List (BitVec 32)}, Wanted n ws →
      ¬ 4 * BitVec.ofNat 32 ws.length < n →
      header n h ++ ack :: (ws ++ [u]) <+: header (nBytesOf buf) (crc32 buf) ++ ack :: (ds ++ [eot]) →
      ws = ds ∧ u = eot := by
    intro n h u ws hws hend hpre
    obtain ⟨rfl, rfl⟩ := header_inj hpre
    have hlen := hws.length_eq hfit.nBytesOf_lt hend
    rw [hfit.nBytesOf_toNat] at hlen
    rw [List.prefix_append_right_inj, List.prefix_cons_inj] at hpre
    have heq := hpre.eq_of_length (by simp [hlen, hds])
    obtain ⟨hdata, heot⟩ := List.append_inj' heq rfl
    exact ⟨hdata, List.singleton_inj.mp heot⟩
  cases hdie with
  | @notSoh u hu =>
    simp only [header, List.cons_append, List.cons_prefix_cons] at hR
    exact absurd hR.1 hu
  | @tooLarge n h hbig =>
    rw [← List.append_nil (header n h)] at hR
    obtain ⟨rfl, -⟩ := header_inj hR
    exact absurd hbig (hfit.small hbss)
  | @notAck n h u hbig hu =>
    simp only [header, List.cons_append, List.cons_prefix_cons, List.nil_append] at hR
    exact absurd hR.2.2.2.1 hu
  | notEot hbig hws hend hu => exact absurd (hwhole hws hend hR).2 hu
  | @wrongCksum n h ws hbig hws hend hcrc =>
    obtain ⟨rfl, rfl⟩ := header_inj hR
    obtain ⟨rfl, -⟩ := hwhole hws hend hR
    rw [hfit.nBytesOf_toNat, readBytes_of_fits hfit mem hds] at hcrc
    exact ⟨rfl, rfl, fun hbytes => hcrc (by rw [hbytes])⟩

/-- The Pi does not die of the script. -/
theorem PiDies.not_script {bssStart : BitVec 32} {mem : Mem} {buf : List (BitVec 8)}
    {R Q ws : List (BitVec 32)} {code : BitVec 32} (hdie : PiDies bssStart mem R Q ws code)
    (hfit : Fits buf) (hbss : 0x200000 < bssStart.toNat) : ¬ R <+: script buf := by
  intro hR
  obtain ⟨-, -, hbytes⟩ := hdie.of_script hfit hbss (dataWords_length buf) hR
  exact hbytes (take_wordsBytes_dataWords buf)

/-- What the Pi sends after a header. -/
theorem PiHistory.sent {bssStart : BitVec 32} {mem : Mem} {R Q rest : List (BitVec 32)}
    {s : PiState} {n h : BitVec 32} (hpi : PiHistory bssStart mem R Q s)
    (hR : R <+: header n h ++ rest) :
    Q <+: echo n h ∨ s.pc = .branchTo ∧ Q = echo n h ++ [ack] ∨
      ∃ D ws code, PiDies bssStart mem R D ws code ∧ Q <+: D ++ [code] := by
  have hhead : ∀ {n' h'}, header n' h' <+: R → n' = n ∧ h' = h := by
    intro n' h' hpre
    have hpre' : header n' h' ++ [] <+: header n h ++ rest := by
      rw [List.append_nil]
      exact hpre.trans hR
    exact header_inj hpre'
  cases hpi with
  | putNBytesHash => exact .inl ⟨_, rfl⟩
  | putFileHash =>
    obtain ⟨rfl, rfl⟩ := hhead (List.prefix_refl _)
    exact .inl ⟨_, rfl⟩
  | getAck =>
    obtain ⟨rfl, rfl⟩ := hhead (List.prefix_refl _)
    exact .inl (List.prefix_refl _)
  | copy =>
    obtain ⟨rfl, rfl⟩ := hhead (List.prefix_append _ _)
    exact .inl (List.prefix_refl _)
  | putAck =>
    obtain ⟨rfl, rfl⟩ := hhead (List.prefix_append _ _)
    exact .inl (List.prefix_refl _)
  | branchTo =>
    obtain ⟨rfl, rfl⟩ := hhead (List.prefix_append _ _)
    exact .inr (.inl ⟨rfl, rfl⟩)
  | die hdie => exact .inr (.inr ⟨_, _, _, hdie, List.prefix_append _ _⟩)
  | reboot hdie => exact .inr (.inr ⟨_, _, _, hdie, List.prefix_refl _⟩)
  | _ => exact .inl List.nil_prefix

/-- The Pi has sent three words at most when it dies. -/
theorem PiDies.length_le {bssStart : BitVec 32} {mem : Mem} {R Q ws : List (BitVec 32)}
    {code : BitVec 32} (h : PiDies bssStart mem R Q ws code) : Q.length ≤ 3 := by
  cases h <;> simp [echo]

/-- The Pi sends four words at most. -/
theorem PiHistory.length_le {bssStart : BitVec 32} {mem : Mem} {R Q : List (BitVec 32)}
    {s : PiState} (h : PiHistory bssStart mem R Q s) : Q.length ≤ 4 := by
  cases h with
  | die hdie => exact hdie.length_le.trans (by decide)
  | reboot hdie =>
    rw [List.length_append, List.length_singleton]
    exact Nat.succ_le_succ hdie.length_le
  | _ => simp [echo]

/-- The code is never the reply that is expected. -/
theorem PiDies.not_replies {bssStart : BitVec 32} {mem : Mem} {buf : List (BitVec 8)}
    {R Q ws : List (BitVec 32)} {code : BitVec 32} (h : PiDies bssStart mem R Q ws code) :
    ¬ Q ++ [code] <+: replies buf := by
  intro hpre
  have hsoh : Q = [] → code = soh := by
    rintro rfl
    simp only [replies, echo, List.nil_append, List.cons_append, List.cons_prefix_cons] at hpre
    exact hpre.1
  have hack : ∀ n h, Q = echo n h → code = ack := by
    rintro n h rfl
    simp only [replies, echo, List.nil_append, List.cons_append, List.cons_prefix_cons] at hpre
    exact hpre.2.2.2.1
  cases h with
  | notSoh => exact absurd (hsoh rfl) (by decide)
  | tooLarge => exact absurd (hsoh rfl) (by decide)
  | notAck => exact absurd (hack _ _ rfl) (by decide)
  | notEot => exact absurd (hack _ _ rfl) (by decide)
  | wrongCksum => exact absurd (hack _ _ rfl) (by decide)

/-- Where the Pi waits, it has answered nothing and misses a word of the header, or
has echoed the header and misses a word behind it. -/
theorem PiHistory.waiting {bssStart : BitVec 32} {mem : Mem} {R Q : List (BitVec 32)} {s : PiState}
    (h : PiHistory bssStart mem R Q s) (hrecv : ∃ f, notmain bssStart s = .recv f) :
    Q = [] ∧ R.length < 3 ∨ ∃ n h, header n h <+: R ∧ Q = echo n h ∧
      (n.toNat + 3 < 2 ^ 32 → R.length ≤ wordCount n.toNat + 4) := by
  obtain ⟨f, hf⟩ := hrecv
  cases h with
  | getSoh => exact .inl ⟨rfl, by simp⟩
  | getNBytes => exact .inl ⟨rfl, by simp⟩
  | getFileHash => exact .inl ⟨rfl, by simp⟩
  | @getAck n h => exact .inr ⟨n, h, List.prefix_refl _, rfl, fun _ => by simp [header]⟩
  | @copy n h ws hbig hws =>
    refine .inr ⟨n, h, List.prefix_append _ _, rfl, fun hn => ?_⟩
    have hle := hws.length_le hn
    simp only [header, List.cons_append, List.nil_append, List.length_cons]
    omega
  | putSoh => cases hf
  | putNBytesHash => cases hf
  | putFileHash => cases hf
  | putAck => cases hf
  | branchTo => cases hf
  | die => cases hf
  | reboot => cases hf

/-- Where the Pi has stopped, it has branched or died. -/
theorem PiHistory.halted {bssStart : BitVec 32} {mem : Mem} {R Q : List (BitVec 32)} {s : PiState}
    (h : PiHistory bssStart mem R Q s) (hhalt : notmain bssStart s = .halt) :
    s.pc = .branchTo ∧ Q.length = 4 ∨
      ∃ Q' ws code, PiDies bssStart mem R Q' ws code ∧ Q = Q' ++ [code] ∧ s.pc = .reboot := by
  cases h with
  | branchTo => exact .inl ⟨rfl, rfl⟩
  | reboot hdie => exact .inr ⟨_, _, _, hdie, rfl, rfl⟩
  | copy =>
    simp only [PiState.copied, notmain] at hhalt
    split at hhalt <;> cases hhalt
  | _ => cases hhalt

end RpiVm
