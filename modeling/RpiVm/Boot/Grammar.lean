import RpiVm.Boot.Loader

/-!
# What the Pi accepts

The boot grammar, and the first deviation of a stream of words from it. Whatever arrives,
`notmain` branches exactly on the streams of the grammar, and answers a deviation with its
code.
-/

namespace RpiVm

open CLib Channel

/-! ## The grammar -/

/-- The words of a program of this length end below the code of the bootloader. -/
def ShortLength (n : BitVec 32) : Prop := armbase.toNat + 4 * wordCount n.toNat ≤ codeStart

/-- A program of this length reaches the bss of the bootloader, and does not wrap. -/
def LongLength (bssStart n : BitVec 32) : Prop :=
  bssStart.toNat ≤ armbase.toNat + n.toNat ∧ armbase.toNat + n.toNat < 2 ^ 32

instance (n : BitVec 32) : Decidable (ShortLength n) := inferInstanceAs (Decidable (_ ≤ _))

/-- A stream begins with a header, its acknowledgement, a program with the length and the
checksum in the header, and the end of the transmission. -/
def Accepts (L : List (BitVec 32)) : Prop :=
  ∃ n h ds, header n h ++ ack :: (ds ++ [eot]) <+: L ∧ ShortLength n ∧
    ds.length = wordCount n.toNat ∧ crc32 ((wordsBytes ds).take n.toNat) = h

/-- The first deviation of a stream from the grammar: what is sent before it, and its code. -/
inductive Deviates : List (BitVec 32) → List (BitVec 32) → BitVec 32 → Prop
  | notSoh {u : BitVec 32} {rest : List (BitVec 32)} (hu : u ≠ soh) :
      Deviates (u :: rest) [] badStart
  | tooLarge {n h : BitVec 32} {rest : List (BitVec 32)} (hn : ¬ ShortLength n) :
      Deviates (header n h ++ rest) [] tooBig
  | notAck {n h u : BitVec 32} {rest : List (BitVec 32)} (hn : ShortLength n) (hu : u ≠ ack) :
      Deviates (header n h ++ u :: rest) (echo n h) nak
  | notEot {n h u : BitVec 32} {ds rest : List (BitVec 32)} (hn : ShortLength n)
      (hds : ds.length = wordCount n.toNat) (hu : u ≠ eot) :
      Deviates (header n h ++ ack :: (ds ++ u :: rest)) (echo n h) badEnd
  | wrongCksum {n h : BitVec 32} {ds rest : List (BitVec 32)} (hn : ShortLength n)
      (hds : ds.length = wordCount n.toNat) (hcrc : crc32 ((wordsBytes ds).take n.toNat) ≠ h) :
      Deviates (header n h ++ ack :: (ds ++ eot :: rest)) (echo n h) badCksum

/-- The length word of a stream, once it is there, is of one of the two kinds. -/
def LengthInRange (bssStart : BitVec 32) (L : List (BitVec 32)) : Prop :=
  ∀ n, L[1]? = some n → ShortLength n ∨ LongLength bssStart n

/-! ## Lengths -/

/-- A long length does not pass the comparison with `__bss_start__`. -/
theorem LongLength.big {n bssStart : BitVec 32} (h : LongLength bssStart n) :
    bssStart ≤ armbase + n := by
  obtain ⟨hle, hlt⟩ := h
  rw [BitVec.le_def, BitVec.toNat_add, Nat.mod_eq_of_lt hlt]
  exact hle

/-- The comparison with `__bss_start__` tells the lengths apart. -/
theorem LengthInRange.big_iff {bssStart n h : BitVec 32} {L R : List (BitVec 32)}
    (hL : LengthInRange bssStart L) (hbss : codeStart < bssStart.toNat)
    (hread : header n h ++ R <+: L) : bssStart ≤ armbase + n ↔ ¬ ShortLength n := by
  obtain ⟨rest, rfl⟩ := hread
  constructor
  · exact fun hbig hshort => small_of_fits hshort hbss hbig
  · intro hshort
    obtain hn | hn := hL n rfl
    · exact absurd hn hshort
    · exact hn.big

/-! ## From the stream to the answer -/

section

variable {bssStart : BitVec 32} {mem : Mem} {L : List (BitVec 32)}

/-- Where the Pi dies it sends the code and is done. -/
theorem done_of_die {R Q : List (BitVec 32)} {s : PiState} {code : BitVec 32}
    (h : Trace (notmain bssStart) (.start mem) R Q s) (hread : R <+: L) (hpc : s.pc = .die code) :
    ∃ R s, Done (notmain bssStart) (.start mem) L R (Q ++ [code]) s ∧ s.pc = .reboot := by
  have hsend : notmain bssStart s = .send code { s with pc := .reboot } := by
    simp only [notmain, hpc]
  exact ⟨R, _, ⟨h.send hsend, hread, .inl rfl⟩, rfl⟩

/-- The Pi after a whole program and one more word. -/
theorem trace_end (mem : Mem) (hbss : codeStart < bssStart.toNat) {n h u : BitVec 32} {ds : List (BitVec 32)}
    (hn : ShortLength n) (hds : ds.length = wordCount n.toNat) :
    Trace (notmain bssStart) (.start mem) (header n h ++ ack :: (ds ++ [u])) (echo n h)
      (.copied mem ds (if u ≠ eot then .die badEnd
        else if crc32 ((wordsBytes ds).take n.toNat) = h then .putAck else .die badCksum)) := by
  obtain ⟨hwanted, hend⟩ := wanted_of_length (length_lt_of_fits hn) hds
  have hcopy := trace_copy (small_of_fits hn hbss) mem h hwanted
  have hM : notmain bssStart (.copied mem ds (.copy n h (4 * BitVec.ofNat 32 ds.length))) =
      .recv fun u => .copied mem ds (if u ≠ eot then .die badEnd
        else if crc32 (readBytes (storeWords mem armbase ds).1 armbase n.toNat) = h then .putAck
        else .die badCksum) := if_neg hend
  have htrace := hcopy.recv u hM
  rw [readBytes_of_fits hn mem hds] at htrace
  simpa using htrace

/-- The Pi branches on a stream of the grammar. -/
theorem Accepts.done (h : Accepts L) (mem : Mem) (hbss : codeStart < bssStart.toNat) :
    ∃ R Q s, Done (notmain bssStart) (.start mem) L R Q s ∧ s.pc = .branchTo := by
  obtain ⟨n, h, ds, hread, hn, hds, hcrc⟩ := h
  have hend := trace_end (h := h) (u := eot) mem hbss hn hds
  rw [if_neg (not_not.mpr rfl), if_pos hcrc] at hend
  have hack : notmain bssStart (.copied mem ds .putAck) = .send ack (.copied mem ds .branchTo) :=
    rfl
  exact ⟨_, _, _, ⟨hend.send hack, hread, .inl rfl⟩, rfl⟩

/-- The Pi answers a deviation with its code. -/
theorem Deviates.done {Q : List (BitVec 32)} {code : BitVec 32} (h : Deviates L Q code)
    (mem : Mem) (hbss : codeStart < bssStart.toNat) (hL : LengthInRange bssStart L) :
    ∃ R s, Done (notmain bssStart) (.start mem) L R (Q ++ [code]) s ∧ s.pc = .reboot := by
  cases h with
  | @notSoh u rest hu =>
    have hfirst : notmain bssStart (.start mem) = .recv fun u =>
        .copied mem [] (if u ≠ soh then .die badStart else .getNBytes) := rfl
    have htrace := (Trace.nil (M := notmain bssStart) (s := .start mem)).recv u hfirst
    exact done_of_die htrace ⟨rest, rfl⟩ (if_pos hu)
  | @tooLarge n h rest hn =>
    have hread : header n h <+: header n h ++ rest := List.prefix_append _ _
    have hbig := (hL.big_iff hbss (List.prefix_refl _)).mpr hn
    exact done_of_die (trace_header bssStart mem n h) hread (if_pos hbig)
  | @notAck n h u rest hn hu =>
    have hbig := small_of_fits hn hbss
    have hecho := trace_echo hbig mem h
    have hM : notmain bssStart (.copied mem [] (.getAck n h)) = .recv fun u =>
        .copied mem [] (if u ≠ ack then .die nak else .copy n h 0) := rfl
    exact done_of_die (hecho.recv u hM) ⟨rest, by simp⟩ (if_pos hu)
  | @notEot n h u ds rest hn hds hu =>
    have hend := trace_end (h := h) (u := u) mem hbss hn hds
    exact done_of_die hend ⟨rest, by simp⟩ (if_pos hu)
  | @wrongCksum n h ds rest hn hds hcrc =>
    have hend := trace_end (h := h) (u := eot) mem hbss hn hds
    rw [if_neg (not_not.mpr rfl), if_neg hcrc] at hend
    exact done_of_die hend ⟨rest, by simp⟩ rfl

/-! ## From the answer to the stream -/

/-- What the Pi has accepted is in the grammar. -/
theorem PiAccepts.accepts {n h : BitVec 32} {ws : List (BitVec 32)}
    (hacc : PiAccepts bssStart mem n h ws) (hread : header n h ++ ack :: (ws ++ [eot]) <+: L)
    (hbss : codeStart < bssStart.toNat) (hL : LengthInRange bssStart L) : Accepts L := by
  have hn : ShortLength n := not_not.mp ((hL.big_iff hbss hread).not.mp hacc.small)
  have hds := hacc.wanted.length_eq (length_lt_of_fits hn) hacc.ended
  refine ⟨n, h, ws, hread, hn, hds, ?_⟩
  rw [← readBytes_of_fits hn mem hds]
  exact hacc.cksum

/-- What the Pi has died of is a deviation. -/
theorem PiDies.deviates {R Q ws : List (BitVec 32)} {code : BitVec 32}
    (hdie : PiDies bssStart mem R Q ws code) (hread : R <+: L)
    (hbss : codeStart < bssStart.toNat) (hL : LengthInRange bssStart L) : Deviates L Q code := by
  have hshort {n h : BitVec 32} {R : List (BitVec 32)} (hread : header n h ++ R <+: L)
      (hbig : ¬ bssStart ≤ armbase + n) : ShortLength n :=
    not_not.mp ((hL.big_iff hbss hread).not.mp hbig)
  cases hdie with
  | notSoh hu =>
    obtain ⟨rest, rfl⟩ := hread
    exact .notSoh hu
  | @tooLarge n h hbig =>
    have hn := (hL.big_iff (h := h) (R := []) hbss (by simpa using hread)).mp hbig
    obtain ⟨rest, rfl⟩ := hread
    exact .tooLarge hn
  | notAck hbig hu =>
    have hn := hshort hread hbig
    obtain ⟨rest, rfl⟩ := hread
    rw [List.append_assoc]
    exact .notAck hn hu
  | @notEot n h u ws hbig hws hend hu =>
    have hn := hshort hread hbig
    have hds := hws.length_eq (length_lt_of_fits hn) hend
    obtain ⟨rest, rfl⟩ := hread
    have hdev := @Deviates.notEot n h u ws rest hn hds hu
    simpa using hdev
  | @wrongCksum n h ws hbig hws hend hcrc =>
    have hn := hshort hread hbig
    have hds := hws.length_eq (length_lt_of_fits hn) hend
    rw [readBytes_of_fits hn mem hds] at hcrc
    obtain ⟨rest, rfl⟩ := hread
    have hdev := @Deviates.wrongCksum n h ws rest hn hds hcrc
    simpa using hdev

/-- Every stream, however short, is read until the Pi stops or waits for more. -/
theorem exists_done_notmain (bssStart : BitVec 32) (mem : Mem) (L : List (BitVec 32)) :
    ∃ R Q s, Done (notmain bssStart) (.start mem) L R Q s :=
  Trace.nil.exists_done (fun _ _ _ h _ => (piHistory h).length_le) (List.nil_prefix)

/-- For every stream with a length word that is short or long: the Pi gets done with it,
branches if and only if it begins with a program in the grammar, and reboots after an
answer that ends with a code if and only if the code is that of the first deviation. -/
theorem notmain_accepts_iff (hbss : codeStart < bssStart.toNat) (mem : Mem)
    (hL : LengthInRange bssStart L) :
    (∃ R Q s, Done (notmain bssStart) (.start mem) L R Q s) ∧
      ∀ R Q s, Done (notmain bssStart) (.start mem) L R Q s →
        (s.pc = .branchTo ↔ Accepts L) ∧
          ∀ sent code, (s.pc = .reboot ∧ Q = sent ++ [code]) ↔ Deviates L sent code := by
  refine ⟨exists_done_notmain bssStart mem L, fun R Q s hdone => ⟨⟨?_, ?_⟩, ?_⟩⟩
  · intro hpc
    have hpi := piHistory hdone.trace
    have hread := hdone.read
    cases hpi with
    | branchTo hacc => exact hacc.accepts hread hbss hL
    | _ => cases hpc
  · intro hacc
    obtain ⟨R', Q', s', hdone', hpc⟩ := hacc.done mem hbss
    obtain ⟨_, _, rfl⟩ := hdone.unique hdone'
    exact hpc
  · intro sent code
    constructor
    · rintro ⟨hpc, hQ⟩
      have hpi := piHistory hdone.trace
      have hread := hdone.read
      cases hpi with
      | reboot hdie =>
        obtain ⟨rfl, hcode⟩ := List.append_inj' hQ rfl
        obtain rfl := List.singleton_inj.mp hcode
        exact hdie.deviates hread hbss hL
      | _ => cases hpc
    · intro hdev
      obtain ⟨R', s', hdone', hpc⟩ := hdev.done mem hbss hL
      obtain ⟨_, rfl, rfl⟩ := hdone.unique hdone'
      exact ⟨hpc, rfl⟩

/-- A program of five bytes is accepted, in two words. -/
theorem notmain_accepts_iff_five : ∃ R Q s, Done (notmain 0x201320) (.start fun _ => 0)
    [soh, 5, crc32 [1, 2, 3, 4, 5], ack, 0x04030201, 0x05, eot] R Q s ∧ s.pc = .branchTo := by
  have hL : LengthInRange 0x201320
      [soh, 5, crc32 [1, 2, 3, 4, 5], ack, 0x04030201, 0x05, eot] := by
    intro n hn
    obtain rfl := Option.some.inj hn
    exact .inl (by decide)
  obtain ⟨⟨R, Q, s, hdone⟩, hall⟩ := notmain_accepts_iff (by decide) (fun _ => 0) hL
  have hbytes : (wordsBytes [0x04030201, 0x05]).take 5 = [1, 2, 3, 4, 5] := by decide
  refine ⟨R, Q, s, hdone, (hall R Q s hdone).1.mpr ?_⟩
  exact ⟨5, _, [0x04030201, 0x05], List.prefix_refl _, by decide, rfl, congrArg crc32 hbytes⟩

end

end RpiVm
