import RpiVm.Boot.Session

/-!
# Where the copy loop stores

The copy loop of `notmain` for any length in the header. The bootloader's code starts
at `0x200000`, but the length is compared with `__bss_start__`, which lies behind the
code, and the sum compared may wrap.
-/

namespace RpiVm

open CLib Channel

/-- The address that the code of the bootloader starts at: `start.s` leaves the space
below it to the program. -/
def codeStart : ℕ := 0x200000

/-- For a length in the header: either it is answered with `TOO_BIG`, or the copy loop
ends after as many words as the length has, with every word stored below the code. -/
def CopySafe (bssStart n : BitVec 32) : Prop :=
  ∀ mem h,
    (∃ s, Trace (notmain bssStart) (.start mem) (header n h) [] s ∧ s.pc = .die tooBig) ∨
      ∀ ws : List (BitVec 32), ws.length = wordCount n.toNat →
        ∃ s offset, Trace (notmain bssStart) (.start mem) (header n h ++ ack :: ws) (echo n h) s ∧
          s.pc = .copy n h offset ∧ ¬ offset < n ∧ s.stores.length = wordCount n.toNat ∧
          ∀ a ∈ s.stores, armbase.toNat ≤ a.toNat ∧ a.toNat + 4 ≤ codeStart

/-- The Pi after a header. -/
theorem trace_header (bssStart : BitVec 32) (mem : Mem) (n h : BitVec 32) :
    Trace (notmain bssStart) (.start mem) (header n h) [] (.copied mem []
      (if bssStart ≤ armbase + n then .die tooBig else .putSoh n h)) := by
  have hfirst : notmain bssStart (.start mem) = .recv fun u =>
      .copied mem [] (if u ≠ soh then .die badStart else .getNBytes) := rfl
  have hsoh : Trace (notmain bssStart) (.start mem) [soh] [] (.copied mem [] .getNBytes) :=
    Trace.recv soh .nil hfirst
  have hn : Trace (notmain bssStart) (.start mem) [soh, n] [] (.copied mem [] (.getFileHash n)) :=
    .recv n hsoh rfl
  exact .recv h hn rfl

/-- The Pi after a header that is small enough and its echo. -/
theorem trace_echo {bssStart n : BitVec 32} (hbig : ¬ bssStart ≤ armbase + n) (mem : Mem)
    (h : BitVec 32) :
    Trace (notmain bssStart) (.start mem) (header n h) (echo n h) (.copied mem [] (.getAck n h)) := by
  have hheader := trace_header bssStart mem n h
  rw [if_neg hbig] at hheader
  have hsoh : Trace (notmain bssStart) (.start mem) (header n h) [soh]
      (.copied mem [] (.putNBytesHash n h)) := .send hheader rfl
  have hhash : Trace (notmain bssStart) (.start mem) (header n h) [soh, crc32 (wordBytes n)]
      (.copied mem [] (.putFileHash n h)) := .send hsoh rfl
  exact .send hhash rfl

/-- The Pi after a header that is small enough, its echo and words that are wanted. -/
theorem trace_copy {bssStart n : BitVec 32} (hbig : ¬ bssStart ≤ armbase + n) (mem : Mem)
    (h : BitVec 32) {ws : List (BitVec 32)} (hws : Wanted n ws) :
    Trace (notmain bssStart) (.start mem) (header n h ++ ack :: ws) (echo n h)
      (.copied mem ws (.copy n h (4 * BitVec.ofNat 32 ws.length))) := by
  induction ws using List.reverseRecOn with
  | nil => exact .recv ack (trace_echo hbig mem h) rfl
  | append_singleton ws w ih =>
    obtain ⟨hws', hlt⟩ := hws.of_concat
    have hM : notmain bssStart
        (.copied mem ws (.copy n h (4 * BitVec.ofNat 32 ws.length))) = .recv fun chunk =>
          ⟨.copy n h (4 * BitVec.ofNat 32 ws.length + 4),
            (storeWords mem armbase ws).1.store32 (armbase + 4 * BitVec.ofNat 32 ws.length) chunk,
            (armbase + 4 * BitVec.ofNat 32 ws.length) :: copyAddrs ws.length⟩ := if_pos hlt
    have htrace := Trace.recv w (ih hws') hM
    rw [PiState.copied_concat, List.length_append, List.length_singleton, BitVec.ofNat_add,
      BitVec.mul_add, ← List.cons_append, ← List.append_assoc]
    exact htrace

/-- What the copy loop has copied is what has been received behind the header. -/
theorem PiHistory.copying {bssStart : BitVec 32} {mem : Mem} {R Q : List (BitVec 32)}
    {s : PiState} {n h offset : BitVec 32} (hpi : PiHistory bssStart mem R Q s)
    (hpc : s.pc = .copy n h offset) :
    ∃ ws, R = header n h ++ ack :: ws ∧ s.stores = copyAddrs ws.length ∧
      offset = 4 * BitVec.ofNat 32 ws.length := by
  cases hpi with
  | copy =>
    obtain ⟨rfl, rfl, rfl⟩ := PiPc.copy.inj hpc
    exact ⟨_, rfl, rfl, rfl⟩
  | _ => cases hpc

/-- The addresses copied to. -/
theorem mem_copyAddrs {k : ℕ} {a : BitVec 32} :
    a ∈ copyAddrs k ↔ ∃ i < k, armbase + 4 * BitVec.ofNat 32 i = a := by
  simp [copyAddrs]

/-- An address copied to may wrap. -/
theorem copyAddr_toNat (i : ℕ) :
    (armbase + 4 * BitVec.ofNat 32 i).toNat = (armbase.toNat + 4 * i) % 2 ^ 32 := by
  have h4 : (4 : BitVec 32).toNat = 4 := rfl
  rw [BitVec.toNat_add, BitVec.toNat_mul, BitVec.toNat_ofNat, h4]
  omega

/-- The Pi has answered with `TOO_BIG` only to a length that the comparison rejects. -/
theorem PiHistory.too_big {bssStart : BitVec 32} {mem : Mem} {R : List (BitVec 32)}
    {s : PiState} {n h : BitVec 32} (hpi : PiHistory bssStart mem R [] s)
    (hR : R = header n h) (hpc : s.pc = .die tooBig) : bssStart ≤ armbase + n := by
  generalize hQ : ([] : List (BitVec 32)) = Q at hpi
  cases hpi with
  | @die _ _ ws code hdie =>
    cases hdie with
    | notSoh => cases hR
    | @tooLarge n' h' hbig =>
      simp only [header, List.cons.injEq, true_and, and_true] at hR
      rwa [hR.1] at hbig
    | notAck => cases hQ
    | notEot => cases hQ
    | wrongCksum => cases hQ
  | _ => cases hpc

/-- Such lengths fail: the comparison lets them pass, and their words end in the code
or behind it, or wrap. -/
theorem not_copySafe {bssStart n : BitVec 32} (hbig : ¬ bssStart ≤ armbase + n)
    (hover : codeStart < armbase.toNat + 4 * wordCount n.toNat) : ¬ CopySafe bssStart n := by
  have harm : armbase.toNat = 0x8000 := rfl
  have hcode : codeStart = 0x200000 := rfl
  intro hsafe
  obtain ⟨s, htrace, hpc⟩ | hloop := hsafe (fun _ => 0) 0
  · exact hbig ((piHistory htrace).too_big rfl hpc)
  · obtain ⟨s, offset, htrace, hpc, hend, hlen, hstores⟩ :=
      hloop (List.replicate (wordCount n.toNat) 0) List.length_replicate
    obtain ⟨ws, -, hs, rfl⟩ := (piHistory htrace).copying hpc
    have hcount : ws.length = wordCount n.toNat := by
      rw [← hlen, hs, copyAddrs, List.length_reverse, List.length_map, List.length_range]
    rw [hcount, offset_lt_iff] at hend
    rw [hs, hcount] at hstores
    have hn := n.isLt
    have hn3 : n.toNat + 3 < 2 ^ 32 := by
      unfold wordCount at hend
      omega
    have hpos : 0 < wordCount n.toNat := by
      unfold wordCount at hover ⊢
      omega
    -- the last word stored
    have hlast := hstores _ (mem_copyAddrs.mpr ⟨wordCount n.toNat - 1, by omega, rfl⟩)
    rw [copyAddr_toNat] at hlast
    unfold wordCount at hlast hpos hover
    omega

/-- Other lengths are rejected or load below the code. -/
theorem copySafe_of_le {bssStart n : BitVec 32}
    (hfit : armbase.toNat + 4 * wordCount n.toNat ≤ codeStart) : CopySafe bssStart n := by
  have harm : armbase.toNat = 0x8000 := rfl
  have hcode : codeStart = 0x200000 := rfl
  intro mem h
  by_cases hbig : bssStart ≤ armbase + n
  · refine .inl ⟨_, trace_header bssStart mem n h, ?_⟩
    rw [if_pos hbig]
    rfl
  · refine .inr fun ws hws => ?_
    obtain ⟨hwanted, hend⟩ := wanted_of_length (length_lt_of_fits hfit) hws
    refine ⟨_, _, trace_copy hbig mem h hwanted, rfl, hend, ?_, ?_⟩
    · rw [← hws]
      simp [PiState.copied, copyAddrs]
    · intro a ha
      obtain ⟨k, hk, rfl⟩ := mem_copyAddrs.mp ha
      rw [copyAddr_toNat]
      omega

/-- For every length in the header: the copy loop ends after as many words as the length
has and stores below the code, if and only if the comparison with `__bss_start__` rejects
the length or the words of that length end below the code. -/
theorem copySafe_iff (bssStart n : BitVec 32) : CopySafe bssStart n ↔
    bssStart ≤ armbase + n ∨ armbase.toNat + 4 * wordCount n.toNat ≤ codeStart := by
  constructor
  · intro hsafe
    by_contra hneither
    obtain ⟨hbig, hover⟩ := not_or.mp hneither
    exact not_copySafe hbig (by omega) hsafe
  · rintro (hbig | hfit)
    · intro mem h
      refine .inl ⟨_, trace_header bssStart mem n h, ?_⟩
      rw [if_pos hbig]
      rfl
    · exact copySafe_of_le hfit

/-- The longest length wraps in the comparison, and its loop never ends. -/
theorem longest_not_copySafe : ¬ CopySafe 0x201320 0xffffffff :=
  not_copySafe (by decide) (by decide)

end RpiVm
