import RpiVm.Xmodem.Receiver

/-!
# What the receiver hears

Every stream of bytes falls into packets and pieces that the receiver refuses. It answers
each of them with one byte, and its memory holds the data of the packets, one after the
other; it branches only at an EOT between them.
-/

namespace RpiVm.Xmodem

open CLib Channel

/-! ## Streams -/

/-- A stream of whole pieces, the replies to them, and the data of the packets among them. -/
inductive Heard : List (BitVec 8) → List (BitVec 8) → List (List (BitVec 8)) → Prop
  | start : Heard [] [] []
  /-- A byte that starts nothing. -/
  | noise {R Q : List (BitVec 8)} {ps : List (List (BitVec 8))} {b : BitVec 8} (h : Heard R Q ps)
      (hsoh : b ≠ soh) (heot : b ≠ eot) : Heard (R ++ [b]) (Q ++ [nak]) ps
  /-- A number that is not the next one. -/
  | wrongNumber {R Q : List (BitVec 8)} {ps : List (List (BitVec 8))} {b : BitVec 8}
      (h : Heard R Q ps) (hb : b ≠ number ps.length) : Heard (R ++ [soh, b]) (Q ++ [nak]) ps
  /-- A byte that is not the complement of the number. -/
  | wrongComplement {R Q : List (BitVec 8)} {ps : List (List (BitVec 8))} {b : BitVec 8}
      (h : Heard R Q ps) (hb : b ≠ 0xff - number ps.length) :
      Heard (R ++ [soh, number ps.length, b]) (Q ++ [nak]) ps
  /-- A byte that is not the sum of the data. -/
  | wrongCksum {R Q : List (BitVec 8)} {ps : List (List (BitVec 8))} {data : List (BitVec 8)}
      {b : BitVec 8} (h : Heard R Q ps) (hlen : data.length = 128) (hb : b ≠ cksum data) :
      Heard (R ++ (head ps.length ++ data ++ [b])) (Q ++ [nak]) ps
  /-- The packet of the next block. -/
  | packet {R Q : List (BitVec 8)} {ps : List (List (BitVec 8))} {data : List (BitVec 8)}
      (h : Heard R Q ps) (hlen : data.length = 128) :
      Heard (R ++ packet ps.length data) (Q ++ [ack]) (ps ++ [data])

/-- The beginning of a packet, which no byte has been refused of. -/
inductive Begun (k : ℕ) : List (BitVec 8) → Prop
  | nil : Begun k []
  | soh : Begun k [soh]
  | number : Begun k [Xmodem.soh, Xmodem.number k]
  | data {data : List (BitVec 8)} (hlen : data.length ≤ 128) : Begun k (head k ++ data)

/-! ## Histories of the receiver -/

/-- Where the receiver is after what it has received and sent. -/
inductive ReceiverHistory (mem : Mem) :
    List (BitVec 8) → List (BitVec 8) → Receiver → Prop
  /-- It reads a packet. -/
  | reading {R Q part : List (BitVec 8)} {ps : List (List (BitVec 8))} {s : Receiver}
      (hheard : Heard R Q ps) (hbegun : Begun ps.length part) (hs : At mem ps part s)
      (hout : s.out = none) : ReceiverHistory mem (R ++ part) Q s
  /-- It replies to a piece. -/
  | replying {R Q : List (BitVec 8)} {r : BitVec 8} {ps : List (List (BitVec 8))} {s : Receiver}
      (hheard : Heard R (Q ++ [r]) ps) (hs : At mem ps [] s) (hout : s.out = some r) :
      ReceiverHistory mem R Q s
  /-- It has read an EOT. -/
  | ending {R Q : List (BitVec 8)} {ps : List (List (BitVec 8))} {s : Receiver}
      (hheard : Heard R Q ps) (hmem : s.mem = storeBytes mem armbase ps.flatten)
      (hbranched : s.branched = true) (hout : s.out = some ack) :
      ReceiverHistory mem (R ++ [eot]) Q s
  /-- It has replied to the EOT. -/
  | ended {R Q : List (BitVec 8)} {ps : List (List (BitVec 8))} {s : Receiver}
      (hheard : Heard R Q ps) (hmem : s.mem = storeBytes mem armbase ps.flatten)
      (hbranched : s.branched = true) (hout : s.out = none) :
      ReceiverHistory mem (R ++ [eot]) (Q ++ [ack]) s

section

variable {mem : Mem} {R Q part : List (BitVec 8)} {ps : List (List (BitVec 8))} {s : Receiver}

/-- One byte more. -/
theorem ReceiverHistory.receive (hheard : Heard R Q ps) (hbegun : Begun ps.length part)
    (hs : At mem ps part s) (hout : s.out = none) (b : BitVec 8) :
    ReceiverHistory mem (R ++ part ++ [b]) Q (s.receive b) := by
  cases hbegun with
  | nil =>
    rw [List.append_nil]
    by_cases heot : b = eot
    · subst heot
      obtain ⟨hbranched, hack, hmem⟩ := hs.receive_eot
      exact .ending hheard hmem hbranched hack
    by_cases hsoh : b = soh
    · subst hsoh
      obtain ⟨hs', hout'⟩ := hs.receive_soh
      exact .reading hheard .soh hs' (hout'.trans hout)
    · obtain ⟨hs', hnak⟩ := hs.receive_noise hsoh heot
      exact .replying (hheard.noise hsoh heot) hs' hnak
  | soh =>
    have hnext := hs.receive_number b
    split at hnext
    · rename_i hb
      obtain ⟨hs', hout'⟩ := hnext
      have hhist := ReceiverHistory.reading hheard .number hs' (hout'.trans hout)
      rw [← hb] at hhist
      simpa using hhist
    · rename_i hb
      have hhist := ReceiverHistory.replying (hheard.wrongNumber hb) hnext.1 hnext.2
      simpa using hhist
  | number =>
    have hnext := hs.receive_complement b
    split at hnext
    · rename_i hb
      obtain ⟨hs', hout'⟩ := hnext
      have hdata : Begun ps.length (head ps.length ++ []) := .data (by simp)
      rw [List.append_nil] at hdata
      have hhist := ReceiverHistory.reading hheard hdata hs' (hout'.trans hout)
      rw [head, ← hb] at hhist
      simpa using hhist
    · rename_i hb
      have hhist := ReceiverHistory.replying (hheard.wrongComplement hb) hnext.1 hnext.2
      simpa using hhist
  | @data data hlen =>
    obtain hlt | heq := Nat.lt_or_eq_of_le hlen
    · obtain ⟨hs', hout'⟩ := hs.receive_data hlt b
      have hmore : Begun ps.length (head ps.length ++ (data ++ [b])) := .data (by simpa using hlt)
      have hhist := ReceiverHistory.reading hheard hmore hs' (hout'.trans hout)
      simpa using hhist
    · have hnext := hs.receive_cksum heq b
      split at hnext
      · rename_i hb
        have hhist := ReceiverHistory.replying (hheard.packet heq) hnext.1 hnext.2
        rw [packet, ← hb] at hhist
        simpa using hhist
      · rename_i hb
        have hhist := ReceiverHistory.replying (hheard.wrongCksum heq hb) hnext.1 hnext.2
        simpa using hhist

/-- Every history of the receiver is of this kind. -/
theorem receiverHistory {xstring : ℕ → BitVec 8}
    (h : Trace receiver (.start xstring mem) R Q s) : ReceiverHistory mem R Q s := by
  induction h with
  | nil =>
    have hstart : ReceiverHistory mem ([] ++ []) [] (.start xstring mem) :=
      .reading .start .nil (at_start xstring mem) rfl
    exact hstart
  | @send R Q t u b _ hM ih =>
    unfold receiver at hM
    split at hM
    · rename_i r hout
      obtain ⟨rfl, rfl⟩ := Action.send.inj hM
      cases ih with
      | reading _ _ _ hnone => cases hnone.symm.trans hout
      | replying hheard hs hsome =>
        obtain rfl := Option.some.inj (hsome.symm.trans hout)
        simpa using ReceiverHistory.reading hheard .nil (hs.setOut none) rfl
      | ending hheard hmem hbranched hsome =>
        obtain rfl := Option.some.inj (hsome.symm.trans hout)
        exact .ended hheard hmem hbranched rfl
      | ended _ _ _ hnone => cases hnone.symm.trans hout
    · split at hM <;> cases hM
  | @recv R Q t f b _ hM ih =>
    unfold receiver at hM
    split at hM
    · cases hM
    · rename_i hout
      split at hM
      · cases hM
      · rename_i hrunning
        obtain rfl := Action.recv.inj hM
        cases ih with
        | reading hheard hbegun hs _ => exact .receive hheard hbegun hs hout b
        | replying _ _ hsome => cases hsome.symm.trans hout
        | ending _ _ hbranched => exact absurd hbranched hrunning
        | ended _ _ hbranched => exact absurd hbranched hrunning

/-! ## Recordings of the receiver -/

/-- The receiver reads a byte. -/
theorem recording_receive (hs : At mem ps part s) (hout : s.out = none) (b : BitVec 8) :
    Recording receiver s [.received b] (s.receive b) := by
  have hstep : receiver s = .recv s.receive := by
    unfold receiver
    rw [hout]
    simp [hs.running]
  exact .recv b hstep (.nil _)

/-- The receiver replies. -/
theorem recording_reply {r : BitVec 8} (hout : s.out = some r) :
    Recording receiver s [.sent r] { s with out := none } := by
  have hstep : receiver s = .send r { s with out := none } := by
    unfold receiver
    rw [hout]
  exact .send hstep (.nil _)

/-- The receiver reads data. -/
theorem recording_data {data more : List (BitVec 8)} (hs : At mem ps (head ps.length ++ data) s)
    (hout : s.out = none) (hlen : data.length + more.length ≤ 128) :
    ∃ s', Recording receiver s (more.map .received) s' ∧
      At mem ps (head ps.length ++ (data ++ more)) s' ∧ s'.out = none := by
  induction more generalizing data s with
  | nil => exact ⟨s, .nil s, by simpa using hs, hout⟩
  | cons b more ih =>
    rw [List.length_cons] at hlen
    obtain ⟨hs₁, hout₁⟩ := hs.receive_data (by omega) b
    obtain ⟨s', hrec, hs', hout'⟩ := ih hs₁ (hout₁.trans hout)
      (by rw [List.length_append, List.length_singleton]; omega)
    refine ⟨s', (recording_receive hs hout b).append hrec, ?_, hout'⟩
    simpa using hs'

/-- The receiver reads the head of a packet. -/
theorem recording_head (hs : At mem ps [] s) (hout : s.out = none) :
    ∃ s', Recording receiver s ((head ps.length).map .received) s' ∧
      At mem ps (head ps.length) s' ∧ s'.out = none := by
  obtain ⟨hs₁, hout₁⟩ := hs.receive_soh
  have hs₂ := hs₁.receive_number (number ps.length)
  rw [if_pos rfl] at hs₂
  have hs₃ := hs₂.1.receive_complement (0xff - number ps.length)
  rw [if_pos rfl] at hs₃
  have hout₁' := hout₁.trans hout
  have hout₂' := hs₂.2.trans hout₁'
  have hrec := ((recording_receive hs hout soh).append
    (recording_receive hs₁ hout₁' (number ps.length))).append
      (recording_receive hs₂.1 hout₂' (0xff - number ps.length))
  exact ⟨_, hrec, hs₃.1, hs₃.2.trans hout₂'⟩

/-- The receiver reads a packet with the number that is next, and the checksum decides. -/
theorem recording_packet (hs : At mem ps [] s) (hout : s.out = none) {data : List (BitVec 8)}
    (hlen : data.length = 128) (b : BitVec 8) :
    ∃ s', Recording receiver s ((head ps.length ++ data ++ [b]).map .received ++
        [.sent (if b = cksum data then ack else nak)]) s' ∧
      At mem (if b = cksum data then ps ++ [data] else ps) [] s' ∧ s'.out = none := by
  obtain ⟨s₁, hrec₁, hs₁, hout₁⟩ := recording_head hs hout
  rw [← List.append_nil (head ps.length)] at hs₁
  obtain ⟨s₂, hrec₂, hs₂, hout₂⟩ := recording_data hs₁ hout₁ (by rw [hlen]; exact le_rfl)
  rw [List.nil_append] at hs₂
  have hlast := hs₂.receive_cksum hlen b
  have hrec := (hrec₁.append hrec₂).append (recording_receive hs₂ hout₂ b)
  split
  · rename_i hb
    rw [if_pos hb] at hlast
    refine ⟨_, ?_, hlast.1.setOut none, rfl⟩
    simpa using hrec.append (recording_reply hlast.2)
  · rename_i hb
    rw [if_neg hb] at hlast
    refine ⟨_, ?_, hlast.1.setOut none, rfl⟩
    simpa using hrec.append (recording_reply hlast.2)

/-- What is heard is read. -/
theorem Heard.recording (xstring : ℕ → BitVec 8) (mem : Mem) (h : Heard R Q ps) :
    ∃ l s, Recording receiver (.start xstring mem) l s ∧ receivedOf l = R ∧ sentOf l = Q ∧
      At mem ps [] s ∧ s.out = none := by
  induction h with
  | start => exact ⟨[], _, .nil _, rfl, rfl, at_start xstring mem, rfl⟩
  | @noise R Q ps b _ hsoh heot ih =>
    obtain ⟨l, s, hrec, rfl, rfl, hs, hout⟩ := ih
    obtain ⟨hs₁, hnak⟩ := hs.receive_noise hsoh heot
    refine ⟨_, _, (hrec.append (recording_receive hs hout b)).append (recording_reply hnak),
      by simp, by simp, hs₁.setOut none, rfl⟩
  | @wrongNumber R Q ps b _ hb ih =>
    obtain ⟨l, s, hrec, rfl, rfl, hs, hout⟩ := ih
    obtain ⟨hs₁, hout₁⟩ := hs.receive_soh
    have hs₂ := hs₁.receive_number b
    rw [if_neg hb] at hs₂
    refine ⟨_, _, ((hrec.append (recording_receive hs hout soh)).append
      (recording_receive hs₁ (hout₁.trans hout) b)).append (recording_reply hs₂.2),
      by simp, by simp, hs₂.1.setOut none, rfl⟩
  | @wrongComplement R Q ps b _ hb ih =>
    obtain ⟨l, s, hrec, rfl, rfl, hs, hout⟩ := ih
    obtain ⟨hs₁, hout₁⟩ := hs.receive_soh
    have hs₂ := hs₁.receive_number (number ps.length)
    rw [if_pos rfl] at hs₂
    have hs₃ := hs₂.1.receive_complement b
    rw [if_neg hb] at hs₃
    have hout₁' := hout₁.trans hout
    refine ⟨_, _, (((hrec.append (recording_receive hs hout soh)).append
      (recording_receive hs₁ hout₁' (number ps.length))).append
        (recording_receive hs₂.1 (hs₂.2.trans hout₁') b)).append (recording_reply hs₃.2),
      by simp, by simp, hs₃.1.setOut none, rfl⟩
  | @wrongCksum R Q ps data b _ hlen hb ih =>
    obtain ⟨l, s, hrec, rfl, rfl, hs, hout⟩ := ih
    obtain ⟨s', hrec', hs', hout'⟩ := recording_packet hs hout hlen b
    rw [if_neg hb] at hrec' hs'
    exact ⟨_, s', hrec.append hrec', by simp, by simp, hs', hout'⟩
  | @packet R Q ps data _ hlen ih =>
    obtain ⟨l, s, hrec, rfl, rfl, hs, hout⟩ := ih
    obtain ⟨s', hrec', hs', hout'⟩ := recording_packet hs hout hlen (cksum data)
    rw [if_pos rfl] at hrec' hs'
    exact ⟨_, s', hrec.append hrec', by simp [Xmodem.packet],
      by simp, hs', hout'⟩

/-- The receiver reads every stream of bytes as pieces, each of which it answers with one
byte: it reads whatever is made of such pieces, and whatever it reads is made of them, with
the beginning of a packet or an EOT behind. Its memory holds the data of the packets, one
after the other, and it branches at the EOT only. -/
theorem receiver_hears (xstring : ℕ → BitVec 8) (mem : Mem) (R Q : List (BitVec 8)) :
    (∀ ps, Heard R Q ps → ∃ s, Trace receiver (.start xstring mem) R Q s ∧
      s.mem = storeBytes mem armbase ps.flatten ∧ s.branched = false) ∧
    ∀ s, Trace receiver (.start xstring mem) R Q s → ∃ R' Q' ps part, R = R' ++ part ∧
      Heard R' Q' ps ∧ s.mem = storeBytes mem armbase ps.flatten ∧
      if s.branched then part = [eot] ∧ Q ++ s.out.toList = Q' ++ [ack]
      else Begun ps.length part ∧ Q ++ s.out.toList = Q' := by
  constructor
  · intro ps h
    obtain ⟨l, s, hrec, rfl, rfl, hs, -⟩ := h.recording xstring mem
    exact ⟨s, hrec.trace, hs.mem_eq, hs.running⟩
  · intro s h
    cases receiverHistory h with
    | reading hheard hbegun hs hout =>
      refine ⟨_, _, _, _, rfl, hheard, hs.mem_eq, ?_⟩
      rw [if_neg (by rw [hs.running]; decide)]
      exact ⟨hbegun, by simp [hout]⟩
    | replying hheard hs hout =>
      refine ⟨_, _, _, [], (List.append_nil _).symm, hheard, hs.mem_eq, ?_⟩
      rw [if_neg (by rw [hs.running]; decide)]
      exact ⟨.nil, by simp [hout]⟩
    | ending hheard hmem hbranched hout =>
      refine ⟨_, _, _, _, rfl, hheard, hmem, ?_⟩
      rw [if_pos hbranched]
      exact ⟨rfl, by simp [hout]⟩
    | ended hheard hmem hbranched hout =>
      refine ⟨_, _, _, _, rfl, hheard, hmem, ?_⟩
      rw [if_pos hbranched]
      exact ⟨rfl, by simp [hout]⟩

end

end RpiVm.Xmodem
