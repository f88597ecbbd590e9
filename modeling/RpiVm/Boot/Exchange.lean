import RpiVm.Boot.Session

/-!
# One exchange of both sides

What each side has received is the first part of what the other has sent, with at
most one word replaced on the way. Then the Pi branches only to the right program, the
UNIX side returns only when the Pi branches, and neither waits forever.
-/

namespace RpiVm

open CLib Channel Transition

/-- A channel that replaces the word at a position, if any. -/
def replaceWord (e : Option (ℕ × BitVec 32)) (i : ℕ) (a : BitVec 32) : BitVec 32 :=
  match e with
  | none => a
  | some (k, v) => if k = i then v else a

/-- A channel that replaces no word. -/
@[simp] theorem mapIdx_replaceWord_none (as : List (BitVec 32)) :
    as.mapIdx (replaceWord none) = as := by
  apply List.ext_getElem
  · simp
  · intro i _ _
    simp [replaceWord]

/-- A channel that replaces a word. -/
@[simp] theorem mapIdx_replaceWord_some (k : ℕ) (v : BitVec 32) (as : List (BitVec 32)) :
    as.mapIdx (replaceWord (some (k, v))) = as.set k v := by
  apply List.ext_getElem
  · simp
  · intro i _ _
    simp [replaceWord, List.getElem_set]

/-- What comes first still does behind a channel. -/
theorem prefix_mapIdx {as bs : List (BitVec 32)} (h : as <+: bs) (g : ℕ → BitVec 32 → BitVec 32) :
    as.mapIdx g <+: bs.mapIdx g := by
  obtain ⟨cs, rfl⟩ := h
  rw [List.mapIdx_append]
  exact List.prefix_append _ _

/-- A word that comes first stays where it is. -/
theorem getElem_mono {as bs : List (BitVec 32)} (h : as <+: bs) {i : ℕ} {a : BitVec 32}
    (ha : as[i]? = some a) : bs[i]? = some a := by
  obtain ⟨cs, rfl⟩ := h
  rw [List.getElem?_append_left (List.getElem?_eq_some_iff.mp ha).1, ha]

/-- Both sides, joined by channels of which one at most replaces a word. -/
structure Exchange (buf : List (BitVec 8)) (bssStart : BitVec 32) (mem : Mem)
    (e e' : Option (ℕ × BitVec 32)) (R Q : List (BitVec 32)) (u : UnixState)
    (R' Q' : List (BitVec 32)) (s : PiState) : Prop where
  /-- The program fits. -/
  fits : Fits buf
  /-- The bss of the bootloader lies behind its code, which is at `0x200000`. -/
  bss : 0x200000 < bssStart.toNat
  /-- One word at most. -/
  one : e = none ∨ e' = none
  /-- The UNIX side. -/
  unix : UnixHistory buf R Q u
  /-- The Pi side. -/
  pi : PiHistory bssStart mem R' Q' s
  /-- To the Pi. -/
  toPi : R' <+: Q.mapIdx (replaceWord e)
  /-- To the UNIX side. -/
  toUnix : R <+: Q'.mapIdx (replaceWord e')

section

variable {buf : List (BitVec 8)} {bssStart : BitVec 32} {mem : Mem}
  {e e' : Option (ℕ × BitVec 32)} {R Q R' Q' : List (BitVec 32)} {u : UnixState} {s : PiState}

/-- The Pi receives the script, but for a word. -/
theorem Exchange.received_script (X : Exchange buf bssStart mem e e' R Q u R' Q' s) :
    R' <+: (script buf).mapIdx (replaceWord e) :=
  X.toPi.trans (prefix_mapIdx X.unix.sent _)

/-- With no word replaced on the way to it the Pi does not die. -/
theorem Exchange.not_dies (X : Exchange buf bssStart mem none e' R Q u R' Q' s)
    {D ws : List (BitVec 32)} {code : BitVec 32} : ¬ PiDies bssStart mem R' D ws code := by
  intro hdie
  have hscript := X.received_script
  rw [mapIdx_replaceWord_none] at hscript
  exact hdie.not_script X.fits X.bss hscript

/-- With no word replaced on the way to it the Pi answers as expected. -/
theorem Exchange.sent (X : Exchange buf bssStart mem none e' R Q u R' Q' s) :
    Q' <+: replies buf := by
  have hscript := X.received_script
  rw [mapIdx_replaceWord_none] at hscript
  obtain hecho | ⟨-, rfl⟩ | ⟨D, ws, code, hdie, -⟩ := X.pi.sent hscript
  · exact hecho.trans (List.prefix_append _ _)
  · exact List.prefix_refl _
  · exact absurd hdie X.not_dies

/-- The checksum of a word determines it. -/
theorem crc32_wordBytes_inj {n n' : BitVec 32}
    (h : crc32 (wordBytes n) = crc32 (wordBytes n')) : n = n' := by
  have hpad : crc32 ([] ++ (wordBytes n ++ [])) = crc32 ([] ++ (wordBytes n' ++ [])) := by
    rw [List.nil_append, List.nil_append, List.append_nil, List.append_nil, h]
  have hbytes : wordBytes n = wordBytes n' := crc32_change (by simp) rfl hpad
  simp only [wordBytes, List.cons.injEq, and_true] at hbytes
  obtain ⟨h0, h1, h2, h3⟩ := hbytes
  rw [← append_wordBytes n, ← append_wordBytes n', h0, h1, h2, h3]

/-- When the UNIX side has gone on behind the header, the Pi has the right header. -/
theorem Exchange.header_eq (X : Exchange buf bssStart mem e e' R Q u R' Q' s)
    {n h : BitVec 32} {rest rest' : List (BitVec 32)} (hR : R' = header n h ++ rest)
    (hQ : Q' = echo n h ++ rest') (hlen : 3 < Q.length) : n = nBytesOf buf ∧ h = crc32 buf := by
  obtain rfl | rfl := X.one
  · have hscript := X.received_script
    rw [mapIdx_replaceWord_none, hR] at hscript
    exact header_inj hscript
  · have hecho := (X.unix.echo_received hlen).trans X.toUnix
    rw [mapIdx_replaceWord_none, hQ] at hecho
    simp only [echo, List.cons_append, List.cons_prefix_cons] at hecho
    exact ⟨(crc32_wordBytes_inj hecho.2.1).symm, hecho.2.2.1.symm⟩

/-- The words of the program arrive, but for one. -/
theorem Exchange.data_eq (X : Exchange buf bssStart mem e e' R Q u R' Q' s)
    {n h u : BitVec 32} {ws : List (BitVec 32)} (hR : R' = header n h ++ ack :: (ws ++ [u]))
    (hws : ws.length = wordCount buf.length) :
    ws = (dataWords buf).mapIdx fun i => replaceWord e (i + 4) := by
  have heq : R' = (script buf).mapIdx (replaceWord e) :=
    X.received_script.eq_of_length (by simp [hR, hws, header])
  have hdata : header n h ++ ack :: (ws ++ [u]) =
      [replaceWord e 0 soh, replaceWord e 1 (nBytesOf buf), replaceWord e 2 (crc32 buf),
        replaceWord e 3 ack] ++ ((dataWords buf).mapIdx (fun i => replaceWord e (i + 4)) ++
          [replaceWord e (wordCount buf.length + 4) eot]) := by
    rw [← hR, heq]
    simp [script, header, List.mapIdx_append, List.mapIdx_cons]
  have htail : ws ++ [u] = (dataWords buf).mapIdx (fun i => replaceWord e (i + 4)) ++
      [replaceWord e (wordCount buf.length + 4) eot] := by
    simpa [header] using congrArg (List.drop 4) hdata
  exact (List.append_inj' htail rfl).1

/-- Behind the first words. -/
theorem mapIdx_replaceWord_add (j m : ℕ) (v : BitVec 32) (as : List (BitVec 32)) :
    as.mapIdx (fun i => replaceWord (some (j + m, v)) (i + m)) = as.set j v := by
  rw [← mapIdx_replaceWord_some]
  congr 1
  funext i a
  simp [replaceWord]

/-- A channel replaces one word at most. -/
theorem exists_set (e : Option (ℕ × BitVec 32)) (as : List (BitVec 32)) :
    ∃ j v, as.mapIdx (fun i => replaceWord e (i + 4)) = as.set j v := by
  have hsame (as : List (BitVec 32)) : as.set as.length 0 = as :=
    List.set_eq_of_length_le le_rfl
  cases e with
  | none =>
    refine ⟨as.length, 0, ?_⟩
    rw [hsame]
    exact mapIdx_replaceWord_none as
  | some p =>
    obtain ⟨k, v⟩ := p
    by_cases hk : 4 ≤ k
    · obtain ⟨j, rfl⟩ := Nat.exists_eq_add_of_le' hk
      exact ⟨j, v, mapIdx_replaceWord_add j 4 v as⟩
    · refine ⟨as.length, 0, ?_⟩
      rw [hsame]
      have hother : (fun i => replaceWord (some (k, v)) (i + 4)) = replaceWord none := by
        funext i a
        exact if_neg (by omega)
      rw [hother, mapIdx_replaceWord_none]

/-- A program that the Pi accepts is the right one. -/
theorem Exchange.image (X : Exchange buf bssStart mem e e' R Q u R' Q' s)
    {n h : BitVec 32} {ws rest : List (BitVec 32)} (hacc : PiAccepts bssStart mem n h ws)
    (hR : R' = header n h ++ ack :: (ws ++ [eot])) (hQ : Q' = echo n h ++ rest) :
    (wordsBytes ws).take buf.length = buf ∧
      readBytes (storeWords mem armbase ws).1 armbase buf.length = buf := by
  have hlen : 3 < Q.length := by
    have hle := X.toPi.length_le
    rw [hR, List.length_mapIdx] at hle
    simp only [header, List.length_append, List.length_cons, List.length_nil] at hle
    omega
  obtain ⟨rfl, rfl⟩ := X.header_eq hR hQ hlen
  have hcount := hacc.wanted.length_eq X.fits.nBytesOf_lt hacc.ended
  rw [X.fits.nBytesOf_toNat] at hcount
  obtain ⟨j, v, hset⟩ := exists_set e (dataWords buf)
  have hws := (X.data_eq hR hcount).trans hset
  rw [readBytes_of_fits X.fits mem hcount]
  subst hws
  exact ⟨hacc.bytes X.fits, hacc.bytes X.fits⟩

/-- The Pi branches only to the right program. -/
theorem Exchange.branch (X : Exchange buf bssStart mem e e' R Q u R' Q' s)
    (hpc : s.pc = .branchTo) : readBytes s.mem armbase buf.length = buf := by
  have hpi := X.pi
  cases hpi with
  | branchTo hacc => exact (X.image hacc rfl rfl).2
  | _ => cases hpc

/-- The UNIX side has received all replies when it returns. -/
theorem Exchange.received_replies (X : Exchange buf bssStart mem e e' R Q u R' Q' s)
    (hu : u = .returned) : R = replies buf := by
  have hunix := X.unix
  cases hunix with
  | returned => rfl
  | _ => cases hu

/-- The UNIX side returns only when the Pi branches. -/
theorem Exchange.returned (X : Exchange buf bssStart mem e e' R Q u R' Q' s)
    (hu : u = .returned) : s.pc = .branchTo := by
  have hR := X.received_replies hu
  have hto := X.toUnix
  have hlen : 4 ≤ Q'.length := by
    have hle := hto.length_le
    rwa [hR, List.length_mapIdx] at hle
  have hpi := X.pi
  cases hpi with
  | branchTo => rfl
  | @reboot _ D ws code hdie =>
    exfalso
    obtain rfl | rfl := X.one
    · exact X.not_dies hdie
    · -- the code of `die` would come where the acknowledgement is expected
      rw [mapIdx_replaceWord_none, hR] at hto
      have hle : (D ++ [code]).length ≤ 4 := by
        rw [List.length_append, List.length_singleton]
        exact Nat.succ_le_succ hdie.length_le
      have heq := hto.eq_of_length (Nat.le_antisymm hto.length_le hle)
      exact hdie.not_replies (by rw [← heq])
  | die hdie =>
    have hle := hdie.length_le
    exact absurd hlen (by omega)
  | _ => simp [echo] at hlen

/-- When no step is left, the UNIX side has stopped. -/
theorem Exchange.halted (X : Exchange buf bssStart mem e e' R Q u R' Q' s)
    (hunix : simpleBoot buf u = .halt ∨
      (∃ f, simpleBoot buf u = .recv f) ∧ R = Q'.mapIdx (replaceWord e'))
    (hpi : notmain bssStart s = .halt ∨
      (∃ f, notmain bssStart s = .recv f) ∧ R' = Q.mapIdx (replaceWord e)) :
    simpleBoot buf u = .halt := by
  obtain hhalt | ⟨hrecv, hR⟩ := hunix
  · exact hhalt
  exfalso
  have hlenR : R.length = Q'.length := by rw [hR, List.length_mapIdx]
  have hprefix : R <+: replies buf := by
    by_contra hnot
    obtain ⟨msg, v, x, error, rfl⟩ := X.unix.panicked_iff.mpr hnot
    obtain ⟨f, hf⟩ := hrecv
    cases hf
  have hexp := X.unix.expecting hrecv
  obtain hhalt | ⟨hwait, hR'⟩ := hpi
  · obtain ⟨-, hlen⟩ | ⟨D, ws, code, hdie, hQ, -⟩ := X.pi.halted hhalt
    · obtain ⟨hlt, -⟩ | ⟨heq, -⟩ := hexp <;> omega
    · obtain rfl | rfl := X.one
      · exact X.not_dies hdie
      · rw [mapIdx_replaceWord_none] at hR
        exact hdie.not_replies (by rwa [← hQ, ← hR])
  · have hlenR' : R'.length = Q.length := by rw [hR', List.length_mapIdx]
    obtain ⟨hlt, hQ⟩ | ⟨hlen, hQ⟩ := hexp
    · have hlenQ : Q.length = 3 := by rw [hQ]; rfl
      obtain ⟨-, hlt'⟩ | ⟨n, h, -, hecho, -⟩ := X.pi.waiting hwait
      · omega
      · have hlenQ' : Q'.length = 3 := by rw [hecho]; rfl
        omega
    · have hlenQ : Q.length = wordCount buf.length + 5 := by rw [hQ, script_length]
      obtain ⟨hnil, -⟩ | ⟨n, h, ⟨rest, hheader⟩, hecho, hle⟩ := X.pi.waiting hwait
      · rw [hnil] at hlenR
        exact absurd (hlen.symm.trans hlenR) (by decide)
      · rw [← List.append_nil (echo n h)] at hecho
        obtain ⟨rfl, -⟩ := X.header_eq hheader.symm hecho (by omega)
        have hle' := hle X.fits.nBytesOf_lt
        rw [X.fits.nBytesOf_toNat] at hle'
        omega

end

/-! ## Over channels that replace no word -/

section

variable {buf : List (BitVec 8)} {bssStart : BitVec 32} {mem : Mem} {sides : List Side}
  {e' : Option (ℕ × BitVec 32)} {c : Net (BitVec 8) (Framed (BitVec 32) (BitVec 8) UnixState)
    (Framed (BitVec 32) (BitVec 8) PiState)}

/-- A step of one side, with a byte. -/
abbrev BootStep (buf : List (BitVec 8)) (bssStart : BitVec 32) :=
  Net.Step (framed wordCode (simpleBoot buf)) (framed wordCode (notmain bssStart))

/-- A run of both sides. -/
abbrev BootRun (buf : List (BitVec 8)) (bssStart : BitVec 32) (mem : Mem) (sides : List Side)
    (c : Net (BitVec 8) (Framed (BitVec 32) (BitVec 8) UnixState)
      (Framed (BitVec 32) (BitVec 8) PiState)) : Prop :=
  Run (BootStep buf bssStart) ⟨.start .putSoh, .start (.start mem), [], []⟩ sides c

/-- The words of a run are an exchange. -/
theorem BootRun.exchange (hrun : BootRun buf bssStart mem sides c) (hfit : Fits buf)
    (hbss : 0x200000 < bssStart.toNat) :
    Exchange buf bssStart mem none none c.left.received c.left.sent c.left.state
      c.right.received c.right.sent c.right.state := by
  obtain ⟨hunix, hpi, htoPi, htoUnix⟩ := framed_received hrun
  refine ⟨hfit, hbss, .inl rfl, unixHistory hfit hunix, piHistory hpi, ?_, ?_⟩
  · rwa [mapIdx_replaceWord_none]
  · rwa [mapIdx_replaceWord_none]

/-- The Pi has received the whole script when it branches. -/
theorem Exchange.received {R Q R' Q' : List (BitVec 32)} {u : UnixState} {s : PiState}
    (X : Exchange buf bssStart mem none none R Q u R' Q' s) (hpc : s.pc = .branchTo) :
    R' = script buf := by
  have hscript := X.received_script
  rw [mapIdx_replaceWord_none] at hscript
  have hpi := X.pi
  cases hpi with
  | @branchTo n h ws hacc =>
    obtain ⟨rfl, rfl⟩ := header_inj hscript
    have hcount := hacc.wanted.length_eq X.fits.nBytesOf_lt hacc.ended
    rw [X.fits.nBytesOf_toNat] at hcount
    exact hscript.eq_of_length (by simp [header, hcount])
  | _ => cases hpc

/-- A run has at most as many steps as the bytes of all words are sent and received. -/
theorem BootRun.length_le (hrun : BootRun buf bssStart mem sides c) (hfit : Fits buf)
    (hbss : 0x200000 < bssStart.toNat) : sides.length ≤ 8 * (wordCount buf.length + 9) := by
  have X := hrun.exchange hfit hbss
  have hle := framed_length hrun
  have hsent := X.unix.sent.length_le
  have hsent' := X.pi.length_le
  have hsize : wordCode.size = 4 := rfl
  rw [script_length] at hsent
  rw [hsize] at hle
  omega

/-- With no word replaced the UNIX side does not panic. -/
theorem Exchange.not_panicked {R Q R' Q' : List (BitVec 32)} {u : UnixState} {s : PiState}
    (X : Exchange buf bssStart mem none none R Q u R' Q' s) (msg : String) (v x : BitVec 32)
    (error : String) : u ≠ .panicked msg v x error := by
  intro hu
  have hto := X.toUnix
  rw [mapIdx_replaceWord_none] at hto
  exact X.unix.panicked_iff.mp ⟨msg, v, x, error, hu⟩ (hto.trans X.sent)

/-- With no word replaced the Pi does not die. -/
theorem Exchange.alive {R Q R' Q' : List (BitVec 32)} {u : UnixState} {s : PiState}
    (X : Exchange buf bssStart mem none e' R Q u R' Q' s) :
    (∀ code, s.pc ≠ .die code) ∧ s.pc ≠ .reboot := by
  have hpi := X.pi
  cases hpi with
  | die hdie => exact absurd hdie X.not_dies
  | reboot hdie => exact absurd hdie X.not_dies
  | _ => exact ⟨by simp [PiState.copied], by simp [PiState.copied]⟩

/-- When no step is left, the UNIX side has returned, the Pi has branched, and every
word sent has been received. -/
theorem BootRun.finished (hrun : BootRun buf bssStart mem sides c) (hfit : Fits buf)
    (hbss : 0x200000 < bssStart.toNat) (hterm : ∀ side c', ¬ BootStep buf bssStart c side c') :
    c.left.state = .returned ∧ c.right.state.pc = .branchTo ∧
      c.left.received = c.right.sent ∧ c.right.received = c.left.sent := by
  have X := hrun.exchange hfit hbss
  obtain ⟨hunix, hpi⟩ := framed_terminal hrun hterm
  have hreturned : c.left.state = .returned := by
    have hhalt := X.halted (by rwa [mapIdx_replaceWord_none]) (by rwa [mapIdx_replaceWord_none])
    obtain hret | ⟨msg, v, x, error, hpanic⟩ := simpleBoot_eq_halt hhalt
    · exact hret
    · exact absurd hpanic (X.not_panicked msg v x error)
  have hbranch := X.returned hreturned
  have hto := X.toUnix
  have hto' := X.toPi
  rw [mapIdx_replaceWord_none] at hto hto'
  refine ⟨hreturned, hbranch, ?_, ?_⟩
  · refine hto.eq_of_length (Nat.le_antisymm hto.length_le ?_)
    rw [X.received_replies hreturned]
    exact X.pi.length_le
  · refine hto'.eq_of_length (Nat.le_antisymm hto'.length_le ?_)
    rw [X.received hbranch]
    exact X.unix.sent.length_le

/-- The boot protocol delivers a program that fits: in every order of single bytes each
side receives the words that the other sends, neither fails, a run has no more steps
than a bound, neither side waits at its end, and then the UNIX side has returned and the
Pi branches to the program. -/
theorem boot_delivers (hfit : Fits buf) (hbss : 0x200000 < bssStart.toNat)
    (hrun : BootRun buf bssStart mem sides c) :
    (c.left.received <+: c.right.sent ∧ c.right.received <+: c.left.sent) ∧
      ((∀ msg v x error, c.left.state ≠ .panicked msg v x error) ∧
        (∀ code, c.right.state.pc ≠ .die code) ∧ c.right.state.pc ≠ .reboot) ∧
      (c.right.state.pc = .branchTo →
        readBytes c.right.state.mem armbase buf.length = buf) ∧
      sides.length ≤ 8 * (wordCount buf.length + 9) ∧
      ((∀ side c', ¬ BootStep buf bssStart c side c') →
        c.left.state = .returned ∧ c.right.state.pc = .branchTo ∧
          c.left.received = c.right.sent ∧ c.right.received = c.left.sent) ∧
      ∃ sides' c', Run (BootStep buf bssStart) c sides' c' ∧
        c'.left.state = .returned ∧ c'.right.state.pc = .branchTo ∧
        readBytes c'.right.state.mem armbase buf.length = buf := by
  have X := hrun.exchange hfit hbss
  obtain ⟨-, -, htoPi, htoUnix⟩ := framed_received hrun
  refine ⟨⟨htoUnix, htoPi⟩, ⟨X.not_panicked, X.alive⟩, X.branch, hrun.length_le hfit hbss,
    hrun.finished hfit hbss, ?_⟩
  obtain ⟨sides', c', hrest, hterm⟩ :=
    Run.exists_terminal (fun _ _ h => BootRun.length_le h hfit hbss) hrun
  have hwhole : BootRun buf bssStart mem (sides ++ sides') c' := hrun.append hrest
  obtain ⟨hreturned, hbranch, -⟩ := hwhole.finished hfit hbss hterm
  exact ⟨sides', c', hrest, hreturned, hbranch, (hwhole.exchange hfit hbss).branch hbranch⟩

/-- A program of five bytes, before the first step. -/
theorem boot_delivers_five : ∃ sides c, BootRun [1, 2, 3, 4, 5] 0x201320 (fun _ => 0) sides c ∧
    c.left.state = .returned ∧ c.right.state.pc = .branchTo ∧
    readBytes c.right.state.mem armbase 5 = [1, 2, 3, 4, 5] := by
  obtain ⟨-, -, -, -, -, hend⟩ := boot_delivers (by decide) (by decide)
    (Run.nil _ : BootRun [1, 2, 3, 4, 5] 0x201320 (fun _ => 0) [] _)
  exact hend

end

end RpiVm
