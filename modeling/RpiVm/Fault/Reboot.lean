import RpiVm.Fault.DataAbort

/-!
# Rebooting after a fatal abort

What `clean_reboot` and `rpi_reboot` do to devices, access by access, with the MMU
on. The map of `VM_PART5` has no section with the watchdog, so the store that
should start it raises another data abort, and the handler begins again.
-/

namespace RpiVm

open CLib Transition

/-! ## Device accesses of the code -/

/-- `&uart->lsr`. -/
def uartLsr : BitVec 32 := 0x20215054

/-- `&uart->io`. -/
def uartIo : BitVec 32 := 0x20215040

/-- `TX_EMPTY`. -/
def txEmpty : BitVec 32 := 1#32 <<< 5

/-- The counter that `timer_get_time` reads. -/
def timerCounter : BitVec 32 := 0x20003004

/-- `PM_RSTC`. -/
def pmRstc : BitVec 32 := 0x2010001c

/-- `PM_WDOG`. -/
def pmWdog : BitVec 32 := 0x20100024

/-- `PM_PASSWORD`. -/
def pmPassword : BitVec 32 := 0x5a000000

/-- `PM_RSTC_WRCFG_FULL_RESET`. -/
def pmRstcWrcfgFullReset : BitVec 32 := 0x00000020

/-- A call that touches a device, or the part of it that is left. -/
inductive DeviceCall where
  /-- `uart_putc(c)`. -/
  | uartPutc (c : BitVec 8)
  /-- `uart_putc(c)` once the transmitter is empty. -/
  | uartSend (c : BitVec 8)
  /-- `delay_us(us)`. -/
  | delayUs (us : BitVec 32)
  /-- The loop of `delay_us(us)`, started at `rb`. -/
  | delayLoop (rb us : BitVec 32)
  /-- `PUT32(a, v)`. -/
  | put32 (a v : BitVec 32)
  deriving DecidableEq, Repr

/-- `putk`, and what `printk` does with the text it has made. -/
def putk (p : List (BitVec 8)) : List DeviceCall := p.map .uartPutc

/-- `delay_ms`. -/
def delayMs (ms : BitVec 32) : List DeviceCall := [.delayUs (ms * 1000)]

/-- The two stores that reset the machine; `while(1)` follows. -/
def resetStores : List DeviceCall :=
  [.put32 pmWdog (pmPassword ||| 1), .put32 pmRstc (pmPassword ||| pmRstcWrcfgFullReset)]

/-- `rpi_reboot`, in abort mode. -/
def rpiReboot : List DeviceCall := delayMs 30 ++ resetStores

/-- `clean_reboot`. -/
def cleanReboot : List DeviceCall :=
  putk ("DONE!!!\n".toList.map fun c => BitVec.ofNat 8 c.toNat) ++ delayMs 50 ++ rpiReboot

/-- One access of a device: a load, or a store. -/
structure Access where
  /-- The virtual address. -/
  addr : BitVec 32
  /-- Whether it is a store. -/
  isStore : Bool
  deriving DecidableEq, Repr

/-- The next access that a call makes. -/
def DeviceCall.access : DeviceCall → Access
  | .uartPutc _ => ⟨uartLsr, false⟩
  | .uartSend _ => ⟨uartIo, true⟩
  | .delayUs _ => ⟨timerCounter, false⟩
  | .delayLoop _ _ => ⟨timerCounter, false⟩
  | .put32 a _ => ⟨a, true⟩

/-- What is left of a call after its next access, if that is a load of `v`. -/
def DeviceCall.advance (v : BitVec 32) : DeviceCall → List DeviceCall
  | .uartPutc c => if v &&& txEmpty = 0 then [.uartPutc c] else [.uartSend c]
  | .uartSend _ => []
  | .delayUs us => [.delayLoop v us]
  | .delayLoop rb us => if us ≤ v - rb then [] else [.delayLoop rb us]
  | .put32 _ _ => []

/-! ## Running with the MMU on -/

/-- Privileged code may load from and store to an address. -/
def Kernel.accessible (k : Kernel) (a : BitVec 32) : Bool :=
  match k.translate a with
  | none => false
  | some r =>
    match k.cp15.domainCtrl.extractLsb' (2 * r.domain.toNat) 2 with
    | 0b01#2 => r.attrs.ap != 0 && r.attrs.apx == 0
    | 0b11#2 => true
    | _ => false

/-- The abort that an access raises: a translation fault on a section. -/
def Access.fault (a : Access) : Fault := ⟨0b00101 ||| (if a.isStore then 1#32 <<< 11 else 0), a.addr⟩

/-- `data_abort_asm` and `data_abort_vector`, for device accesses: `report` is what
`printDataAbort` and `printk` put out. A handler that returns resumes after the
instruction that aborted. -/
def handleAbort (k : Kernel) (report : Fault → List (BitVec 8)) (f : Fault)
    (resume : List DeviceCall) : List DeviceCall :=
  putk (report f) ++ match dataAbortVector k f with
    | .error (.cleanReboot _) => cleanReboot
    | .error _ => rpiReboot
    | .ok _ => resume

/-- A state of the run: the calls that are left, and how many aborts there were. -/
structure AbortRun where
  /-- The calls that are left; none is `while(1)`. -/
  calls : List DeviceCall
  /-- The aborts since the start. -/
  aborts : ℕ
  deriving DecidableEq, Repr

/-- One access, when the devices answer loads by `answer`. A load that aborts leaves
its address in the register. -/
def AbortRun.step (k : Kernel) (report : Fault → List (BitVec 8))
    (answer : BitVec 32 → BitVec 32) (s : AbortRun) : AbortRun :=
  match s.calls with
  | [] => s
  | c :: rest =>
    if k.accessible c.access.addr then
      { s with calls := c.advance (answer c.access.addr) ++ rest }
    else
      ⟨handleAbort k report c.access.fault (c.advance c.access.addr ++ rest), s.aborts + 1⟩

/-- The state after `n` accesses; `dev i` answers the one at time `i`. -/
def AbortRun.after (k : Kernel) (report : Fault → List (BitVec 8))
    (dev : ℕ → BitVec 32 → BitVec 32) (s : AbortRun) : ℕ → AbortRun
  | 0 => s
  | n + 1 => (AbortRun.after k report dev s n).step k report (dev n)

/-- The start of the handler for an abort. -/
def AbortRun.start (k : Kernel) (report : Fault → List (BitVec 8)) (f : Fault) : AbortRun :=
  ⟨handleAbort k report f [], 0⟩

/-- The handler comes to the end of `rpi_reboot` without another abort. -/
def Resets (k : Kernel) (report : Fault → List (BitVec 8)) (dev : ℕ → BitVec 32 → BitVec 32)
    (f : Fault) : Prop :=
  ∃ n, ((AbortRun.start k report f).after k report dev n).calls = [] ∧
    ((AbortRun.start k report f).after k report dev n).aborts = 0

/-! ## The watchdog is out of reach -/

variable {k : Kernel} {report : Fault → List (BitVec 8)} {dev : ℕ → BitVec 32 → BitVec 32}

/-- An address without a translation is not accessible. -/
theorem Kernel.accessible_of_none {a : BitVec 32} (h : k.translate a = none) :
    k.accessible a = false := by
  rw [Kernel.accessible, h]

/-- Either another abort was raised, or the reset stores are still to come. -/
def AbortRun.Pending (s : AbortRun) : Prop := 0 < s.aborts ∨ resetStores <:+ s.calls

/-- An access with the watchdog out of reach does not perform the reset stores. -/
theorem AbortRun.Pending.step {s : AbortRun} (h : s.Pending) (hwdog : k.accessible pmWdog = false)
    (answer : BitVec 32 → BitVec 32) : (s.step k report answer).Pending := by
  rcases h with haborts | hsuffix
  · left
    unfold AbortRun.step
    split
    · exact haborts
    · split_ifs
      · exact haborts
      · exact Nat.succ_pos _
  · unfold AbortRun.step
    split
    · exact Or.inr hsuffix
    · rename_i c rest hcalls
      split_ifs with hacc
      · right
        rw [hcalls, List.suffix_cons_iff] at hsuffix
        rcases hsuffix with heq | htail
        · -- the next access would be the store to the watchdog
          obtain ⟨hc, _⟩ := List.cons.inj heq
          rw [← hc] at hacc
          exact absurd (hacc.symm.trans hwdog) (by decide)
        · exact htail.trans (List.suffix_append _ _)
      · exact Or.inl (Nat.succ_pos _)

/-- With the watchdog out of reach, no number of accesses performs the reset stores. -/
theorem AbortRun.Pending.after {s : AbortRun} (h : s.Pending)
    (hwdog : k.accessible pmWdog = false) (n : ℕ) : (s.after k report dev n).Pending := by
  induction n with
  | zero => exact h
  | succ n ih => exact ih.step hwdog _

/-- The code of a fatal abort ends with the reset stores. -/
theorem resetStores_suffix (text : List (BitVec 8)) : resetStores <:+ putk text ++ cleanReboot :=
  ((List.suffix_append _ _).trans (List.suffix_append _ _)).trans (List.suffix_append _ _)

/-- A fatal abort does not reset the machine while the watchdog is out of reach. -/
theorem not_resets_of_wdog (hwdog : k.accessible pmWdog = false) {f : Fault} {msg : String}
    (hfatal : dataAbortVector k f = .error (.cleanReboot msg)) : ¬ Resets k report dev f := by
  rintro ⟨n, hcalls, haborts⟩
  have hstart : (AbortRun.start k report f).Pending := by
    right
    rw [AbortRun.start, handleAbort, hfatal]
    exact resetStores_suffix _
  have hend : ((AbortRun.start k report f).after k report dev n).Pending := hstart.after hwdog n
  rcases hend with hpos | hsuffix
  · omega
  · rw [hcalls] at hsuffix
    exact absurd hsuffix.length_le (by decide)

/-! ## The handler begins again -/

/-- Devices that answer: the transmitter is empty again and again, and every delay
comes to its end. -/
structure DevicesAnswer (dev : ℕ → BitVec 32 → BitVec 32) : Prop where
  /-- The transmitter empties. -/
  uart : ∀ n, ∃ m, n ≤ m ∧ dev m uartLsr &&& txEmpty ≠ 0
  /-- The counter gets as far as is asked. -/
  timer : ∀ n rb us, ∃ m, n ≤ m ∧ us ≤ dev m timerCounter - rb

/-- The devices other than the watchdog are accessible. -/
structure Kernel.DevicesMapped (k : Kernel) : Prop where
  /-- The line status of the UART. -/
  lsr : k.accessible uartLsr = true
  /-- The data register of the UART. -/
  io : k.accessible uartIo = true
  /-- The counter of the timer. -/
  timer : k.accessible timerCounter = true

/-- A loop that polls a register is left when the answer allows it. -/
theorem AbortRun.poll {s₀ s' : AbortRun} {n m : ℕ} {P : (BitVec 32 → BitVec 32) → Prop}
    (hle : n ≤ m) (hdone : P (dev m))
    (hstay : ∀ answer, ¬ P answer →
      (s₀.after k report dev n).step k report answer = s₀.after k report dev n)
    (hleave : ∀ answer, P answer → (s₀.after k report dev n).step k report answer = s') :
    ∃ i, s₀.after k report dev i = s' := by
  by_contra hnever
  have hsame : ∀ j, n + j ≤ m → s₀.after k report dev (n + j) = s₀.after k report dev n := by
    intro j
    induction j with
    | zero => intro _; rfl
    | succ j ih =>
      intro hj
      have hprev := ih (by omega)
      have hnot : ¬ P (dev (n + j)) := by
        intro hP
        refine hnever ⟨n + j + 1, ?_⟩
        rw [AbortRun.after, hprev, hleave _ hP]
      rw [← Nat.add_assoc, AbortRun.after, hprev, hstay _ hnot]
  have hm := hsame (m - n) (by omega)
  rw [Nat.add_sub_cancel' hle] at hm
  refine hnever ⟨m + 1, ?_⟩
  rw [AbortRun.after, hm, hleave _ hdone]

/-- The step of an access that goes through. -/
theorem AbortRun.step_cons {c : DeviceCall} {rest : List DeviceCall} {aborts : ℕ}
    (hacc : k.accessible c.access.addr = true) (answer : BitVec 32 → BitVec 32) :
    AbortRun.step k report answer ⟨c :: rest, aborts⟩ =
      ⟨c.advance (answer c.access.addr) ++ rest, aborts⟩ := by
  simp only [AbortRun.step, hacc, if_true]

/-- A call on an accessible device comes to its end. -/
theorem AbortRun.call_ends (hk : k.DevicesMapped) (hdev : DevicesAnswer dev) {s₀ : AbortRun}
    {n aborts : ℕ} {c : DeviceCall} {rest : List DeviceCall} (hc : ∀ a v, c ≠ .put32 a v)
    (h : s₀.after k report dev n = ⟨c :: rest, aborts⟩) :
    ∃ m, s₀.after k report dev m = ⟨rest, aborts⟩ := by
  have hsend {i : ℕ} {b : BitVec 8} (hi : s₀.after k report dev i = ⟨.uartSend b :: rest, aborts⟩) :
      ∃ m, s₀.after k report dev m = ⟨rest, aborts⟩ :=
    ⟨i + 1, by rw [AbortRun.after, hi, step_cons (c := .uartSend b) hk.io]; rfl⟩
  have hloop {i : ℕ} {rb us : BitVec 32}
      (hi : s₀.after k report dev i = ⟨.delayLoop rb us :: rest, aborts⟩) :
      ∃ m, s₀.after k report dev m = ⟨rest, aborts⟩ := by
    obtain ⟨m, hle, hdone⟩ := hdev.timer i rb us
    refine poll (P := fun answer => us ≤ answer timerCounter - rb) hle hdone ?_ ?_
    · intro answer hnot
      rw [hi, step_cons (c := .delayLoop rb us) hk.timer, DeviceCall.advance]
      rw [if_neg (by exact hnot)]
      rfl
    · intro answer hP
      rw [hi, step_cons (c := .delayLoop rb us) hk.timer, DeviceCall.advance]
      rw [if_pos (by exact hP)]
      rfl
  cases c with
  | uartPutc b =>
    obtain ⟨m, hle, hdone⟩ := hdev.uart n
    obtain ⟨i, hi⟩ : ∃ i, s₀.after k report dev i = ⟨.uartSend b :: rest, aborts⟩ := by
      refine poll (P := fun answer => answer uartLsr &&& txEmpty ≠ 0) hle hdone ?_ ?_
      · intro answer hnot
        rw [h, step_cons (c := .uartPutc b) hk.lsr, DeviceCall.advance]
        rw [if_pos (by exact not_not.mp hnot)]
        rfl
      · intro answer hP
        rw [h, step_cons (c := .uartPutc b) hk.lsr, DeviceCall.advance]
        rw [if_neg (by exact hP)]
        rfl
    exact hsend hi
  | uartSend b => exact hsend h
  | delayUs us =>
    have hi : s₀.after k report dev (n + 1) =
        ⟨.delayLoop (dev n timerCounter) us :: rest, aborts⟩ := by
      rw [AbortRun.after, h, step_cons (c := .delayUs us) hk.timer]
      rfl
    exact hloop hi
  | delayLoop rb us => exact hloop h
  | put32 a v => exact absurd rfl (hc a v)

/-- Calls on accessible devices come to their end. -/
theorem AbortRun.calls_end (hk : k.DevicesMapped) (hdev : DevicesAnswer dev) {s₀ : AbortRun}
    {n aborts : ℕ} {cs rest : List DeviceCall} (hcs : ∀ c ∈ cs, ∀ a v, c ≠ .put32 a v)
    (h : s₀.after k report dev n = ⟨cs ++ rest, aborts⟩) :
    ∃ m, s₀.after k report dev m = ⟨rest, aborts⟩ := by
  induction cs generalizing n with
  | nil => exact ⟨n, h⟩
  | cons c cs ih =>
    obtain ⟨m, hm⟩ := call_ends hk hdev (hcs c (List.mem_cons_self)) h
    exact ih (fun c' hc' => hcs c' (List.mem_cons_of_mem _ hc')) hm

/-- What comes before the reset stores are calls on the UART and the timer. -/
theorem cleanReboot_split (text : List (BitVec 8)) : ∃ cs, putk text ++ cleanReboot =
    cs ++ resetStores ∧ ∀ c ∈ cs, ∀ a v, c ≠ .put32 a v := by
  refine ⟨putk text ++ putk ("DONE!!!\n".toList.map fun c => BitVec.ofNat 8 c.toNat) ++
    delayMs 50 ++ delayMs 30, ?_, ?_⟩
  · simp only [cleanReboot, rpiReboot, List.append_assoc]
  · have hputk : ∀ p, ∀ c ∈ putk p, ∀ a v, c ≠ .put32 a v := by
      intro p c hc a v
      obtain ⟨b, _, rfl⟩ := List.mem_map.mp hc
      simp
    have hdelay : ∀ ms, ∀ c ∈ delayMs ms, ∀ a v, c ≠ .put32 a v := by
      intro ms c hc a v
      rw [List.mem_singleton.mp hc]
      simp
    intro c hc
    rcases List.mem_append.mp hc with hc | hc
    · rcases List.mem_append.mp hc with hc | hc
      · rcases List.mem_append.mp hc with hc | hc
        · exact hputk _ c hc
        · exact hputk _ c hc
      · exact hdelay _ c hc
    · exact hdelay _ c hc

/-- When the devices answer and the store to the watchdog is fatal too, the handler
begins again without end. -/
theorem AbortRun.aborts_unbounded (hk : k.DevicesMapped) (hdev : DevicesAnswer dev)
    (hwdog : k.accessible pmWdog = false) {f : Fault} {msg msg' : String}
    (hfatal : dataAbortVector k f = .error (.cleanReboot msg))
    (hagain : dataAbortVector k (Access.fault ⟨pmWdog, true⟩) = .error (.cleanReboot msg'))
    (count : ℕ) : ∃ n text, (AbortRun.start k report f).after k report dev n =
      ⟨putk text ++ cleanReboot, count⟩ := by
  induction count with
  | zero => exact ⟨0, report f, by rw [AbortRun.after, AbortRun.start, handleAbort, hfatal]⟩
  | succ count ih =>
    obtain ⟨n, text, hn⟩ := ih
    obtain ⟨cs, heq, hcs⟩ := cleanReboot_split text
    rw [heq] at hn
    obtain ⟨m, hm⟩ := calls_end hk hdev hcs hn
    refine ⟨m + 1, report (Access.fault ⟨pmWdog, true⟩), ?_⟩
    rw [AbortRun.after, hm]
    simp only [AbortRun.step, resetStores, DeviceCall.access, hwdog, Bool.false_eq_true, if_false,
      handleAbort, hagain]

/-! ## The map of the committed test -/

/-- A null pointer is fatal. -/
theorem dataAbortVector_null {f : Fault} (hfar : faultStatusHasValidFar f.faultval = true)
    (hnull : f.address = 0) :
    dataAbortVector k f = .error (.cleanReboot "Illegal access of 0x0. Aborting...") := by
  rw [dataAbortVector_of_far hfar, if_pos hnull]
  rfl

/-- Above the heap and the stack, an address is fatal. -/
theorem dataAbortVector_above {f : Fault} (hfar : faultStatusHasValidFar f.faultval = true)
    (hlo : k.st.heap < f.address) (hhi : sysStackAddrFine ≤ f.address) :
    dataAbortVector k f = .error (.cleanReboot
      "Outside of heap <range 0x%x to 0x%x>, fatal error. Quitting...\n") := by
  have hstack : ¬ (f.address < sysStackAddrFine ∧ f.address > k.st.heap) := fun h =>
    absurd h.1 (BitVec.not_lt.mpr hhi)
  rw [dataAbortVector_of_far hfar, if_neg (ne_zero_of_lt hlo), if_neg hstack, if_pos (.inr hlo)]
  rfl

variable {e : BitVec 32}

/-- Where no call of the set-up maps, nothing translates. -/
theorem VmPart5.translate_eq_none (h : VmPart5 k e) {x : BitVec 32}
    (hx : ∀ c ∈ vmPart5Calls, ¬ c.Covers x) : k.translate x = none := by
  rw [Kernel.translate, h.tableBase]
  exact h.walk_eq_none hx

/-- The sections of the set-up are accessible to privileged code. -/
theorem VmPart5.accessible_section (h : VmPart5 k e) (base o : BitVec 32)
    (hmem : identityCall .sec base 0 ∈ vmPart5Calls) (ho : o.toNat < 2 ^ 20) :
    k.accessible (base + o) = true := by
  have hdone : (identityCall .sec base 0).withDomain (k.envs e).domain ∈
      (vmPart5Calls.map (MapCall.withDomain (k.envs e).domain)).reverse :=
    List.mem_reverse.mpr (List.mem_map_of_mem hmem)
  obtain ⟨r, hr, _, hattrs, hdomain⟩ := h.maps.inside _ hdone o ho
  obtain ⟨allocs, hinv⟩ := KernelRun.reachable_inv h.reachable
  have hisolated := hinv.kernel.isolated
  have hrange := hisolated.domains_range e (List.mem_singleton.mpr rfl)
  have hlt : r.domain.toNat = (k.envs e).domain.toNat := by
    rw [hdomain rfl]
    show ((k.envs e).domain.setWidth 4).toNat = _
    rw [BitVec.toNat_setWidth]
    simp only at hrange
    omega
  have hfield : k.cp15.domainCtrl.extractLsb' (2 * r.domain.toNat) 2 = 0b01#2 := by
    rw [h.domainCtrl, hisolated.domainReg_field e (List.mem_singleton.mpr rfl) _ r.domain.isLt]
    exact if_pos hlt
  have htranslate : k.translate (base + o) = some r := by
    rw [Kernel.translate, h.tableBase, walk_eq_tableOf_walk]
    exact hr
  rw [Kernel.accessible, htranslate]
  have hflags : ((flagAttrs 0).ap != 0 && (flagAttrs 0).apx == 0) = true := by decide
  simp only [hfield, hattrs]
  exact hflags

/-- The UART and the timer are accessible. -/
theorem VmPart5.devicesMapped (h : VmPart5 k e) : k.DevicesMapped where
  lsr := h.accessible_section 0x20200000 0x15054 (by decide +kernel) (by decide)
  io := h.accessible_section 0x20200000 0x15040 (by decide +kernel) (by decide)
  timer := h.accessible_section 0x20000000 0x3004 (by decide +kernel) (by decide)

/-- The registers of the watchdog do not translate. -/
theorem VmPart5.translate_watchdog (h : VmPart5 k e) :
    k.translate pmWdog = none ∧ k.translate pmRstc = none :=
  ⟨h.translate_eq_none (by decide +kernel), h.translate_eq_none (by decide +kernel)⟩

/-- With the map of the set-up, no fatal abort resets the machine without another
abort: the registers of the watchdog are not accessible. -/
theorem fatalAbort_never_resets {k₀ k k' : Kernel} {e : BitVec 32} (hload : k₀.Loaded)
    (hsetup : vmPart5 k₀ = .ok (e, k)) (hmap : ∀ va, k'.translate va = k.translate va) {f : Fault}
    {msg : String} (hfatal : dataAbortVector k' f = .error (.cleanReboot msg))
    (report : Fault → List (BitVec 8)) (dev : ℕ → BitVec 32 → BitVec 32) :
    ¬ Resets k' report dev f ∧ k'.accessible pmWdog = false ∧ k'.accessible pmRstc = false := by
  obtain ⟨hwdog, hrstc⟩ := (VmPart5.of_ok hload hsetup).translate_watchdog
  have hwdog' := Kernel.accessible_of_none ((hmap pmWdog).trans hwdog)
  exact ⟨not_resets_of_wdog hwdog' hfatal, hwdog', Kernel.accessible_of_none
    ((hmap pmRstc).trans hrstc)⟩

/-- A user-mode load from address 0: a permission fault on a page. -/
def nullFault : Fault := ⟨0b01111, 0⟩

/-- Devices that are always ready, with a timer that counts accesses. -/
def readyDevices (n : ℕ) (a : BitVec 32) : BitVec 32 :=
  if a = uartLsr then txEmpty else BitVec.ofNat 32 n

theorem readyDevices_answer : DevicesAnswer readyDevices := by
  refine ⟨fun n => ⟨n, le_rfl, by rw [readyDevices, if_pos rfl]; decide⟩, fun n rb us => ?_⟩
  refine ⟨n * 2 ^ 32 + (rb + us).toNat, by omega, ?_⟩
  have hvalue : readyDevices (n * 2 ^ 32 + (rb + us).toNat) timerCounter = rb + us := by
    rw [readyDevices, if_neg (by decide)]
    apply BitVec.eq_of_toNat_eq
    have hlt := (rb + us).isLt
    rw [BitVec.toNat_ofNat]
    omega
  rw [hvalue, BitVec.add_comm, BitVec.add_sub_cancel]
  exact BitVec.le_refl us

/-- The load of the committed test from address 0 does not reset the machine. -/
theorem fatalAbort_never_resets_null : ∃ (k : Kernel) (e : BitVec 32),
    vmPart5 (Kernel.start 0) = .ok (e, k) ∧ ¬ Resets k (fun _ => []) readyDevices nullFault := by
  obtain ⟨e, k, hok, _⟩ := vmPart5_ok (Kernel.start_loaded 0)
  exact ⟨k, e, hok, (fatalAbort_never_resets (Kernel.start_loaded 0) hok (fun _ => rfl)
    (dataAbortVector_null (by decide) rfl) _ _).1⟩

/-- The load of the committed test from address 0 is fatal; the machine is not reset,
and the handler begins again without end. -/
theorem nullFault_repeats : ∃ (k : Kernel) (e : BitVec 32) (msg : String),
    vmPart5 (Kernel.start 0) = .ok (e, k) ∧
    dataAbortVector k nullFault = .error (.cleanReboot msg) ∧
    ¬ Resets k (fun _ => []) readyDevices nullFault ∧
    ∀ count, ∃ n, ((AbortRun.start k (fun _ => []) nullFault).after k (fun _ => []) readyDevices
      n).aborts = count := by
  obtain ⟨e, k, hok, h⟩ := vmPart5_ok (Kernel.start_loaded 0)
  have hfatal := dataAbortVector_null (k := k) (f := nullFault) (by decide) rfl
  have hwdog := Kernel.accessible_of_none h.translate_watchdog.1
  have hagain := dataAbortVector_above (k := k) (f := Access.fault ⟨pmWdog, true⟩) (by decide)
    (by rw [BitVec.lt_def]; exact h.heap_lt.trans (by decide)) (by decide)
  refine ⟨k, e, _, hok, hfatal, not_resets_of_wdog hwdog hfatal, fun count => ?_⟩
  obtain ⟨n, text, hn⟩ := AbortRun.aborts_unbounded h.devicesMapped
    readyDevices_answer hwdog hfatal hagain count
  exact ⟨n, by rw [hn]⟩

end RpiVm
