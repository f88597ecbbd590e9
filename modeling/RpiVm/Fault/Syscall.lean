import RpiVm.Env.VmTests
import RpiVm.Lib.Arm
import RpiVm.Printk

/-!
# System calls

`software_interrupt_asm` saves the registers, passes their place to `handle_swi`, and
restores them. The handler asserts that its frame lies between the two stacks of the
layout, whose order differs between the layouts: with `RUN_ADVANCED` it never does.
-/

namespace RpiVm

open CLib Arm

/-! ## The handler -/

/-- `SWI_STACK_ADDR`, by `RUN_ADVANCED`. -/
def swiStackAddr (runAdvanced : Bool) : BitVec 32 :=
  if runAdvanced then swiStackAddrFine else 0x200000

/-- `SYS_STACK_ADDR`, by `RUN_ADVANCED`. -/
def sysStackAddr (runAdvanced : Bool) : BitVec 32 :=
  if runAdvanced then sysStackAddrFine else 0x100000

/-- `SUPER_MODE`. -/
def superMode : BitVec 32 := 0b10011

/-- `cpsr_read_c`. -/
def cpsrReadC (cpsr : BitVec 32) : BitVec 32 := cpsr &&& 0b11111

/-- `cpsr_read_c` gives the mode bits. -/
theorem cpsrReadC_eq (cpsr : BitVec 32) : cpsrReadC cpsr = (modeBits cpsr).setWidth 32 := by
  have hmask : (0b11111 : BitVec 32).toNat = 2 ^ 5 - 1 := by decide
  apply BitVec.eq_of_toNat_eq
  rw [cpsrReadC, BitVec.toNat_and, hmask, Nat.and_two_pow_sub_one_eq_mod, modeBits,
    BitVec.toNat_setWidth, BitVec.extractLsb'_toNat, Nat.shiftRight_zero]
  omega

/-- `handle_swi`, with the address of its variable `i`: the memory that it leaves. -/
def handleSwi (runAdvanced : Bool) (cpsr i : BitVec 32) (m : Mem) (sysno : BitVec 8)
    (pc savedRegs : BitVec 32) : Except Panic Mem := do
  let _ ← printk "sysno=%d\n" [.word (sysno.setWidth 32)]
  let _ ← printk "\tcpsr =%x\n" [.word cpsr]
  assert (cpsrReadC cpsr == superMode) "cpsr_read_c() == SUPER_MODE"
  assert (i < swiStackAddr runAdvanced) "&i < (int*)SWI_STACK_ADDR"
  assert (i > sysStackAddr runAdvanced) "&i > (int*)SYS_STACK_ADDR"
  let _ ← printk "\treturn=%x stack=%x\n" [.word pc, .word savedRegs]
  let _ ← printk "arg[0]=%d, arg[1]=%d, arg[2]=%d, arg[3]=%d\n"
    [.word (m.load32 savedRegs), .word (m.load32 (savedRegs + 4)),
      .word (m.load32 (savedRegs + 8)), .word (m.load32 (savedRegs + 12))]
  pure (m.store32 savedRegs 13)

/-- A format whose specifiers all take a word prints as many words. -/
theorem printk_words (ws : List (BitVec 32)) (n : ℕ) (hn : ws.length = n) {f : String}
    (h : formatFits f.toList .text (List.replicate n .word) = true) :
    ∃ t, printk f (ws.map .word) = .ok t := by
  have hkinds : (ws.map PrintArg.word).map PrintArg.kind = List.replicate n .word := by
    rw [List.map_map, ← hn]
    exact List.map_const
  exact printk_returns (by rw [hkinds]; exact h)

/-- The handler returns exactly when its three assertions hold, with 13 in the place of the
first register. -/
theorem handleSwi_eq_ok {runAdvanced : Bool} {cpsr i : BitVec 32} {m m' : Mem} {sysno : BitVec 8}
    {pc savedRegs : BitVec 32} : handleSwi runAdvanced cpsr i m sysno pc savedRegs = .ok m' ↔
      cpsrReadC cpsr = superMode ∧ i < swiStackAddr runAdvanced ∧ sysStackAddr runAdvanced < i ∧
        m' = m.store32 savedRegs 13 := by
  constructor
  · intro h
    obtain ⟨_, _, h⟩ := bind_eq_ok.mp h
    obtain ⟨_, _, h⟩ := bind_eq_ok.mp h
    obtain ⟨_, hmode, h⟩ := bind_eq_ok.mp h
    obtain ⟨_, hswi, h⟩ := bind_eq_ok.mp h
    obtain ⟨_, hsys, h⟩ := bind_eq_ok.mp h
    obtain ⟨_, _, h⟩ := bind_eq_ok.mp h
    obtain ⟨_, _, h⟩ := bind_eq_ok.mp h
    exact ⟨beq_iff_eq.mp (assert_eq_ok.mp hmode), of_decide_eq_true (assert_eq_ok.mp hswi),
      of_decide_eq_true (assert_eq_ok.mp hsys), (Except.ok.inj h).symm⟩
  · rintro ⟨hmode, hswi, hsys, rfl⟩
    obtain ⟨t₁, h₁⟩ := printk_words [sysno.setWidth 32] 1 rfl (f := "sysno=%d\n") (by decide)
    obtain ⟨t₂, h₂⟩ := printk_words [cpsr] 1 rfl (f := "\tcpsr =%x\n") (by decide)
    obtain ⟨t₃, h₃⟩ := printk_words [pc, savedRegs] 2 rfl (f := "\treturn=%x stack=%x\n")
      (by decide)
    obtain ⟨t₄, h₄⟩ := printk_words [m.load32 savedRegs, m.load32 (savedRegs + 4),
      m.load32 (savedRegs + 8), m.load32 (savedRegs + 12)] 4 rfl
      (f := "arg[0]=%d, arg[1]=%d, arg[2]=%d, arg[3]=%d\n") (by decide)
    exact bind_eq_ok.mpr ⟨t₁, h₁, bind_eq_ok.mpr ⟨t₂, h₂,
      bind_eq_ok.mpr ⟨(), assert_eq_ok.mpr (beq_iff_eq.mpr hmode),
        bind_eq_ok.mpr ⟨(), assert_eq_ok.mpr (decide_eq_true hswi),
          bind_eq_ok.mpr ⟨(), assert_eq_ok.mpr (decide_eq_true hsys),
            bind_eq_ok.mpr ⟨t₃, h₃, bind_eq_ok.mpr ⟨t₄, h₄, rfl⟩⟩⟩⟩⟩⟩⟩

/-! ## The trampoline -/

/-- The registers that the trampoline saves. -/
def swiSavedRegs : List Reg := [0, 1, 2, 3, 4, 5, 6, 7, 8, 9, 10, 11, 12, lr]

/-- `software_interrupt_asm` up to the call of `handle_swi`. -/
def softwareInterruptAsmEntry : List Inst :=
  [.push swiSavedRegs, .ldr 0 lr (-4), .andImm 0 0 0xff, .mov 1 lr, .mov 2 sp]

/-- `software_interrupt_asm` after the call. -/
def softwareInterruptAsmExit : List Inst := [.pop swiSavedRegs, .movsPc lr]

/-- What the handler runs on, with the argument registers set. -/
def atHandleSwi (c : Core) : Core := c.swi.run softwareInterruptAsmEntry

/-- The outcome of `handle_swi` on the arguments in the registers. -/
def handleSwiOn (runAdvanced : Bool) (i : BitVec 32) (c : Core) : Except Panic Mem :=
  handleSwi runAdvanced c.cpsr i c.mem ((c.get 0).setWidth 8) (c.get 1) (c.get 2)

/-- A completed call of the compiled handler: it keeps what a function keeps, and on the stack of
its caller it stores what `handle_swi` does. -/
structure HandleSwiCall (runAdvanced : Bool) (i : BitVec 32) (c c' : Core) : Prop where
  /-- The calling convention. -/
  keeps : Keeps c c'
  /-- The saved registers. -/
  effect : ∃ m, handleSwiOn runAdvanced i c = .ok m ∧
    Mem.AgreeOn c'.mem m ⟨(c.get sp).toNat, 4 * swiSavedRegs.length⟩

/-- The program goes on behind the software interrupt, with 13 as its result. -/
structure Resumed (c c' : Core) : Prop where
  /-- The next instruction. -/
  pc_eq : c'.get pc = c.behindSwi
  /-- The result. -/
  result : c'.get 0 = 13
  /-- The other registers. -/
  regs : ∀ r : Reg, 1 ≤ r → r ≤ 12 → c'.get r = c.get r
  /-- The status register. -/
  cpsr_eq : c'.cpsr = c.cpsr
  /-- The stack pointer of supervisor mode. -/
  sp_eq : c'.file svc sp = c.file svc sp

/-- The handler returns, and then the program is resumed. -/
def SwiReturns (runAdvanced : Bool) (i : BitVec 32) (c : Core) : Prop :=
  (∃ m, handleSwiOn runAdvanced i (atHandleSwi c) = .ok m) ∧
    ∀ c', HandleSwiCall runAdvanced i (atHandleSwi c) c' →
      Resumed c (c'.run softwareInterruptAsmExit)

/-- The saved registers and the frame of the handler, which has its variable `i`, lie in the
64 KB below `SWI_STACK_ADDR`. -/
structure OnSyscallStack (runAdvanced : Bool) (i : BitVec 32) (frame : Region) (c : Core) : Prop where
  /-- The stack starts at or below `SWI_STACK_ADDR`. -/
  sp_le : (c.file svc sp).toNat ≤ (swiStackAddr runAdvanced).toNat
  /-- The frame lies below the saved registers. -/
  frame_le : frame.base + frame.size + 4 * swiSavedRegs.length ≤ (c.file svc sp).toNat
  /-- The frame lies in the 64 KB. -/
  frame_ge : (swiStackAddr runAdvanced).toNat ≤ frame.base + 0x10000
  /-- The variable lies in the frame. -/
  i_within : (Mem.wordAt i).Within frame

variable {runAdvanced : Bool} {i : BitVec 32} {frame : Region} {c c' : Core}

/-- When the handler is called, only the three argument registers differ from what `push` left. -/
theorem file_atHandleSwi {b : BitVec 5} {r : Reg} (h : b = usr → r ≠ 0 ∧ r ≠ 1 ∧ r ≠ 2) :
    (atHandleSwi c).file b r = (Inst.exec c.swi (.push swiSavedRegs)).file b r := by
  have hskip {c₀ : Core} {r₀ : Reg} {v : BitVec 32} (hlt : r₀ < 8) (hne : b = usr → r ≠ r₀) :
      (c₀.set r₀ v).file b r = c₀.file b r := by
    rw [Core.set_file, bank_of_lt hlt, if_neg fun hand => hne hand.1 hand.2]
  simp only [atHandleSwi, Core.run, softwareInterruptAsmEntry, List.foldl_cons, List.foldl_nil]
  rw [Inst.exec, hskip (by decide) fun hb => (h hb).2.2, Inst.exec,
    hskip (by decide) fun hb => (h hb).2.1, Inst.exec, hskip (by decide) fun hb => (h hb).1,
    Inst.exec, hskip (by decide) fun hb => (h hb).1]

/-- What the core holds when the handler is called. -/
theorem atHandleSwi_spec (c : Core) : (atHandleSwi c).mode = svc ∧
    (atHandleSwi c).spsr svc = c.cpsr ∧
    (atHandleSwi c).mem = (Inst.exec c.swi (.push swiSavedRegs)).mem ∧
    (atHandleSwi c).get sp = c.file svc sp - bytes swiSavedRegs ∧
    (atHandleSwi c).get 2 = (atHandleSwi c).get sp := by
  have hmode : (atHandleSwi c).mode = svc := c.swi_mode
  have hbank : bank svc sp = svc := by decide
  have hsp : c.swi.get sp = c.file svc sp := by
    rw [Core.get, c.swi_mode, hbank, Core.swi_file, if_neg (by decide)]
  refine ⟨hmode, c.swi_spsr, rfl, ?_, ?_⟩
  · have hpush : bank c.swi.mode sp = svc := by rw [c.swi_mode, hbank]
    rw [Core.get, hmode, hbank, file_atHandleSwi fun h => absurd h (by decide), Inst.exec,
      Core.set_file, hsp]
    exact if_pos ⟨hpush.symm, rfl⟩
  · simp only [atHandleSwi, Core.run, softwareInterruptAsmEntry, List.foldl_cons, List.foldl_nil]
    rw [Inst.exec, Core.get_set_same, Core.get_set_of_ne _ _ (by decide)]

/-- On the stack, the saved registers and the frame fit. -/
theorem OnSyscallStack.toNat_saved (h : OnSyscallStack runAdvanced i frame c) :
    (c.file svc sp - bytes swiSavedRegs).toNat + 56 = (c.file svc sp).toNat := by
  have hframe := h.frame_le
  have hbytes : (bytes swiSavedRegs).toNat = 56 := by decide
  have hlen : swiSavedRegs.length = 14 := rfl
  rw [BitVec.toNat_sub_of_le (by rw [BitVec.le_def]; omega), hbytes]
  omega

/-- The registers that the handler finds in its saved frame, by their place. -/
theorem load32_saved (h : OnSyscallStack runAdvanced i frame c) {r : Reg} {j : ℕ}
    (hr : swiSavedRegs[j]? = some r) :
    (atHandleSwi c).mem.load32 ((atHandleSwi c).get sp + BitVec.ofNat 32 (4 * j)) =
      c.swi.get r := by
  obtain ⟨_, _, hmem, hsp, _⟩ := atHandleSwi_spec c
  have hsaved := h.toNat_saved
  have hlt := (c.file svc sp).isLt
  have hlen : swiSavedRegs.length = 14 := rfl
  have hget : c.swi.get sp = c.file svc sp := by
    rw [Core.get, c.swi_mode, show bank svc sp = svc by decide, Core.swi_file, if_neg (by decide)]
  rw [hmem, hsp, ← hget]
  exact load32_push hr (by rw [hget]; omega)

/-- The handler finds its frame in bounds exactly in the layout without `RUN_ADVANCED`. -/
theorem handleSwiOn_returns_iff (h : OnSyscallStack runAdvanced i frame c) :
    (∃ m, handleSwiOn runAdvanced i (atHandleSwi c) = .ok m) ↔ runAdvanced = false := by
  have hmode : cpsrReadC (atHandleSwi c).cpsr = superMode := by
    have hsvc : modeBits (atHandleSwi c).cpsr = svc := (atHandleSwi_spec c).1
    rw [cpsrReadC_eq, hsvc]
    rfl
  obtain ⟨hlo, hhi⟩ := h.i_within
  have hframe := h.frame_le
  have hge := h.frame_ge
  have htop := h.sp_le
  have hword : (Mem.wordAt i).base = i.toNat ∧ (Mem.wordAt i).size = 4 := ⟨rfl, rfl⟩
  have hlen : swiSavedRegs.length = 14 := rfl
  rw [hword.1] at hlo hhi
  rw [hword.2] at hhi
  simp only [handleSwiOn, handleSwi_eq_ok, hmode, true_and]
  cases runAdvanced with
  | false =>
    have hswi : (swiStackAddr false).toNat = 0x200000 := rfl
    have hsys : (sysStackAddr false).toNat = 0x100000 := rfl
    refine iff_of_true ⟨_, ?_, ?_, rfl⟩ rfl
    · rw [BitVec.lt_def]
      omega
    · rw [BitVec.lt_def]
      omega
  | true =>
    have hswi : (swiStackAddr true).toNat = 0x120000 := rfl
    have hsys : (sysStackAddr true).toNat = 0x400000 := rfl
    refine iff_of_false ?_ (by decide)
    rintro ⟨_, hlt, hgt, _⟩
    rw [BitVec.lt_def] at hlt hgt
    omega

/-- After the call, each saved register is loaded from its place, but for the first: there lies
the result. -/
theorem HandleSwiCall.load32 (h : OnSyscallStack runAdvanced i frame c)
    (hcall : HandleSwiCall runAdvanced i (atHandleSwi c) c') {r : Reg} {j : ℕ}
    (hr : swiSavedRegs[j]? = some r) :
    c'.mem.load32 (c'.get sp + BitVec.ofNat 32 (4 * j)) = if j = 0 then 13 else c.swi.get r := by
  obtain ⟨m, hok, hagree⟩ := hcall.effect
  obtain ⟨_, _, _, hsp, hsaved⟩ := atHandleSwi_spec c
  obtain ⟨_, _, _, rfl⟩ := handleSwi_eq_ok.mp hok
  have hkeep : c'.get sp = (atHandleSwi c).get sp := hcall.keeps.regs sp (Or.inr rfl)
  have hj : j < 14 := (List.getElem?_eq_some_iff.mp hr).1
  have hsum := h.toNat_saved
  have hlt := (c.file svc sp).isLt
  rw [← hsp] at hsum
  have hlen : swiSavedRegs.length = 14 := rfl
  have haddr : ((atHandleSwi c).get sp + BitVec.ofNat 32 (4 * j)).toNat =
      ((atHandleSwi c).get sp).toNat + 4 * j := by
    rw [BitVec.toNat_add, BitVec.toNat_ofNat]
    omega
  have hread := load32_saved h hr
  rw [hkeep]
  generalize (atHandleSwi c).get sp = b at *
  generalize ha : b + BitVec.ofNat 32 (4 * j) = a at *
  have hload : c'.mem.load32 a = ((atHandleSwi c).mem.store32 b 13).load32 a := by
    refine Mem.load32_congr (by omega) (hsaved ▸ hagree.mono ?_)
    simp only [Region.Within, Mem.wordAt]
    omega
  rw [hload]
  by_cases hzero : j = 0
  · have hsame : a = b := by
      rw [← ha, hzero]
      exact BitVec.add_zero b
    rw [if_pos hzero, hsame, Mem.load32_store32_same]
  · have hdisjoint : (Mem.wordAt b).Disjoint (Mem.wordAt a) := by
      simp only [Region.Disjoint, Mem.wordAt]
      omega
    rw [if_neg hzero, Mem.load32_store32_of_disjoint (by omega) (by omega) hdisjoint, hread]

/-- The place of a low register among those saved. -/
theorem swiSavedRegs_getElem? (r : Reg) (h : r ≤ 12) : swiSavedRegs[(r : ℕ)]? = some r := by
  revert r
  decide

/-- After a completed call of the handler the program is resumed. -/
theorem HandleSwiCall.resumed (h : OnSyscallStack runAdvanced i frame c)
    (hcall : HandleSwiCall runAdvanced i (atHandleSwi c) c') :
    Resumed c (c'.run softwareInterruptAsmExit) := by
  obtain ⟨hmode, hspsr, _, hsp, _⟩ := atHandleSwi_spec c
  have hmode' : c'.mode = svc := hcall.keeps.mode.trans hmode
  have hkeep : c'.get sp = (atHandleSwi c).get sp := hcall.keeps.regs sp (Or.inr rfl)
  -- what `pop` leaves in supervisor mode
  let p := Inst.exec c' (.pop swiSavedRegs)
  have hpop {r : Reg} {j : ℕ} (hr : swiSavedRegs[j]? = some r) :
      p.get r = if j = 0 then 13 else c.swi.get r :=
    (get_pop (by decide) (by decide) hr).trans (hcall.load32 h hr)
  obtain ⟨hpmode, hpspsr⟩ := status_pop c' swiSavedRegs
  have hp : p.mode = svc := hpmode.trans hmode'
  obtain ⟨hcpsr, hpc, hfile⟩ := movsPc_spec p lr
  have hq : c'.run softwareInterruptAsmExit = Inst.exec p (.movsPc lr) := rfl
  have hcpsr' : (Inst.exec p (.movsPc lr)).cpsr = c.cpsr := by
    rw [hcpsr, hp, hpspsr, hcall.keeps.spsr, hspsr]
  have hqmode : (Inst.exec p (.movsPc lr)).mode = c.mode := congrArg modeBits hcpsr'
  rw [hq]
  refine ⟨?_, ?_, fun r hlo hhi => ?_, hcpsr', ?_⟩
  · have hlr : swiSavedRegs[13]? = some lr := rfl
    rw [hpc, hpop hlr, if_neg (by decide), Core.get, c.swi_mode, Core.swi_file,
      if_pos ⟨by decide, rfl⟩]
  · have hzero := hpop (swiSavedRegs_getElem? 0 (by decide))
    rw [Core.get, bank_of_lt (by decide)] at hzero
    rw [Core.get, bank_of_lt (by decide), hfile _ _ (by decide), hzero]
    rfl
  · have hne : r ≠ pc ∧ r ≠ lr ∧ r ≠ sp ∧ r ≠ 0 ∧ (r : ℕ) ≠ 0 := by
      revert r
      decide
    obtain ⟨hnpc, hnlr, hnsp, hn0, hj⟩ := hne
    rw [Core.get, hqmode, hfile _ _ hnpc, Core.get]
    by_cases hb : bank c.mode r = bank svc r
    · have hload := hpop (swiSavedRegs_getElem? r hhi)
      rw [Core.get, hp, if_neg hj, Core.get, c.swi_mode, Core.swi_file,
        if_neg fun hand => hnlr hand.2] at hload
      rw [hb, hload]
    · -- the program has a register of its own, which nobody has touched
      have husr : bank c.mode r ≠ usr := by
        have hcommon : ∀ r : Reg, r ≤ 12 → bank svc r = usr := by decide
        rwa [hcommon r hhi] at hb
      rw [file_pop fun h => absurd (hmode' ▸ h) hb, hcall.keeps.banks _ _ (by rwa [hmode]),
        file_atHandleSwi fun h => absurd h husr, file_push fun _ => hnsp, Core.swi_file,
        if_neg fun hand => hnlr hand.2]
  · have hpsp := file_pop_sp c' swiSavedRegs
    rw [hmode', show bank svc sp = svc by decide, hkeep, hsp, BitVec.sub_add_cancel] at hpsp
    rw [hfile _ _ (by decide), hpsp]

/-- There is a completed call whenever the handler returns. -/
theorem exists_handleSwiCall {c : Core} {m : Mem} (h : handleSwiOn runAdvanced i c = .ok m) :
    HandleSwiCall runAdvanced i c { c with mem := m } :=
  ⟨⟨fun _ _ => rfl, fun _ _ _ => rfl, rfl, rfl⟩, m, h, Mem.AgreeOn.refl _ _⟩

/-- For each layout, every register contents, every supervisor stack pointer that leaves room on
the syscall stack, and every system call: the call returns to the program exactly without
`RUN_ADVANCED`. -/
theorem swiReturns_iff (h : OnSyscallStack runAdvanced i frame c) :
    SwiReturns runAdvanced i c ↔ runAdvanced = false := by
  rw [SwiReturns, handleSwiOn_returns_iff h]
  exact and_iff_left fun c' hcall => hcall.resumed h

/-- A program in system mode, with the supervisor stack at its top. -/
def userCore (runAdvanced : Bool) : Core where
  file b r := if b = svc ∧ r = sp then swiStackAddr runAdvanced else 0
  cpsr := 0b11111
  spsr _ := 0
  cp _ := 0
  mem _ := 0

/-- The frame of the handler right below the saved registers. -/
theorem userCore_onSyscallStack (runAdvanced : Bool) :
    OnSyscallStack runAdvanced (swiStackAddr runAdvanced - 64)
      ⟨(swiStackAddr runAdvanced).toNat - 64, 4⟩ (userCore runAdvanced) := by
  cases runAdvanced with
  | false => exact ⟨by decide, by decide, by decide, by decide, by decide⟩
  | true => exact ⟨by decide, by decide, by decide, by decide, by decide⟩

/-- The equivalence in the layout without `RUN_ADVANCED`. -/
theorem swiReturns_iff_basic : SwiReturns false (swiStackAddr false - 64) (userCore false) ↔
    false = false :=
  swiReturns_iff (userCore_onSyscallStack false)

/-- In the committed layout the assertion on the lower end of the stack fails. -/
theorem swi_fails_advanced : OnSyscallStack true (swiStackAddr true - 64)
      ⟨(swiStackAddr true).toNat - 64, 4⟩ (userCore true) ∧
    ¬ SwiReturns true (swiStackAddr true - 64) (userCore true) := by
  refine ⟨userCore_onSyscallStack true, ?_⟩
  rintro ⟨hreturns, _⟩
  have hfalse := (handleSwiOn_returns_iff (userCore_onSyscallStack true)).mp hreturns
  exact absurd hfalse (by decide)

end RpiVm
