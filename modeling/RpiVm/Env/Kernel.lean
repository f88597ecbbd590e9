import RpiVm.Env.Bvec
import RpiVm.Env.Cp15

/-!
# Environments

An environment is an address space: a page table with a process id, an ASID
and a domain. The functions of `driver.c` that make, free and enter one.
-/

namespace RpiVm

open CLib

/-- `env_t`. -/
structure Env where
  /-- `pid`. -/
  pid : BitVec 32
  /-- `domain`. -/
  domain : BitVec 32
  /-- `asid`. -/
  asid : BitVec 32
  /-- `domain_reg`. -/
  domainReg : BitVec 32
  /-- `pt`. -/
  pt : BitVec 32
  deriving DecidableEq, Repr

/-- The machine with the static variables of `driver.c`. A pointer to an
environment is its index in `envs`; indices from `MAX_ENV` on are outside the
array. -/
structure Kernel where
  /-- Memory and the allocator. -/
  st : State
  /-- The coprocessor. -/
  cp15 : Cp15
  /-- `dom_v`. -/
  domV : Bvec
  /-- `asid_v`. -/
  asidV : Bvec
  /-- `env_v`. -/
  envV : Bvec
  /-- `pid_cnt`. -/
  pidCnt : BitVec 32
  /-- `envs`. -/
  envs : BitVec 32 → Env
  /-- `curr_env`. -/
  currEnv : Option (BitVec 32)

/-- The walk of a virtual address in the current table. -/
def Kernel.translate (k : Kernel) (va : BitVec 32) : Option Translation :=
  walk k.st.mem k.cp15.tableBase va

/-- `MAX_ENV`. -/
def maxEnv : BitVec 32 := 8

/-- The indices of the array of environments. -/
theorem lt_maxEnv {e : BitVec 32} : e < maxEnv ↔ e.toNat < 8 := by
  rw [BitVec.lt_def]
  rfl

/-- `env_init`. -/
def envInit (k : Kernel) : Except Panic Kernel := do
  let (domV, s) ← bvecMk k.st 1 16
  let (asidV, s) ← bvecMk s 1 64
  let (envV, s) ← bvecMk s 0 maxEnv
  pure { k with st := s, domV := domV, asidV := asidV, envV := envV }

/-- `env_alloc`. -/
def envAlloc (k : Kernel) : Except Panic (BitVec 32 × Kernel) := do
  let (e, envV) ← bvecAlloc k.st k.envV
  let (pt, s) ← mmuPtAlloc k.st 4096
  let pid := k.pidCnt + 1
  let (domain, domV) ← bvecAlloc s k.domV
  let (asid, asidV) ← bvecAlloc s k.asidV
  let domainReg := 0b01#32 <<< (domain * 2)
  pure (e, { k with
    st := s
    domV := domV
    asidV := asidV
    envV := envV
    pidCnt := pid
    envs := Function.update k.envs e ⟨pid, domain, asid, domainReg, pt⟩ })

/-- `env_free`. -/
def envFree (k : Kernel) (e : BitVec 32) : Except Panic Kernel := do
  demand (e < maxEnv) "n < MAX_ENV" "freeing unallocated pointer!"
  let (domV, s) ← bvecFree k.st k.domV (k.envs e).domain
  let (asidV, s) ← bvecFree s k.asidV (k.envs e).asid
  let (envV, s) ← bvecFree s k.envV e
  pure { k with st := s, domV := domV, asidV := asidV, envV := envV }

/-- `env_switch_to`. -/
def envSwitchTo (k : Kernel) (e : BitVec 32) : Except Panic Kernel := do
  let env := k.envs e
  let h := cp15DomainCtrlWr k.cp15 env.domainReg
  let h := cp15SetProcidTtbr0 h (env.pid <<< 8 ||| env.asid) env.pt
  let (pid, asid) := mmuGetCurpid h
  assert (pid == env.pid) "pid == e->pid"
  assert (asid == env.asid) "asid == e->asid"
  let h ← mmuEnable h
  pure { k with cp15 := h, currEnv := some e }

end RpiVm
