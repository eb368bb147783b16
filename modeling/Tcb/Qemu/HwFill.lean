import Mathlib.Data.Int.Notation
import Mathlib.Data.Nat.Notation
import Tcb.Core.LastWrite

/-!
# The refill of the TLB

The patched emulator goes through the page table itself when the TLB has no
entry for an address.  The base of the table is in a control register of each
MMU.  The kernel clears these when it turns the MMUs on, which leaves the
misses to software, and sets both when it has its page tables and at each
change of the address space.
-/

namespace Tcb.HwFill

/-- `target_ulong`. -/
abbrev TargetUlong := BitVec 32

abbrev Byte := BitVec 8

/-- What the headers of the emulator define. -/
structure Target where
  TARGET_PAGE_BITS : ℕ
  ITLB_SIZE : ℕ
  DTLB_SIZE : ℕ
  UWE : TargetUlong
  SRE : TargetUlong
  SWE : TargetUlong
  SXE : TargetUlong
  UXE : TargetUlong
  EXCP_ITLBMISS : ℤ
  EXCP_DTLBMISS : ℤ
  EXCP_IPF : ℤ
  EXCP_DPF : ℤ

structure TLBEntry where
  mr : TargetUlong
  tr : TargetUlong
  deriving DecidableEq

/-- The only way of each TLB. -/
structure TLBContext where
  immucr : TargetUlong
  dmmucr : TargetUlong
  itlb : ℕ → TLBEntry
  dtlb : ℕ → TLBEntry

structure Env where
  tlb : TLBContext
  exception_index : ℤ
  eear : TargetUlong

def TLB_CI : TargetUlong := (1 : TargetUlong) <<< 1
def TLB_WOM : TargetUlong := (1 : TargetUlong) <<< 3
def TLB_A : TargetUlong := (1 : TargetUlong) <<< 4
def TLB_D : TargetUlong := (1 : TargetUlong) <<< 5
def URE : TargetUlong := (1 : TargetUlong) <<< 6
def PTE_PRESENT : TargetUlong := (1 : TargetUlong) <<< 0
def PTE_EXEC : TargetUlong := (1 : TargetUlong) <<< 10
def TLBMR_VALID : TargetUlong := 0x1
def ITLB_CONV_MASK : TargetUlong := TLB_D ||| TLB_A ||| TLB_WOM ||| TLB_CI

section Fill

variable (target : Target) (memory : ℕ → Byte)

def TARGET_PAGE_MASK : TargetUlong := ~~~ (((1 : TargetUlong) <<< target.TARGET_PAGE_BITS) - 1)

/-- The number of ptes in the pte table. -/
def PTE_CNT : TargetUlong := (1 : TargetUlong) <<< (target.TARGET_PAGE_BITS - 2)

def PTE_WRITE : TargetUlong := target.UWE ||| target.SWE
def PTE_READ : TargetUlong := URE ||| target.SRE

def DTLB_CONV_MASK : TargetUlong :=
  target.SWE ||| target.SRE ||| target.UWE ||| URE ||| ITLB_CONV_MASK

/-- Four bytes of the physical memory, on a host that has the lowest first. -/
def cpuPhysicalMemoryRead (address : TargetUlong) : TargetUlong :=
  memory (address.toNat + 3) ++ memory (address.toNat + 2) ++ memory (address.toNat + 1) ++
    memory address.toNat

def cpuOpenriscReadl (address : TargetUlong) : TargetUlong :=
  let data := cpuPhysicalMemoryRead memory address
  ((data &&& 0x000000ff) <<< 24) ||| ((data &&& 0x0000ff00) <<< 8) |||
    ((data &&& 0x00ff0000) >>> 8) ||| ((data &&& 0xff000000) >>> 24)

/-- What the two refills share: the register with the base, the entries and
their number, the two exceptions and the translate register for a pte. -/
def hwFill (mucr : TargetUlong) (size : ℕ) (miss pageFault : ℤ)
    (translated : TargetUlong → TargetUlong) (entries : ℕ → TLBEntry) (address : TargetUlong) :
    ℤ × (ℕ → TLBEntry) :=
  let vpn := address >>> target.TARGET_PAGE_BITS
  let idx := vpn &&& (BitVec.ofNat 32 size - 1)
  let pgd_offset := (address >>> 24) <<< 2
  let pte_offset := (vpn &&& (PTE_CNT target - 1)) <<< 2
  if mucr = 0 then (miss, entries)
  else
    let pte_pointer := cpuOpenriscReadl memory (mucr + pgd_offset)
    if pte_pointer = 0 then (pageFault, entries)
    else
      let pte :=
        cpuOpenriscReadl memory ((pte_pointer &&& TARGET_PAGE_MASK target) + pte_offset)
      if pte &&& PTE_PRESENT = 0 then (pageFault, entries)
      else
        (0, LastWrite.write entries
          (idx.toNat, ⟨(address &&& TARGET_PAGE_MASK target) ||| TLBMR_VALID, translated pte⟩))

def itlbTr (pte : TargetUlong) : TargetUlong :=
  let tr := pte &&& (TARGET_PAGE_MASK target ||| ITLB_CONV_MASK)
  if pte &&& (PTE_EXEC ||| PTE_READ target ||| PTE_WRITE target) = 0 then tr
  else tr ||| (target.UXE ||| target.SXE)

def dtlbTr (pte : TargetUlong) : TargetUlong :=
  pte &&& (TARGET_PAGE_MASK target ||| DTLB_CONV_MASK target)

def cpuOpenriscHwItlbFill (tlb : TLBContext) (address : TargetUlong) : ℤ × TLBContext :=
  let (exception, itlb) :=
    hwFill target memory tlb.immucr target.ITLB_SIZE target.EXCP_ITLBMISS target.EXCP_IPF
      (itlbTr target) tlb.itlb address
  (exception, { tlb with itlb })

def cpuOpenriscHwDtlbFill (tlb : TLBContext) (address : TargetUlong) : ℤ × TLBContext :=
  let (exception, dtlb) :=
    hwFill target memory tlb.dmmucr target.DTLB_SIZE target.EXCP_DTLBMISS target.EXCP_DPF
      (dtlbTr target) tlb.dtlb address
  (exception, { tlb with dtlb })

/-- `cpu_openrisc_raise_mmu_exception(cpu, address, rw, TLBRET_NOMATCH)`, with
its answer. -/
def cpuOpenriscRaiseMmuException (env : Env) (address : TargetUlong) (rw : ℤ) : ℤ × Env :=
  let (exception, tlb) :=
    if rw = 2 then cpuOpenriscHwItlbFill target memory env.tlb address
    else cpuOpenriscHwDtlbFill target memory env.tlb address
  if exception = 0 then (0, { env with tlb })
  else (1, { tlb, exception_index := exception, eear := address })

end Fill

/-! ## The control registers -/

/-- The registers that the patch adds to `mtspr`. -/
inductive ControlRegister
  | DMMUCR
  | IMMUCR

def mtspr (env : Env) (spr : ControlRegister) (rb : TargetUlong) : Env :=
  match spr with
  | .DMMUCR => { env with tlb := { env.tlb with dmmucr := rb } }
  | .IMMUCR => { env with tlb := { env.tlb with immucr := rb } }

/-- The number of a register in its group. -/
def TO_SPR (group number : ℕ) : ℕ := (group <<< 11) + number

/-- The registers of `mfspr` that the patch adds, and the match registers.
There is nothing to say of a match register beyond the TLB. -/
def mfspr (target : Target) (env : Env) (spr : ℕ) : Option TargetUlong :=
  if spr = TO_SPR 1 0 then some env.tlb.dmmucr
  else if TO_SPR 1 512 ≤ spr ∧ spr ≤ TO_SPR 1 639 then
    let idx := spr - TO_SPR 1 512
    if idx < target.DTLB_SIZE then some (env.tlb.dtlb idx).mr else none
  else if spr = TO_SPR 2 0 then some env.tlb.immucr
  else if TO_SPR 2 512 ≤ spr ∧ spr ≤ TO_SPR 2 639 then
    let idx := spr - TO_SPR 2 512
    if idx < target.ITLB_SIZE then some (env.tlb.itlb idx).mr else none
  else none

def SPR_DMMUCR_PTBP : TargetUlong := 0xfffffc00
def SPR_IMMUCR_PTBP : TargetUlong := 0xfffffc00

/-- What the kernel does before it turns the MMUs on. -/
def enableMmu (env : Env) : Env := mtspr (mtspr env .DMMUCR 0) .IMMUCR 0

/-- What `paging_init` and `switch_mm` do, with the physical address of
`current_pgd`. -/
def setPageTable (env : Env) (pgd : TargetUlong) : Env :=
  mtspr (mtspr env .IMMUCR (pgd &&& SPR_IMMUCR_PTBP)) .DMMUCR (pgd &&& SPR_DMMUCR_PTBP)

/-- The match register of a set is cleared. -/
def clearMatch (entries : ℕ → TLBEntry) (set : ℕ) : ℕ → TLBEntry :=
  Function.update entries set { entries set with mr := 0 }

/-- What the kernel does to take an entry out of a TLB. -/
def flush (env : Env) (insn : Bool) (set : ℕ) : Env :=
  if insn then { env with tlb.itlb := clearMatch env.tlb.itlb set }
  else { env with tlb.dtlb := clearMatch env.tlb.dtlb set }

/-! ## Runs -/

/-- What happens to the machine: the kernel changes the page tables or their
base, or takes an entry out of a TLB, or there is none for an address. -/
inductive Event
  | store (address : ℕ) (byte : Byte)
  | enable_mmu
  | switch_mm (pgd : TargetUlong)
  | flush (insn : Bool) (set : ℕ)
  | miss (address : TargetUlong) (rw : ℤ)

structure Machine where
  memory : ℕ → Byte
  env : Env

section Run

variable (target : Target)

def step (machine : Machine) : Event → Machine
  | .store address byte =>
      { machine with memory := Function.update machine.memory address byte }
  | .enable_mmu => { machine with env := enableMmu machine.env }
  | .switch_mm pgd => { machine with env := setPageTable machine.env pgd }
  | .flush insn set => { machine with env := HwFill.flush machine.env insn set }
  | .miss address rw =>
      { machine with
        env := (cpuOpenriscRaiseMmuException target machine.memory machine.env address rw).2 }

def run (machine : Machine) (events : List Event) : Machine := events.foldl (step target) machine

end Run

end Tcb.HwFill
