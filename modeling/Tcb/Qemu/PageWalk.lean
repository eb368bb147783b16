import Mathlib.Tactic
import Tcb.Core.Masks
import Tcb.Qemu.HwFill

/-!
# The page walk

What a refill does, in plain arithmetic, and what a run leaves in the two TLBs.
A run is told by the walks that were made in it and the entries that were taken
out: a slot holds the page of the last walk that filled it, if it was not
cleared since.
-/

namespace Tcb.HwFill

/-! ## The page walk -/

/-- The word at an address, with the highest byte first. -/
def word (memory : ℕ → Byte) (address : ℕ) : TargetUlong :=
  memory address ++ memory (address + 1) ++ memory (address + 2) ++ memory (address + 3)

/-- Why there is no translation. -/
inductive Refusal
  | disabled
  | absent
  deriving DecidableEq, Repr

/-- The entry of a page.  There are 256 tables of 2048 entries each, and no
walk from base 0. -/
def walk (memory : ℕ → Byte) (base page : ℕ) : Except Refusal TargetUlong :=
  if base = 0 then .error .disabled
  else
    let table := word memory (base + 4 * (page / 2048))
    if table = 0 then .error .absent
    else
      let pte := word memory (table.toNat / 8192 * 8192 + 4 * (page % 2048))
      if pte.getLsbD 0 then .ok pte else .error .absent

/-- What the walks depend on. -/
structure Space where
  memory : ℕ → Byte
  base : ℕ

def Space.step (space : Space) : Event → Space
  | .store address byte => { space with memory := Function.update space.memory address byte }
  | .enable_mmu => { space with base := 0 }
  | .switch_mm pgd => { space with base := pgd.toNat / 1024 * 1024 }
  | .flush _ _ | .miss _ _ => space

/-- The page of an address. -/
def pageOf (address : TargetUlong) : ℕ := address.toNat / 8192

/-- A walk for the instruction or the data TLB, and what came of it. -/
structure Walk where
  insn : Bool
  address : TargetUlong
  result : Except Refusal TargetUlong

/-- What happens to the entries. -/
inductive Change
  | walk (made : Walk)
  | flush (insn : Bool) (set : ℕ)

def Space.changeOf (space : Space) : Event → List Change
  | .miss address rw =>
      [.walk ⟨decide (rw = 2), address, walk space.memory space.base (pageOf address)⟩]
  | .flush insn set => [.flush insn set]
  | _ => []

/-- The changes of a run. -/
def Space.changes (space : Space) : List Event → List Change
  | [] => []
  | event :: events => space.changeOf event ++ (space.step event).changes events

/-- The slot that a change concerns in one of the TLBs, with the page that it
gets and its entry, or nothing when it is cleared. -/
def Change.slot (insn : Bool) (size : ℕ) : Change → Option (ℕ × Option (ℕ × TargetUlong))
  | .walk made =>
      match made.result with
      | .ok pte =>
          if made.insn = insn then
            some (pageOf made.address % size, some (pageOf made.address, pte))
          else none
      | .error _ => none
  | .flush insn' set => if insn' = insn then some (set, none) else none

def slots (insn : Bool) (size : ℕ) (changes : List Change) :
    List (ℕ × Option (ℕ × TargetUlong)) :=
  changes.filterMap (Change.slot insn size)

/-- The exception that a change raises, with the address. -/
def Change.fault (target : Target) : Change → Option (ℤ × TargetUlong)
  | .walk made =>
      match made.result with
      | .ok _ => none
      | .error .disabled =>
          some (if made.insn then target.EXCP_ITLBMISS else target.EXCP_DTLBMISS, made.address)
      | .error .absent =>
          some (if made.insn then target.EXCP_IPF else target.EXCP_DPF, made.address)
  | .flush _ _ => none

def faults (target : Target) (changes : List Change) : List (ℤ × TargetUlong) :=
  changes.filterMap (Change.fault target)

/-! ## One refill -/

theorem cpuOpenriscReadl_eq (memory : ℕ → Byte) (address : TargetUlong) :
    cpuOpenriscReadl memory address = word memory address.toNat := by
  apply BitVec.eq_of_getLsbD_eq
  intro bit hbit
  simp only [cpuOpenriscReadl, cpuPhysicalMemoryRead, word, BitVec.getLsbD_append,
    BitVec.getLsbD_or, BitVec.getLsbD_and, BitVec.getLsbD_shiftLeft, BitVec.getLsbD_ushiftRight]
  interval_cases bit <;> simp

/-- The documented values: pages of 8 KiB, sizes that are powers of two, and
exceptions that are not zero. -/
structure Documented (target : Target) (itlbBits dtlbBits : ℕ) : Prop where
  pageBits : target.TARGET_PAGE_BITS = 13
  itlbSize : target.ITLB_SIZE = 2 ^ itlbBits ∧ itlbBits < 32
  dtlbSize : target.DTLB_SIZE = 2 ^ dtlbBits ∧ dtlbBits < 32
  executable : (target.UXE ||| target.SXE).toNat < 2 ^ 13
  exceptions : target.EXCP_ITLBMISS ≠ 0 ∧ target.EXCP_DTLBMISS ≠ 0 ∧ target.EXCP_IPF ≠ 0 ∧
    target.EXCP_DPF ≠ 0

section Fill

variable {target : Target} {memory : ℕ → Byte}

theorem toNat_vpn (hpage : target.TARGET_PAGE_BITS = 13) (address : TargetUlong) :
    (address >>> target.TARGET_PAGE_BITS).toNat = pageOf address := by
  rw [hpage, BitVec.toNat_ushiftRight, Nat.shiftRight_eq_div_pow, pageOf]

theorem toNat_pgdEntry {base address : TargetUlong} (hbase : 1024 ∣ base.toNat) :
    (base + (address >>> 24) <<< 2).toNat = base.toNat + 4 * (pageOf address / 2048) := by
  have haddress : address.toNat < 2 ^ 32 := address.isLt
  have hlt : base.toNat < 2 ^ 32 := base.isLt
  have hindex : pageOf address / 2048 = address.toNat / 2 ^ 24 := by
    rw [pageOf, Nat.div_div_eq_div_mul]
    rfl
  have hoffset : ((address >>> 24) <<< 2).toNat = 4 * (address.toNat / 2 ^ 24) := by
    rw [BitVec.toNat_shiftLeft, BitVec.toNat_ushiftRight, Nat.shiftLeft_eq,
      Nat.shiftRight_eq_div_pow]
    omega
  rw [BitVec.toNat_add, hoffset, hindex]
  omega

theorem toNat_pteEntry (hpage : target.TARGET_PAGE_BITS = 13) (table address : TargetUlong) :
    ((table &&& TARGET_PAGE_MASK target) +
        ((address >>> target.TARGET_PAGE_BITS) &&& (PTE_CNT target - 1)) <<< 2).toNat =
      table.toNat / 8192 * 8192 + 4 * (pageOf address % 2048) := by
  have htable : (table &&& TARGET_PAGE_MASK target).toNat = table.toNat / 8192 * 8192 := by
    rw [TARGET_PAGE_MASK, hpage]
    exact Masks.toNat_and_high table (by omega)
  have hindex : ((address >>> target.TARGET_PAGE_BITS) &&& (PTE_CNT target - 1)).toNat =
      pageOf address % 2048 := by
    rw [PTE_CNT, ← toNat_vpn hpage, hpage]
    exact Masks.toNat_and_low _ (by omega)
  have hlt : table.toNat < 2 ^ 32 := table.isLt
  rw [BitVec.toNat_add, BitVec.toNat_shiftLeft, htable, hindex, Nat.shiftLeft_eq]
  omega

theorem toNat_idx (hpage : target.TARGET_PAGE_BITS = 13) {size bits : ℕ} (hsize : size = 2 ^ bits)
    (hbits : bits < 32) (address : TargetUlong) :
    ((address >>> target.TARGET_PAGE_BITS) &&& (BitVec.ofNat 32 size - 1)).toNat =
      pageOf address % size := by
  have hmask : BitVec.ofNat 32 size = (1 : TargetUlong) <<< bits := by
    rw [hsize]
    apply BitVec.eq_of_toNat_eq
    rw [BitVec.toNat_ofNat, BitVec.toNat_shiftLeft, show (1 : TargetUlong).toNat = 1 from rfl,
      Nat.one_shiftLeft]
  rw [hmask, Masks.toNat_and_low _ hbits, toNat_vpn hpage, hsize]

theorem present_iff (pte : TargetUlong) : pte &&& PTE_PRESENT = 0 ↔ pte.getLsbD 0 = false := by
  have hone : PTE_PRESENT.toNat = 1 := rfl
  have hzero : (0 : TargetUlong).toNat = 0 := rfl
  rw [BitVec.toNat_eq, BitVec.toNat_and, hone, Nat.and_one_is_mod, BitVec.getLsbD,
    Nat.testBit_zero, decide_eq_false_iff_not, hzero]
  omega

/-- The entry for a page and its pte. -/
def entryOf (translated : TargetUlong → TargetUlong) (mapping : ℕ × TargetUlong) : TLBEntry :=
  ⟨BitVec.ofNat 32 (mapping.1 * 8192) ||| TLBMR_VALID, translated mapping.2⟩

theorem and_pageMask (hpage : target.TARGET_PAGE_BITS = 13) (address : TargetUlong) :
    address &&& TARGET_PAGE_MASK target = BitVec.ofNat 32 (pageOf address * 8192) := by
  have hlt : address.toNat < 2 ^ 32 := address.isLt
  apply BitVec.eq_of_toNat_eq
  rw [TARGET_PAGE_MASK, hpage, Masks.toNat_and_high address (by omega), BitVec.toNat_ofNat, pageOf]
  omega

/-- The refill does what the walk says. -/
theorem hwFill_eq (hpage : target.TARGET_PAGE_BITS = 13) {mucr : TargetUlong}
    (hbase : 1024 ∣ mucr.toNat) {size bits : ℕ} (hsize : size = 2 ^ bits) (hbits : bits < 32)
    (miss pageFault : ℤ) (translated : TargetUlong → TargetUlong) (entries : ℕ → TLBEntry)
    (address : TargetUlong) :
    hwFill target memory mucr size miss pageFault translated entries address =
      match walk memory mucr.toNat (pageOf address) with
      | .error .disabled => (miss, entries)
      | .error .absent => (pageFault, entries)
      | .ok pte =>
          (0, LastWrite.write entries (pageOf address % size,
            entryOf translated (pageOf address, pte))) := by
  have hzero : mucr = 0 ↔ mucr.toNat = 0 := BitVec.toNat_eq
  simp only [hwFill, walk, cpuOpenriscReadl_eq, toNat_pgdEntry hbase, toNat_pteEntry hpage,
    toNat_idx hpage hsize hbits, present_iff, hzero, and_pageMask hpage address]
  by_cases hdisabled : mucr.toNat = 0
  · simp only [hdisabled, if_true]
  · simp only [hdisabled, if_false]
    by_cases htable : word memory (mucr.toNat + 4 * (pageOf address / 2048)) = 0
    · simp only [htable, if_true]
    · simp only [htable, if_false]
      cases (word memory ((word memory (mucr.toNat + 4 * (pageOf address / 2048))).toNat / 8192 *
        8192 + 4 * (pageOf address % 2048))).getLsbD 0
      · rfl
      · rfl

end Fill

/-! ## What an entry says -/

/-- The entry is valid for the page and has its frame, and below that the bits
that are given. -/
structure Maps (entry : TLBEntry) (page : ℕ) (pte : TargetUlong) (flags : ℕ → Bool) : Prop where
  valid : entry.mr.getLsbD 0 = true
  page : entry.mr.toNat / 8192 = page
  frame : entry.tr.toNat / 8192 = pte.toNat / 8192
  flags : ∀ bit < 13, entry.tr.getLsbD bit = flags bit

section Entry

variable (target : Target)

/-- Linux keeps its permissions where the TLB has them. -/
def dtlbFlags (pte : TargetUlong) (bit : ℕ) : Bool :=
  pte.getLsbD bit && (DTLB_CONV_MASK target).getLsbD bit

/-- A page that may be read, written or executed may be executed. -/
def itlbFlags (pte : TargetUlong) (bit : ℕ) : Bool :=
  (pte.getLsbD bit && ITLB_CONV_MASK.getLsbD bit) ||
    (decide (pte &&& (PTE_EXEC ||| PTE_READ target ||| PTE_WRITE target) ≠ 0) &&
      (target.UXE ||| target.SXE).getLsbD bit)

variable {target}

theorem quotient_eq {left right : TargetUlong}
    (hbits : ∀ bit, 13 ≤ bit → left.getLsbD bit = right.getLsbD bit) :
    left.toNat / 8192 = right.toNat / 8192 := by
  have hshift : left >>> 13 = right >>> 13 := by
    apply BitVec.eq_of_getLsbD_eq
    intro bit _
    rw [BitVec.getLsbD_ushiftRight, BitVec.getLsbD_ushiftRight, hbits _ (by omega)]
  have hnat := congrArg BitVec.toNat hshift
  rwa [BitVec.toNat_ushiftRight, BitVec.toNat_ushiftRight, Nat.shiftRight_eq_div_pow,
    Nat.shiftRight_eq_div_pow] at hnat

theorem getLsbD_pageMask (hpage : target.TARGET_PAGE_BITS = 13) (bit : ℕ) :
    (TARGET_PAGE_MASK target).getLsbD bit = (decide (bit < 32) && decide (13 ≤ bit)) := by
  rw [TARGET_PAGE_MASK, hpage]
  exact Masks.getLsbD_high (by omega) bit

theorem getLsbD_kept (hpage : target.TARGET_PAGE_BITS = 13) (pte flags : TargetUlong) (bit : ℕ) :
    (pte &&& (TARGET_PAGE_MASK target ||| flags)).getLsbD bit =
      (pte.getLsbD bit && (decide (13 ≤ bit) || flags.getLsbD bit)) := by
  rw [BitVec.getLsbD_and, BitVec.getLsbD_or, getLsbD_pageMask hpage]
  by_cases hbit : bit < 32
  · simp [hbit]
  · simp [BitVec.getLsbD_of_ge pte bit (by omega)]

/-- The match register of a refill. -/
theorem matchRegister_maps {page : ℕ} (hpage : page < 2 ^ 19) :
    (BitVec.ofNat 32 (page * 8192) ||| TLBMR_VALID).getLsbD 0 = true ∧
      (BitVec.ofNat 32 (page * 8192) ||| TLBMR_VALID).toNat / 8192 = page := by
  constructor
  · rw [BitVec.getLsbD_or, show TLBMR_VALID.getLsbD 0 = true from rfl, Bool.or_true]
  · have hsame : (BitVec.ofNat 32 (page * 8192) ||| TLBMR_VALID).toNat / 8192 =
        (BitVec.ofNat 32 (page * 8192)).toNat / 8192 := by
      apply quotient_eq
      intro bit hbit
      have hvalid : TLBMR_VALID.getLsbD bit = false :=
        Nat.testBit_lt_two_pow (Nat.one_lt_two_pow (by omega))
      rw [BitVec.getLsbD_or, hvalid, Bool.or_false]
    rw [hsame, BitVec.toNat_ofNat]
    omega

theorem dtlbTr_maps (hbits : target.TARGET_PAGE_BITS = 13) {page : ℕ} (hpage : page < 2 ^ 19)
    (pte : TargetUlong) :
    Maps (entryOf (dtlbTr target) (page, pte)) page pte (dtlbFlags target pte) where
  valid := (matchRegister_maps hpage).1
  page := (matchRegister_maps hpage).2
  frame := by
    apply quotient_eq
    intro bit hbit
    rw [entryOf, dtlbTr, getLsbD_kept hbits, decide_eq_true hbit, Bool.true_or, Bool.and_true]
  flags bit hbit := by
    rw [entryOf, dtlbTr, getLsbD_kept hbits, decide_eq_false (by omega), Bool.false_or, dtlbFlags]

theorem getLsbD_itlbTr (hbits : target.TARGET_PAGE_BITS = 13) (pte : TargetUlong) (bit : ℕ) :
    (itlbTr target pte).getLsbD bit =
      ((pte.getLsbD bit && (decide (13 ≤ bit) || ITLB_CONV_MASK.getLsbD bit)) ||
        (decide (pte &&& (PTE_EXEC ||| PTE_READ target ||| PTE_WRITE target) ≠ 0) &&
          (target.UXE ||| target.SXE).getLsbD bit)) := by
  rw [itlbTr]
  by_cases hnone : pte &&& (PTE_EXEC ||| PTE_READ target ||| PTE_WRITE target) = 0
  · rw [if_pos hnone, getLsbD_kept hbits, decide_eq_false (not_not.mpr hnone), Bool.false_and,
      Bool.or_false]
  · rw [if_neg hnone, BitVec.getLsbD_or, getLsbD_kept hbits, decide_eq_true hnone, Bool.true_and]

theorem itlbTr_maps (hbits : target.TARGET_PAGE_BITS = 13)
    (hexecutable : (target.UXE ||| target.SXE).toNat < 2 ^ 13) {page : ℕ} (hpage : page < 2 ^ 19)
    (pte : TargetUlong) :
    Maps (entryOf (itlbTr target) (page, pte)) page pte (itlbFlags target pte) where
  valid := (matchRegister_maps hpage).1
  page := (matchRegister_maps hpage).2
  frame := by
    apply quotient_eq
    intro bit hfrom
    have hhigh : (target.UXE ||| target.SXE).getLsbD bit = false :=
      Nat.testBit_lt_two_pow (hexecutable.trans_le (Nat.pow_le_pow_right (by omega) hfrom))
    rw [entryOf, getLsbD_itlbTr hbits, hhigh, decide_eq_true hfrom, Bool.true_or, Bool.and_true,
      Bool.and_false, Bool.or_false]
  flags bit hlow := by
    rw [entryOf, getLsbD_itlbTr hbits, decide_eq_false (by omega), Bool.false_or, itlbFlags]

end Entry

/-! ## A run of refills -/

section Run

variable {target : Target} {itlbBits dtlbBits : ℕ}

/-- The walks start from the memory and the base that the machine has. -/
structure Based (machine : Machine) (space : Space) : Prop where
  memory : machine.memory = space.memory
  immucr : machine.env.tlb.immucr.toNat = space.base
  dmmucr : machine.env.tlb.dmmucr.toNat = space.base
  aligned : 1024 ∣ space.base

/-- A slot gets the entry of a page, or is cleared. -/
def put (translated : TargetUlong → TargetUlong) (entries : ℕ → TLBEntry) :
    ℕ × Option (ℕ × TargetUlong) → ℕ → TLBEntry
  | (set, some mapping) => LastWrite.write entries (set, entryOf translated mapping)
  | (set, none) => clearMatch entries set

/-- The exception state after the changes. -/
def lastFault (target : Target) (env : Env) (changes : List Change) : ℤ × TargetUlong :=
  (faults target changes).getLast?.getD (env.exception_index, env.eear)

/-- What a miss changes, and what it answers. -/
theorem raiseMmuException_eq (hdoc : Documented target itlbBits dtlbBits) {machine : Machine}
    {space : Space} (hbased : Based machine space) (address : TargetUlong) (rw : ℤ) :
    cpuOpenriscRaiseMmuException target machine.memory machine.env address rw =
      let result := walk space.memory space.base (pageOf address)
      let made := [Change.walk ⟨decide (rw = 2), address, result⟩]
      (if result.isOk then 0 else 1,
        { tlb :=
            { machine.env.tlb with
              itlb := (slots true target.ITLB_SIZE made).foldl (put (itlbTr target))
                machine.env.tlb.itlb
              dtlb := (slots false target.DTLB_SIZE made).foldl (put (dtlbTr target))
                machine.env.tlb.dtlb }
          exception_index := (lastFault target machine.env made).1
          eear := (lastFault target machine.env made).2 }) := by
  obtain ⟨hitlbMiss, hdtlbMiss, hipf, hdpf⟩ := hdoc.exceptions
  have hiBase : 1024 ∣ machine.env.tlb.immucr.toNat := hbased.immucr ▸ hbased.aligned
  have hdBase : 1024 ∣ machine.env.tlb.dmmucr.toNat := hbased.dmmucr ▸ hbased.aligned
  by_cases hrw : rw = 2
  · rw [cpuOpenriscRaiseMmuException, if_pos hrw, cpuOpenriscHwItlbFill,
      hwFill_eq hdoc.pageBits hiBase hdoc.itlbSize.1 hdoc.itlbSize.2, hbased.immucr,
      hbased.memory]
    rcases walk space.memory space.base (pageOf address) with (_ | _) | pte <;>
      simp [hrw, hitlbMiss, hipf, slots, List.filterMap_cons, Change.slot, put, lastFault, faults,
        Change.fault, Except.isOk, Except.toBool]
  · rw [cpuOpenriscRaiseMmuException, if_neg hrw, cpuOpenriscHwDtlbFill,
      hwFill_eq hdoc.pageBits hdBase hdoc.dtlbSize.1 hdoc.dtlbSize.2, hbased.dmmucr,
      hbased.memory]
    rcases walk space.memory space.base (pageOf address) with (_ | _) | pte <;>
      simp [hrw, hdtlbMiss, hdpf, slots, List.filterMap_cons, Change.slot, put, lastFault, faults,
        Change.fault, Except.isOk, Except.toBool]

theorem toNat_ptbp (pgd : TargetUlong) :
    (pgd &&& 0xfffffc00).toNat = pgd.toNat / 1024 * 1024 := by
  rw [show (0xfffffc00 : TargetUlong) = ~~~ ((1 : TargetUlong) <<< 10 - 1) from rfl]
  exact Masks.toNat_and_high pgd (by omega)

/-- The base stays a multiple of 1 KiB, so that no entry of the table lies
beyond the end of the addresses. -/
theorem Based.step (hdoc : Documented target itlbBits dtlbBits) {machine : Machine}
    {space : Space} (hbased : Based machine space) (event : Event) :
    Based (step target machine event) (space.step event) := by
  cases event with
  | store address byte =>
      refine ⟨?_, hbased.immucr, hbased.dmmucr, hbased.aligned⟩
      rw [HwFill.step, Space.step, hbased.memory]
  | enable_mmu => exact ⟨hbased.memory, rfl, rfl, dvd_zero _⟩
  | switch_mm pgd =>
      exact ⟨hbased.memory, toNat_ptbp pgd, toNat_ptbp pgd, Dvd.intro_left _ rfl⟩
  | flush insn set =>
      cases insn with
      | false => exact ⟨hbased.memory, hbased.immucr, hbased.dmmucr, hbased.aligned⟩
      | true => exact ⟨hbased.memory, hbased.immucr, hbased.dmmucr, hbased.aligned⟩
  | miss address rw =>
      have hraise := raiseMmuException_eq hdoc hbased address rw
      refine ⟨hbased.memory, ?_, ?_, hbased.aligned⟩
      · rw [HwFill.step, hraise]
        exact hbased.immucr
      · rw [HwFill.step, hraise]
        exact hbased.dmmucr

/-- What the changes leave of a machine. -/
structure Refilled (target : Target) (env env' : Env) (changes : List Change) : Prop where
  itlb : env'.tlb.itlb =
    (slots true target.ITLB_SIZE changes).foldl (put (itlbTr target)) env.tlb.itlb
  dtlb : env'.tlb.dtlb =
    (slots false target.DTLB_SIZE changes).foldl (put (dtlbTr target)) env.tlb.dtlb
  fault : (env'.exception_index, env'.eear) = lastFault target env changes

theorem refilled_step (hdoc : Documented target itlbBits dtlbBits) {machine : Machine}
    {space : Space} (hbased : Based machine space) (event : Event) :
    Refilled target machine.env (step target machine event).env (space.changeOf event) := by
  cases event with
  | store address byte => exact ⟨rfl, rfl, rfl⟩
  | enable_mmu => exact ⟨rfl, rfl, rfl⟩
  | switch_mm pgd => exact ⟨rfl, rfl, rfl⟩
  | flush insn set =>
      cases insn with
      | false => exact ⟨rfl, rfl, rfl⟩
      | true => exact ⟨rfl, rfl, rfl⟩
  | miss address rw =>
      have hraise := raiseMmuException_eq hdoc hbased address rw
      constructor
      · rw [step, hraise, Space.changeOf]
      · rw [step, hraise, Space.changeOf]
      · rw [step, hraise, Space.changeOf]

theorem Refilled.trans {env env' env'' : Env} {changes changes' : List Change}
    (hfirst : Refilled target env env' changes) (hnext : Refilled target env' env'' changes') :
    Refilled target env env'' (changes ++ changes') where
  itlb := by
    rw [hnext.itlb, hfirst.itlb, slots, slots, slots, List.filterMap_append, List.foldl_append]
  dtlb := by
    rw [hnext.dtlb, hfirst.dtlb, slots, slots, slots, List.filterMap_append, List.foldl_append]
  fault := by
    have hfaults : faults target (changes ++ changes') =
        faults target changes ++ faults target changes' :=
      List.filterMap_append
    rw [hnext.fault, lastFault, lastFault, hfaults, List.getLast?_append, hfirst.fault, lastFault]
    cases (faults target changes').getLast? <;> rfl

/-- The space after the events. -/
def Space.after (space : Space) (events : List Event) : Space := events.foldl Space.step space

theorem refilled_run (hdoc : Documented target itlbBits dtlbBits) {machine : Machine}
    {space : Space} (hbased : Based machine space) (events : List Event) :
    Based (run target machine events) (space.after events) ∧
      Refilled target machine.env (run target machine events).env (space.changes events) := by
  induction events generalizing machine space with
  | nil => exact ⟨hbased, rfl, rfl, rfl⟩
  | cons event events ih =>
      obtain ⟨hafter, hrest⟩ := ih (hbased.step hdoc event)
      exact ⟨hafter, (refilled_step hdoc hbased event).trans hrest⟩

theorem of_mem_slots {insn : Bool} {size slot page : ℕ} {pte : TargetUlong}
    {changes : List Change} (hslot : (slot, some (page, pte)) ∈ slots insn size changes) :
    slot = page % size ∧ page < 2 ^ 19 := by
  obtain ⟨change, -, hchange⟩ := List.mem_filterMap.mp hslot
  cases change with
  | walk made =>
      have hlt : made.address.toNat < 2 ^ 32 := made.address.isLt
      rw [Change.slot] at hchange
      split at hchange
      · split at hchange
        · simp only [Option.some.injEq, Prod.mk.injEq] at hchange
          obtain ⟨rfl, rfl, -⟩ := hchange
          exact ⟨rfl, by rw [pageOf]; omega⟩
        · exact nomatch hchange
      · exact nomatch hchange
  | flush insn' set =>
      rw [Change.slot] at hchange
      split at hchange
      · simp at hchange
      · exact nomatch hchange

/-- The entry maps the page that the set was filled with last, if it was not
cleared since, and it is the one from the start when neither has happened. -/
def Shows (flags : TargetUlong → ℕ → Bool) (start entry : TLBEntry) :
    Option (Option (ℕ × TargetUlong)) → Prop
  | none => entry = start
  | some none => entry.mr = 0
  | some (some (page, pte)) => Maps entry page pte (flags pte)

theorem shows_puts {flags : TargetUlong → ℕ → Bool} {translated : TargetUlong → TargetUlong}
    (start : ℕ → TLBEntry) {entries : List (ℕ × Option (ℕ × TargetUlong))}
    (hmaps : ∀ slot page pte, (slot, some (page, pte)) ∈ entries →
      Maps (entryOf translated (page, pte)) page pte (flags pte)) (set : ℕ) :
    Shows flags (start set) (entries.foldl (put translated) start set)
      (LastWrite.last entries set) := by
  induction entries using List.reverseRecOn with
  | nil => rfl
  | append_singleton entries entry ih =>
      have hearlier := ih fun slot page pte hmem =>
        hmaps slot page pte (List.mem_append_left _ hmem)
      obtain ⟨slot, content⟩ := entry
      rw [List.foldl_append, List.foldl_cons, List.foldl_nil, LastWrite.last_snoc]
      by_cases heq : set = slot
      · subst heq
        rw [if_pos rfl]
        rcases content with _ | ⟨page, pte⟩
        · rw [Shows, put, clearMatch, Function.update_self]
        · rw [Shows, put, LastWrite.write, Function.update_self]
          exact hmaps set page pte (List.mem_append_right _ (List.mem_singleton_self _))
      · rw [if_neg heq]
        rcases content with _ | mapping
        · rwa [put, clearMatch, Function.update_of_ne heq]
        · rwa [put, LastWrite.write, Function.update_of_ne heq]

theorem Refilled.itlb_shows (hdoc : Documented target itlbBits dtlbBits) {env env' : Env}
    {changes : List Change} (hrefilled : Refilled target env env' changes) (set : ℕ) :
    Shows (itlbFlags target) (env.tlb.itlb set) (env'.tlb.itlb set)
      (LastWrite.last (slots true target.ITLB_SIZE changes) set) := by
  rw [hrefilled.itlb]
  exact shows_puts _ (fun slot page pte hslot =>
    itlbTr_maps hdoc.pageBits hdoc.executable (of_mem_slots hslot).2 pte) set

theorem Refilled.dtlb_shows (hdoc : Documented target itlbBits dtlbBits) {env env' : Env}
    {changes : List Change} (hrefilled : Refilled target env env' changes) (set : ℕ) :
    Shows (dtlbFlags target) (env.tlb.dtlb set) (env'.tlb.dtlb set)
      (LastWrite.last (slots false target.DTLB_SIZE changes) set) := by
  rw [hrefilled.dtlb]
  exact shows_puts _ (fun slot page pte hslot =>
    dtlbTr_maps hdoc.pageBits (of_mem_slots hslot).2 pte) set

/-- After any run, each set of the two TLBs maps the page that filled it last,
as the page table had it then, unless it was cleared since; the exception state
is that of the last walk that was refused; and a miss is answered by the
walk. -/
theorem run_translates (hdoc : Documented target itlbBits dtlbBits) {machine : Machine}
    {space : Space} (hbased : Based machine space) (events : List Event) :
    let changes := space.changes events
    let machine' := run target machine events
    let space' := space.after events
    (∀ set, Shows (itlbFlags target) (machine.env.tlb.itlb set) (machine'.env.tlb.itlb set)
      (LastWrite.last (slots true target.ITLB_SIZE changes) set)) ∧
    (∀ set, Shows (dtlbFlags target) (machine.env.tlb.dtlb set) (machine'.env.tlb.dtlb set)
      (LastWrite.last (slots false target.DTLB_SIZE changes) set)) ∧
    (machine'.env.exception_index, machine'.env.eear) = lastFault target machine.env changes ∧
    ∀ address rw,
      (cpuOpenriscRaiseMmuException target machine'.memory machine'.env address rw).1 =
        if (walk space'.memory space'.base (pageOf address)).isOk then 0 else 1 := by
  obtain ⟨hafter, hrefilled⟩ := refilled_run hdoc hbased events
  refine ⟨hrefilled.itlb_shows hdoc, hrefilled.dtlb_shows hdoc, hrefilled.fault,
    fun address rw => ?_⟩
  rw [raiseMmuException_eq hdoc hafter]

end Run

/-! ## A machine with one page -/

/-- The numbers of the OpenRISC target. -/
def openrisc : Target where
  TARGET_PAGE_BITS := 13
  ITLB_SIZE := 64
  DTLB_SIZE := 64
  UWE := 1 <<< 7
  SRE := 1 <<< 8
  SWE := 1 <<< 9
  SXE := 1 <<< 6
  UXE := 1 <<< 7
  EXCP_ITLBMISS := 0xa
  EXCP_DTLBMISS := 0x9
  EXCP_IPF := 0x4
  EXCP_DPF := 0x3

theorem openrisc_documented : Documented openrisc 6 6 where
  pageBits := rfl
  itlbSize := by decide
  dtlbSize := by decide
  executable := by decide
  exceptions := by decide

/-- The table at 0x2000 leads to the one at 0x4000, and that to the frame at
0x8000. -/
def onePage (address : ℕ) : Byte :=
  if address = 0x22f2 then 0x40
  else if address = 0x4006 then 0x83
  else if address = 0x4007 then 0x01
  else 0

def cold : Machine where
  memory := onePage
  env :=
    { tlb := { immucr := 0, dmmucr := 0, itlb := fun _ => ⟨0, 0⟩, dtlb := fun _ => ⟨0, 0⟩ }
      exception_index := -1
      eear := 0 }

theorem cold_based : Based cold ⟨onePage, 0⟩ := ⟨rfl, rfl, rfl, dvd_zero _⟩

/-- The second page of the kernel is brought in, into set 1, and once more when
it was taken out. -/
def refill : List Event :=
  [.enable_mmu, .switch_mm 0x2000, .miss 0xbc002000 0, .flush false 1, .miss 0xbc002000 0]

theorem run_translates_onePage :
    Maps ((run openrisc cold refill).env.tlb.dtlb 1) 0x5e001 0x8301
      (dtlbFlags openrisc 0x8301) := by
  have hlast : LastWrite.last (slots false openrisc.DTLB_SIZE
      (Space.changes ⟨onePage, 0⟩ refill)) 1 = some (some (0x5e001, 0x8301)) := by
    decide
  have hshows := (run_translates openrisc_documented cold_based refill).2.1 1
  rw [hlast] at hshows
  exact hshows

end Tcb.HwFill
