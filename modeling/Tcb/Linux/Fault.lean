import Tcb.Core.Masks
import Mathlib.Tactic

/-!
# Page faults on OpenRISC

The patched kernel tells a miss in a TLB from a protection fault by looking the
page up itself.  It reads the match registers of one set.  The number of sets
comes from the configuration of the instruction MMU for both TLBs, and it is
used as it is to choose the set, where the remainder would be needed; the valid
bit is not looked at.  The instruction that reads a register puts the bits of
the offset into the base, it does not add them, so that a third way is not
reached.
-/

namespace Tcb.Fault

/-- `unsigned long`. -/
abbrev Ulong := BitVec 32

/-- What the headers of the kernel define. -/
structure Kernel where
  PAGE_SHIFT : ℕ
  VMALLOC_START : Ulong
  SPR_DMMUCFGR : Ulong
  SPR_DMMUCFGR_NTW : Ulong
  SPR_DMMUCFGR_NTS : Ulong
  SPR_DMMUCFGR_NTS_OFF : ℕ
  SPR_IMMUCFGR : Ulong
  SPR_IMMUCFGR_NTW : Ulong
  SPR_IMMUCFGR_NTS : Ulong
  SPR_IMMUCFGR_NTS_OFF : ℕ
  SPR_DTLBMR_BASE : ℕ → Ulong
  SPR_ITLBMR_BASE : ℕ → Ulong

/-- The special purpose registers, by number and by base and offset. -/
structure Cpu where
  mfspr : Ulong → Ulong
  mfspr_off : Ulong → Ulong → Ulong

section Probe

variable (kernel : Kernel) (cpu : Cpu)

def NUM_DTLB_SETS : Ulong :=
  (1 : Ulong) <<< ((cpu.mfspr kernel.SPR_IMMUCFGR &&& kernel.SPR_IMMUCFGR_NTS) >>>
    kernel.SPR_DMMUCFGR_NTS_OFF).toNat

def NUM_ITLB_SETS : Ulong :=
  (1 : Ulong) <<< ((cpu.mfspr kernel.SPR_IMMUCFGR &&& kernel.SPR_IMMUCFGR_NTS) >>>
    kernel.SPR_IMMUCFGR_NTS_OFF).toNat

def NUM_DTLB_WAYS : Ulong := 1 + (cpu.mfspr kernel.SPR_DMMUCFGR &&& kernel.SPR_DMMUCFGR_NTW)

def NUM_ITLB_WAYS : Ulong := 1 + (cpu.mfspr kernel.SPR_IMMUCFGR &&& kernel.SPR_IMMUCFGR_NTW)

/-- The loop over the ways from the `i`-th on, with the number of those that
are left. -/
def tlbLoop (base vpn offset : Ulong) : ℕ → ℕ → ℤ
  | 0, _ => 1
  | left + 1, i =>
      let mr := cpu.mfspr_off base (offset + BitVec.ofNat 32 i * 256)
      if vpn = mr >>> kernel.PAGE_SHIFT then 0 else tlbLoop base vpn offset left (i + 1)

/-- `tlb_miss(address, vector)`. -/
def tlbMiss (address vector : Ulong) : ℤ :=
  let vpn := address >>> kernel.PAGE_SHIFT
  let num_tlb_ways :=
    if vector = 0x300 then NUM_DTLB_WAYS kernel cpu else NUM_ITLB_WAYS kernel cpu
  let num_tlb_sets :=
    if vector = 0x300 then NUM_DTLB_SETS kernel cpu else NUM_ITLB_SETS kernel cpu
  let offset := vpn &&& num_tlb_sets
  tlbLoop kernel cpu
    (if vector = 0x300 then kernel.SPR_DTLBMR_BASE 0 else kernel.SPR_ITLBMR_BASE 0)
    vpn offset num_tlb_ways.toNat 0

/-- Where `do_page_fault` goes on. -/
inductive Path
  | vmalloc_fault
  | ordinary
  deriving DecidableEq, Repr

def doPageFault (user_mode : Bool) (address vector : Ulong) : Path :=
  if address ≥ kernel.VMALLOC_START ∧ user_mode = false ∧ tlbMiss kernel cpu address vector ≠ 0
  then .vmalloc_fault else .ordinary

end Probe

/-! ## What the processor holds -/

/-- The geometry of a TLB.  Sets and match registers can be counted with an
`int`. -/
structure Tlb where
  setBits : ℕ
  ways : ℕ
  hasWay : 0 < ways
  counted : setBits < 31 ∧ 256 * ways < 2 ^ 31

def Tlb.sets (tlb : Tlb) : Ulong := (1 : Ulong) <<< tlb.setBits

/-- The configuration registers say what the TLBs are like, the fields have the
same place in both, and `l.mfspr` reads the register whose number has the bits
of the base and of the offset. -/
structure Reports (kernel : Kernel) (cpu : Cpu) (dtlb itlb : Tlb) : Prop where
  dataSets : ((cpu.mfspr kernel.SPR_DMMUCFGR &&& kernel.SPR_DMMUCFGR_NTS) >>>
    kernel.SPR_DMMUCFGR_NTS_OFF).toNat = dtlb.setBits
  dataWays : (cpu.mfspr kernel.SPR_DMMUCFGR &&& kernel.SPR_DMMUCFGR_NTW).toNat + 1 = dtlb.ways
  insnSets : ((cpu.mfspr kernel.SPR_IMMUCFGR &&& kernel.SPR_IMMUCFGR_NTS) >>>
    kernel.SPR_IMMUCFGR_NTS_OFF).toNat = itlb.setBits
  insnWays : (cpu.mfspr kernel.SPR_IMMUCFGR &&& kernel.SPR_IMMUCFGR_NTW).toNat + 1 = itlb.ways
  layout : kernel.SPR_DMMUCFGR_NTS_OFF = kernel.SPR_IMMUCFGR_NTS_OFF
  mfspr_off : ∀ base offset, cpu.mfspr_off base offset = cpu.mfspr (base ||| offset)

section Cached

variable (kernel : Kernel) (cpu : Cpu) (dtlb itlb : Tlb)

/-- The TLB that the vector is about. -/
def tlbOf (vector : Ulong) : Tlb := if vector = 0x300 then dtlb else itlb

/-- The first match register of that TLB. -/
def baseOf (vector : Ulong) : Ulong :=
  if vector = 0x300 then kernel.SPR_DTLBMR_BASE 0 else kernel.SPR_ITLBMR_BASE 0

/-- The number of the match register of a way and a set. -/
def registerOf (vector set : Ulong) (way : ℕ) : Ulong :=
  baseOf kernel vector + (set + BitVec.ofNat 32 way * 256)

def matchRegister (vector set : Ulong) (way : ℕ) : Ulong :=
  cpu.mfspr (registerOf kernel vector set way)

/-- The lowest bit. -/
def Valid (mr : Ulong) : Prop := mr &&& 1 = 1

instance (mr : Ulong) : Decidable (Valid mr) := inferInstanceAs (Decidable (_ = _))

/-- The page of the address. -/
def page (address : Ulong) : Ulong := address >>> kernel.PAGE_SHIFT

/-- The set in which the page is cached, if anywhere. -/
def pageSet (address vector : Ulong) : Ulong :=
  page kernel address % (tlbOf dtlb itlb vector).sets

/-- A way of the set of the page holds a valid entry for the page. -/
def Cached (address vector : Ulong) : Prop :=
  ∃ way < (tlbOf dtlb itlb vector).ways,
    Valid (matchRegister kernel cpu vector (pageSet kernel dtlb itlb address vector) way) ∧
      matchRegister kernel cpu vector (pageSet kernel dtlb itlb address vector) way >>>
        kernel.PAGE_SHIFT = page kernel address

/-! ## The registers that are read -/

/-- The set that is looked at: one bit of the page is left, at the number of
sets of the instruction TLB. -/
def probedSet (address : Ulong) : Ulong := page kernel address &&& itlb.sets

/-- A register that the probe reads. -/
def Read (address vector number : Ulong) : Prop :=
  ∃ way < (tlbOf dtlb itlb vector).ways,
    number = baseOf kernel vector ||| (probedSet kernel itlb address + BitVec.ofNat 32 way * 256)

/-- A register of the set of the page. -/
def Home (address vector number : Ulong) : Prop :=
  ∃ way < (tlbOf dtlb itlb vector).ways,
    number = registerOf kernel vector (pageSet kernel dtlb itlb address vector) way

/-- The page stands in the register. -/
def Carries (address number : Ulong) : Prop :=
  cpu.mfspr number >>> kernel.PAGE_SHIFT = page kernel address

instance (address number : Ulong) : Decidable (Carries kernel cpu address number) :=
  inferInstanceAs (Decidable (_ = _))

/-- The right registers are read, as far as the page stands in them.  A page
that stands in a register that is read is a valid entry of its set, unless it
has one elsewhere; and a valid entry of its set is read, unless another register
that is read has the page in it. -/
structure Sound (address vector : Ulong) : Prop where
  notMisled : (∀ number, Read kernel dtlb itlb address vector number →
      Carries kernel cpu address number →
        Home kernel dtlb itlb address vector number ∧ Valid (cpu.mfspr number)) ∨
    ∃ number, Home kernel dtlb itlb address vector number ∧ Valid (cpu.mfspr number) ∧
      Carries kernel cpu address number
  found : (∀ number, Home kernel dtlb itlb address vector number → Valid (cpu.mfspr number) →
      Carries kernel cpu address number → Read kernel dtlb itlb address vector number) ∨
    ∃ number, Read kernel dtlb itlb address vector number ∧ Carries kernel cpu address number

end Cached

/-! ## The probe -/

section Exact

variable {kernel : Kernel} {cpu : Cpu} {dtlb itlb : Tlb} {address vector : Ulong}

theorem tlbLoop_eq_zero_iff {base vpn offset : Ulong} {left i : ℕ} :
    tlbLoop kernel cpu base vpn offset left i = 0 ↔
      ∃ way, i ≤ way ∧ way < i + left ∧
        cpu.mfspr_off base (offset + BitVec.ofNat 32 way * 256) >>> kernel.PAGE_SHIFT = vpn := by
  induction left generalizing i with
  | zero =>
      rw [tlbLoop]
      constructor
      · exact fun hone => absurd hone one_ne_zero
      · rintro ⟨way, hfrom, hto, -⟩
        omega
  | succ left ih =>
      rw [tlbLoop]
      by_cases hmatch :
          vpn = cpu.mfspr_off base (offset + BitVec.ofNat 32 i * 256) >>> kernel.PAGE_SHIFT
      · simp only [if_pos hmatch, true_iff]
        exact ⟨i, le_rfl, by omega, hmatch.symm⟩
      · simp only [if_neg hmatch, ih]
        constructor
        · rintro ⟨way, hfrom, hto, hway⟩
          exact ⟨way, by omega, by omega, hway⟩
        · rintro ⟨way, hfrom, hto, hway⟩
          have hne : way ≠ i := fun heq => hmatch (heq ▸ hway.symm)
          exact ⟨way, by omega, by omega, hway⟩

theorem numSets_eq (hreports : Reports kernel cpu dtlb itlb) (vector : Ulong) :
    (if vector = 0x300 then NUM_DTLB_SETS kernel cpu else NUM_ITLB_SETS kernel cpu) =
      itlb.sets := by
  rw [NUM_DTLB_SETS, NUM_ITLB_SETS, hreports.layout, hreports.insnSets, ite_self, Tlb.sets]

theorem numWays_eq (hreports : Reports kernel cpu dtlb itlb) (vector : Ulong) :
    (if vector = 0x300 then NUM_DTLB_WAYS kernel cpu else NUM_ITLB_WAYS kernel cpu).toNat =
      (tlbOf dtlb itlb vector).ways := by
  have hways : ∀ (field : Ulong) (tlb : Tlb), field.toNat + 1 = tlb.ways →
      (1 + field : Ulong).toNat = tlb.ways := by
    intro field tlb hfield
    have hcounted : 256 * tlb.ways < 2 ^ 31 := tlb.counted.2
    have hone : (1 : Ulong).toNat = 1 := rfl
    calc (1 + field : Ulong).toNat
        = (1 + field.toNat) % 2 ^ 32 := by rw [BitVec.toNat_add, hone]
      _ = 1 + field.toNat := Nat.mod_eq_of_lt (by omega)
      _ = tlb.ways := by rw [Nat.add_comm, hfield]
  rw [tlbOf]
  split
  · exact hways _ dtlb hreports.dataWays
  · exact hways _ itlb hreports.insnWays

/-- The probe reports a hit when the page stands in a register that it
reads. -/
theorem tlbMiss_eq_zero_iff (hreports : Reports kernel cpu dtlb itlb) (address vector : Ulong) :
    tlbMiss kernel cpu address vector = 0 ↔
      ∃ number, Read kernel dtlb itlb address vector number ∧
        Carries kernel cpu address number := by
  have hway : tlbMiss kernel cpu address vector = 0 ↔
      ∃ way < (tlbOf dtlb itlb vector).ways, Carries kernel cpu address
        (baseOf kernel vector ||| (probedSet kernel itlb address + BitVec.ofNat 32 way * 256)) := by
    simp only [tlbMiss, tlbLoop_eq_zero_iff, numSets_eq hreports, numWays_eq hreports,
      hreports.mfspr_off, zero_add, Nat.zero_le, true_and]
    rfl
  rw [hway]
  constructor
  · rintro ⟨way, hlt, hcarries⟩
    exact ⟨_, ⟨way, hlt, rfl⟩, hcarries⟩
  · rintro ⟨_, ⟨way, hlt, rfl⟩, hcarries⟩
    exact ⟨way, hlt, hcarries⟩

theorem doPageFault_eq_vmalloc_iff (user_mode : Bool) (address vector : Ulong) :
    doPageFault kernel cpu user_mode address vector = .vmalloc_fault ↔
      address ≥ kernel.VMALLOC_START ∧ user_mode = false ∧
        ¬ tlbMiss kernel cpu address vector = 0 := by
  rw [doPageFault]
  constructor
  · intro hpath
    by_contra hnot
    rw [if_neg hnot] at hpath
    exact Path.noConfusion hpath
  · exact fun hpath => if_pos hpath

theorem Tlb.toNat_sets (tlb : Tlb) : tlb.sets.toNat = 2 ^ tlb.setBits := by
  have hbits : tlb.setBits < 32 := by
    have := tlb.counted.1
    omega
  rw [Tlb.sets, BitVec.toNat_shiftLeft, show (1 : Ulong).toNat = 1 from rfl, Nat.one_shiftLeft]
  exact Nat.mod_eq_of_lt (Nat.pow_lt_pow_right (by omega) hbits)

/-- The bit that is left of a number is its remainder when both are zero. -/
theorem and_two_pow_eq_mod_iff (number bits : ℕ) :
    number &&& 2 ^ bits = number % 2 ^ bits ↔ 2 ^ (bits + 1) ∣ number := by
  have hlt : number % 2 ^ bits < 2 ^ bits := Nat.mod_lt _ (Nat.two_pow_pos bits)
  rw [Nat.and_two_pow, Nat.dvd_iff_mod_eq_zero, Nat.mod_pow_succ, Nat.testBit_eq_decide_div_mod_eq]
  by_cases hbit : number / 2 ^ bits % 2 = 1
  · simp only [hbit, decide_true, Bool.toNat_true, one_mul, mul_one]
    omega
  · have hzero : number / 2 ^ bits % 2 = 0 := by omega
    simp only [hzero, zero_ne_one, decide_false, Bool.toNat_false, zero_mul, mul_zero, add_zero]
    exact eq_comm

/-- With one geometry for both TLBs the right set is looked at for one page in
as many as twice the sets, those whose number is a multiple of that. -/
theorem probedSet_eq_pageSet_iff (hsame : dtlb.setBits = itlb.setBits) (address vector : Ulong) :
    probedSet kernel itlb address = pageSet kernel dtlb itlb address vector ↔
      2 ^ (itlb.setBits + 1) ∣ (page kernel address).toNat := by
  have hsets : (tlbOf dtlb itlb vector).sets = itlb.sets := by
    rw [tlbOf]
    split
    · rw [Tlb.sets, Tlb.sets, hsame]
    · rfl
  rw [← and_two_pow_eq_mod_iff, probedSet, pageSet, hsets, ← BitVec.toNat_inj, BitVec.toNat_and,
    BitVec.toNat_umod, itlb.toNat_sets]

/-- Of more than two ways only the first two are read: the numbers of the match
registers have a bit where the third way begins. -/
theorem readRegister_eq (hbase : baseOf kernel vector = 0xa00 ∨ baseOf kernel vector = 0x1200)
    {set : Ulong} (hset : set.toNat < 2 ^ 8) {way : ℕ} (hway : way < 4) :
    baseOf kernel vector ||| (set + BitVec.ofNat 32 way * 256) =
      registerOf kernel vector set (way % 2) := by
  have hsum : ∀ number < 4,
      (set + BitVec.ofNat 32 number * 256).toNat = 2 ^ 8 * number + set.toNat := by
    intro number hnumber
    rw [BitVec.toNat_add, BitVec.toNat_mul, BitVec.toNat_ofNat,
      show (256 : Ulong).toNat = 2 ^ 8 from rfl]
    omega
  obtain ⟨high, hhigh, hbits⟩ : ∃ high < 32, (baseOf kernel vector).toNat = 2 ^ 8 * high ∧
      2 ^ 8 * high ||| 2 ^ 8 * way = 2 ^ 8 * (high + way % 2) := by
    rcases hbase with hbase | hbase
    · refine ⟨10, by decide, by rw [hbase]; rfl, ?_⟩
      interval_cases way <;> rfl
    · refine ⟨18, by decide, by rw [hbase]; rfl, ?_⟩
      interval_cases way <;> rfl
  apply BitVec.eq_of_toNat_eq
  rw [registerOf, BitVec.toNat_or, hsum way hway, BitVec.toNat_add, hsum (way % 2) (by omega),
    hbits.1, Nat.two_pow_add_eq_or_of_lt hset way, ← Nat.or_assoc, hbits.2,
    ← Nat.two_pow_add_eq_or_of_lt hset]
  omega

/-- So with the numbers of the processor a probe reads the first two ways of one
set. -/
theorem read_iff (hbase : baseOf kernel vector = 0xa00 ∨ baseOf kernel vector = 0x1200)
    (hset : (probedSet kernel itlb address).toNat < 2 ^ 8)
    (hways : (tlbOf dtlb itlb vector).ways ≤ 4) (number : Ulong) :
    Read kernel dtlb itlb address vector number ↔
      ∃ way < min 2 (tlbOf dtlb itlb vector).ways,
        number = registerOf kernel vector (probedSet kernel itlb address) way := by
  constructor
  · rintro ⟨way, hlt, rfl⟩
    refine ⟨way % 2, ?_, readRegister_eq hbase hset (by omega)⟩
    have := Nat.mod_le way 2
    omega
  · rintro ⟨way, hlt, rfl⟩
    refine ⟨way, by omega, ?_⟩
    rw [readRegister_eq hbase hset (by omega), Nat.mod_eq_of_lt (by omega)]

end Exact

/-! ## A machine with one way and 64 sets -/

/-- The numbers of the OpenRISC headers. -/
def openrisc : Kernel where
  PAGE_SHIFT := 13
  VMALLOC_START := 0xbc000000
  SPR_DMMUCFGR := 3
  SPR_DMMUCFGR_NTW := 0x3
  SPR_DMMUCFGR_NTS := 0x1c
  SPR_DMMUCFGR_NTS_OFF := 2
  SPR_IMMUCFGR := 4
  SPR_IMMUCFGR_NTW := 0x3
  SPR_IMMUCFGR_NTS := 0x1c
  SPR_IMMUCFGR_NTS_OFF := 2
  SPR_DTLBMR_BASE way := 0xa00 + BitVec.ofNat 32 way * 0x100
  SPR_ITLBMR_BASE way := 0x1200 + BitVec.ofNat 32 way * 0x100

/-- The data TLB has the first two pages from `VMALLOC_START` on, in their
sets. -/
def registers (number : Ulong) : Ulong :=
  if number = 3 ∨ number = 4 then 0x18
  else if number = 0xa00 then 0xbc000001
  else if number = 0xa01 then 0xbc002001
  else 0

def machine : Cpu where
  mfspr := registers
  mfspr_off base offset := registers (base ||| offset)

def oneWay : Tlb where
  setBits := 6
  ways := 1
  hasWay := Nat.one_pos
  counted := by decide

end Tcb.Fault
