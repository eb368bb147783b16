import Tcb.Linux.Fault
import Tcb.Qemu.PageWalk

/-!
# The probe on a machine that refills its TLB

The page fault handler reads the match registers that the emulator fills.  From
what a run leaves in them follows when the handler takes a page to be cached.
-/

namespace Tcb.TlbProbe

open Tcb.Fault
open Tcb.HwFill (Target Env TLBEntry Machine Space Event TO_SPR pageOf Change slots)

/-- The kernel runs on the emulator: its numbers of the registers are those of
the emulator, and what it reads from them is what that has there. -/
structure Exposed (kernel : Kernel) (cpu : Cpu) (dtlb itlb : Tlb) (target : Target) (env : Env) :
    Prop where
  pageShift : kernel.PAGE_SHIFT = 13
  dtlbBase : kernel.SPR_DTLBMR_BASE 0 = BitVec.ofNat 32 (TO_SPR 1 512)
  itlbBase : kernel.SPR_ITLBMR_BASE 0 = BitVec.ofNat 32 (TO_SPR 2 512)
  dtlbSize : target.DTLB_SIZE = 2 ^ dtlb.setBits ∧ target.DTLB_SIZE ≤ 128
  itlbSize : target.ITLB_SIZE = 2 ^ itlb.setBits ∧ target.ITLB_SIZE ≤ 128
  oneWay : dtlb.ways = 1 ∧ itlb.ways = 1
  mfspr : ∀ spr value, HwFill.mfspr target env spr.toNat = some value → cpu.mfspr spr = value

/-- The TLB of the emulator that the vector is about. -/
def entriesOf (env : Env) (vector : Ulong) : ℕ → TLBEntry :=
  if vector = 0x300 then env.tlb.dtlb else env.tlb.itlb

/-- The page that filled the set last, in the TLB that the vector is about, if
the set was not cleared since. -/
def lastPage (target : Target) (vector : Ulong) (changes : List Change) (set : ℕ) : Option ℕ :=
  if vector = 0x300 then
    (LastWrite.last (slots false target.DTLB_SIZE changes) set).join.map Prod.fst
  else (LastWrite.last (slots true target.ITLB_SIZE changes) set).join.map Prod.fst

section Probe

variable {kernel : Kernel} {cpu : Cpu} {dtlb itlb : Tlb} {target : Target} {env : Env}

theorem matchRegister_eq (hexposed : Exposed kernel cpu dtlb itlb target env) (vector set : Ulong)
    (hset : set.toNat < (tlbOf dtlb itlb vector).sets.toNat) :
    matchRegister kernel cpu vector set 0 = (entriesOf env vector set.toNat).mr := by
  have hzero : set + BitVec.ofNat 32 0 * 256 = set := by simp
  rw [Tlb.toNat_sets] at hset
  rw [matchRegister, registerOf, hzero, baseOf, entriesOf]
  apply hexposed.mfspr
  by_cases hvector : vector = 0x300
  · rw [tlbOf, if_pos hvector, ← hexposed.dtlbSize.1] at hset
    have hsize := hexposed.dtlbSize.2
    have hspr : (BitVec.ofNat 32 (TO_SPR 1 512) + set).toNat = TO_SPR 1 512 + set.toNat := by
      rw [BitVec.toNat_add, BitVec.toNat_ofNat, TO_SPR]
      omega
    rw [if_pos hvector, if_pos hvector, hexposed.dtlbBase, hspr, HwFill.mfspr,
      if_neg (by simp only [TO_SPR]; omega), if_pos (by simp only [TO_SPR]; omega),
      Nat.add_sub_cancel_left, if_pos hset]
  · rw [tlbOf, if_neg hvector, ← hexposed.itlbSize.1] at hset
    have hsize := hexposed.itlbSize.2
    have hspr : (BitVec.ofNat 32 (TO_SPR 2 512) + set).toNat = TO_SPR 2 512 + set.toNat := by
      rw [BitVec.toNat_add, BitVec.toNat_ofNat, TO_SPR]
      omega
    rw [if_neg hvector, if_neg hvector, hexposed.itlbBase, hspr, HwFill.mfspr,
      if_neg (by simp only [TO_SPR]; omega), if_neg (by simp only [TO_SPR]; omega),
      if_neg (by simp only [TO_SPR]; omega), if_pos (by simp only [TO_SPR]; omega),
      Nat.add_sub_cancel_left, if_pos hset]

theorem toNat_page (hexposed : Exposed kernel cpu dtlb itlb target env) (address : Ulong) :
    (page kernel address).toNat = pageOf address := by
  rw [page, hexposed.pageShift, BitVec.toNat_ushiftRight, Nat.shiftRight_eq_div_pow, pageOf]

theorem toNat_pageSet (hexposed : Exposed kernel cpu dtlb itlb target env)
    (address vector : Ulong) :
    (pageSet kernel dtlb itlb address vector).toNat =
      pageOf address % (tlbOf dtlb itlb vector).sets.toNat := by
  rw [pageSet, BitVec.toNat_umod, toNat_page hexposed]

/-- A register has the page in it. -/
theorem shift_eq_page_iff (hexposed : Exposed kernel cpu dtlb itlb target env)
    (mr address : Ulong) :
    mr >>> kernel.PAGE_SHIFT = page kernel address ↔ mr.toNat / 8192 = pageOf address := by
  rw [← toNat_page hexposed, ← BitVec.toNat_inj, BitVec.toNat_ushiftRight, hexposed.pageShift,
    Nat.shiftRight_eq_div_pow]

theorem oneWay_tlbOf (hexposed : Exposed kernel cpu dtlb itlb target env) (vector : Ulong) :
    (tlbOf dtlb itlb vector).ways = 1 := by
  rw [tlbOf]
  split
  · exact hexposed.oneWay.1
  · exact hexposed.oneWay.2

/-- The probe reads one register. -/
theorem tlbMiss_oneWay (hreports : Reports kernel cpu dtlb itlb)
    (hexposed : Exposed kernel cpu dtlb itlb target env) (address vector : Ulong)
    (hprobed : (probedSet kernel itlb address).toNat < (tlbOf dtlb itlb vector).sets.toNat) :
    tlbMiss kernel cpu address vector = 0 ↔
      matchRegister kernel cpu vector (probedSet kernel itlb address) 0 >>> kernel.PAGE_SHIFT =
        page kernel address := by
  have hbase : baseOf kernel vector = 0xa00 ∨ baseOf kernel vector = 0x1200 := by
    rw [baseOf, hexposed.dtlbBase, hexposed.itlbBase]
    split
    · exact .inl rfl
    · exact .inr rfl
  have hsets : (tlbOf dtlb itlb vector).sets.toNat ≤ 128 := by
    rw [Tlb.toNat_sets, tlbOf]
    split
    · exact hexposed.dtlbSize.1 ▸ hexposed.dtlbSize.2
    · exact hexposed.itlbSize.1 ▸ hexposed.itlbSize.2
  have hways := oneWay_tlbOf hexposed vector
  have hread : ∀ number, Read kernel dtlb itlb address vector number ↔
      number = registerOf kernel vector (probedSet kernel itlb address) 0 := by
    intro number
    rw [read_iff hbase (hprobed.trans_le (hsets.trans (by decide))) (by omega), hways]
    simp
  rw [tlbMiss_eq_zero_iff hreports]
  simp only [hread, exists_eq_left]
  rfl

theorem valid_iff (mr : Ulong) : Valid mr ↔ mr.getLsbD 0 = true := by
  have hone : (1 : Ulong).toNat = 1 := rfl
  rw [Valid, ← BitVec.toNat_inj, BitVec.toNat_and, hone, Nat.and_one_is_mod, BitVec.getLsbD,
    Nat.testBit_zero, decide_eq_true_iff]

end Probe

/-! ## After a run -/

section Run

variable {kernel : Kernel} {cpu : Cpu} {dtlb itlb : Tlb} {target : Target} {machine : Machine}
  {space : Space}

/-- The TLBs have been cleared. -/
def Empty (env : Env) : Prop := ∀ set, (env.tlb.itlb set).mr = 0 ∧ (env.tlb.dtlb set).mr = 0

/-- What a match register says that was clear at first. -/
theorem mr_of_shows {flags : Ulong → ℕ → Bool} {start entry : TLBEntry} {insn : Bool}
    {size set : ℕ} {changes : List Change} (hclear : start.mr = 0)
    (hshows : HwFill.Shows flags start entry (LastWrite.last (slots insn size changes) set)) :
    match (LastWrite.last (slots insn size changes) set).join.map Prod.fst with
    | none => entry.mr = 0
    | some page => entry.mr.getLsbD 0 = true ∧ entry.mr.toNat / 8192 = page ∧
        set = page % size := by
  rcases hlast : LastWrite.last (slots insn size changes) set with _ | _ | ⟨page, pte⟩
  · rw [hlast] at hshows
    exact (congrArg TLBEntry.mr hshows).trans hclear
  · rw [hlast] at hshows
    exact hshows
  · rw [hlast] at hshows
    exact ⟨hshows.valid, hshows.page, (HwFill.of_mem_slots (LastWrite.mem_of_last hlast)).1⟩

/-- What a match register says after a run from empty TLBs. -/
theorem matchRegister_run (hdoc : HwFill.Documented target itlb.setBits dtlb.setBits)
    (hbased : HwFill.Based machine space) (hempty : Empty machine.env) (events : List Event)
    (vector : Ulong) (set : ℕ) :
    let mr := (entriesOf (HwFill.run target machine events).env vector set).mr
    match lastPage target vector (space.changes events) set with
    | none => mr = 0
    | some page => mr.getLsbD 0 = true ∧ mr.toNat / 8192 = page ∧
        set = page % (tlbOf dtlb itlb vector).sets.toNat := by
  obtain ⟨-, hrefilled⟩ := HwFill.refilled_run hdoc hbased events
  rw [entriesOf, lastPage, tlbOf, Tlb.toNat_sets]
  by_cases hvector : vector = 0x300
  · rw [if_pos hvector, if_pos hvector, if_pos hvector, ← hdoc.dtlbSize.1]
    exact mr_of_shows (hempty set).2 (hrefilled.dtlb_shows hdoc set)
  · rw [if_neg hvector, if_neg hvector, if_neg hvector, ← hdoc.itlbSize.1]
    exact mr_of_shows (hempty set).1 (hrefilled.itlb_shows hdoc set)

/-- A set has the page of an address exactly when that page filled it last and
was not taken out, and then it is the set of the page and the entry is valid. -/
theorem matchRegister_page_iff (hdoc : HwFill.Documented target itlb.setBits dtlb.setBits)
    (hbased : HwFill.Based machine space) (hempty : Empty machine.env) (events : List Event)
    (vector : Ulong) (set : ℕ) {page : ℕ} (hpage : page ≠ 0) :
    let mr := (entriesOf (HwFill.run target machine events).env vector set).mr
    (mr.toNat / 8192 = page ↔ lastPage target vector (space.changes events) set = some page) ∧
      (mr.toNat / 8192 = page → mr.getLsbD 0 = true ∧
        set = page % (tlbOf dtlb itlb vector).sets.toNat) := by
  have hrun :=
    @matchRegister_run dtlb itlb target machine space hdoc hbased hempty events vector set
  rcases hlast : lastPage target vector (space.changes events) set with _ | last
  · simp only [hlast] at hrun
    have hother : (entriesOf (HwFill.run target machine events).env vector set).mr.toNat / 8192 ≠
        page := by
      rw [hrun]
      exact hpage.symm
    exact ⟨iff_of_false hother (Option.some_ne_none page).symm, fun heq => absurd heq hother⟩
  · simp only [hlast] at hrun
    obtain ⟨hvalid, rfl, hset⟩ := hrun
    exact ⟨Option.some_inj.symm, fun heq => ⟨hvalid, heq ▸ hset⟩⟩

/-- After any run from empty TLBs the page of an address is cached exactly when
it is the page that filled its set last and was not taken out, and the probe
reports a hit exactly when that is so and the set that it looks at is the one of
the page.  So the handler never takes a page for cached that is not, and a fault
on a page of the kernel that the walk refuses goes to the path for vmalloc. -/
theorem tlbMiss_run (hdoc : HwFill.Documented target itlb.setBits dtlb.setBits)
    (hbased : HwFill.Based machine space) (hempty : Empty machine.env) (events : List Event)
    (hreports : Reports kernel cpu dtlb itlb)
    (hexposed : Exposed kernel cpu dtlb itlb target (HwFill.run target machine events).env)
    (address vector : Ulong) (hpage : pageOf address ≠ 0)
    (hprobed : (probedSet kernel itlb address).toNat < (tlbOf dtlb itlb vector).sets.toNat) :
    (Cached kernel cpu dtlb itlb address vector ↔
      lastPage target vector (space.changes events)
        (pageOf address % (tlbOf dtlb itlb vector).sets.toNat) = some (pageOf address)) ∧
    (tlbMiss kernel cpu address vector = 0 ↔
      Cached kernel cpu dtlb itlb address vector ∧
        probedSet kernel itlb address = pageSet kernel dtlb itlb address vector) ∧
    ∀ user_mode, doPageFault kernel cpu user_mode address vector = .vmalloc_fault ↔
      address ≥ kernel.VMALLOC_START ∧ user_mode = false ∧
        ¬ (Cached kernel cpu dtlb itlb address vector ∧
          probedSet kernel itlb address = pageSet kernel dtlb itlb address vector) := by
  have hpageSet : (pageSet kernel dtlb itlb address vector).toNat <
      (tlbOf dtlb itlb vector).sets.toNat := by
    rw [toNat_pageSet hexposed]
    exact Nat.mod_lt _ (by rw [Tlb.toNat_sets]; exact Nat.two_pow_pos _)
  have hat : ∀ set : Ulong, set.toNat < (tlbOf dtlb itlb vector).sets.toNat →
      (matchRegister kernel cpu vector set 0 >>> kernel.PAGE_SHIFT = page kernel address ↔
        lastPage target vector (space.changes events) set.toNat = some (pageOf address)) ∧
      (matchRegister kernel cpu vector set 0 >>> kernel.PAGE_SHIFT = page kernel address →
        Valid (matchRegister kernel cpu vector set 0) ∧
          set = pageSet kernel dtlb itlb address vector) := by
    intro set hset
    rw [matchRegister_eq hexposed vector set hset, shift_eq_page_iff hexposed, valid_iff,
      ← BitVec.toNat_inj, toNat_pageSet hexposed]
    exact matchRegister_page_iff hdoc hbased hempty events vector set.toNat hpage
  have hways : ∀ way, way < (tlbOf dtlb itlb vector).ways ↔ way = 0 := fun way => by
    rw [oneWay_tlbOf hexposed, Nat.lt_one_iff]
  have hcached : Cached kernel cpu dtlb itlb address vector ↔
      matchRegister kernel cpu vector (pageSet kernel dtlb itlb address vector) 0 >>>
        kernel.PAGE_SHIFT = page kernel address := by
    simp only [Cached, hways, exists_eq_left, and_iff_right_iff_imp]
    exact fun hshift => ((hat _ hpageSet).2 hshift).1
  have hmiss : tlbMiss kernel cpu address vector = 0 ↔
      Cached kernel cpu dtlb itlb address vector ∧
        probedSet kernel itlb address = pageSet kernel dtlb itlb address vector := by
    rw [tlbMiss_oneWay hreports hexposed address vector hprobed]
    constructor
    · intro hshift
      have hset := ((hat _ hprobed).2 hshift).2
      exact ⟨hcached.mpr (hset ▸ hshift), hset⟩
    · rintro ⟨hin, hset⟩
      exact hset ▸ hcached.mp hin
  refine ⟨?_, hmiss, fun user_mode => ?_⟩
  · rw [hcached, (hat _ hpageSet).1, toNat_pageSet hexposed]
  · rw [doPageFault_eq_vmalloc_iff, hmiss]

end Run

/-! ## The machine with one page -/

/-- The configuration of one way and 64 sets, and the registers of the
emulator. -/
def onEmulator (env : Env) (spr : Ulong) : Ulong :=
  if spr = 3 ∨ spr = 4 then 0x18 else (HwFill.mfspr HwFill.openrisc env spr.toNat).getD 0

def emulated (env : Env) : Cpu where
  mfspr := onEmulator env
  mfspr_off base offset := onEmulator env (base ||| offset)

theorem onEmulator_config (env : Env) {spr : Ulong} (hspr : spr = 3 ∨ spr = 4) :
    onEmulator env spr = 0x18 := if_pos hspr

theorem emulated_config (env : Env) :
    (emulated env).mfspr openrisc.SPR_DMMUCFGR = 0x18 ∧
      (emulated env).mfspr openrisc.SPR_IMMUCFGR = 0x18 :=
  ⟨onEmulator_config env (Or.inl rfl), onEmulator_config env (Or.inr rfl)⟩

theorem emulated_reports (env : Env) : Reports openrisc (emulated env) oneWay oneWay where
  dataSets := by
    rw [(emulated_config env).1]
    rfl
  dataWays := by
    rw [(emulated_config env).1]
    rfl
  insnSets := by
    rw [(emulated_config env).2]
    rfl
  insnWays := by
    rw [(emulated_config env).2]
    rfl
  layout := rfl
  mfspr_off _ _ := rfl

theorem emulated_exposed (env : Env) :
    Exposed openrisc (emulated env) oneWay oneWay HwFill.openrisc env where
  pageShift := rfl
  dtlbBase := rfl
  itlbBase := rfl
  dtlbSize := by decide
  itlbSize := by decide
  oneWay := ⟨rfl, rfl⟩
  mfspr spr value hvalue := by
    have hother : ¬ (spr = 3 ∨ spr = 4) := by
      rintro (rfl | rfl)
      · exact Option.some_ne_none value hvalue.symm
      · exact Option.some_ne_none value hvalue.symm
    calc (emulated env).mfspr spr
        = (HwFill.mfspr HwFill.openrisc env spr.toNat).getD 0 := if_neg hother
      _ = value := by rw [hvalue, Option.getD_some]

/-- The page is in set 1 after the run, and set 0 is looked at. -/
theorem tlbMiss_run_onePage :
    let env := (HwFill.run HwFill.openrisc HwFill.cold HwFill.refill).env
    Cached openrisc (emulated env) oneWay oneWay 0xbc002000 0x300 ∧
      ¬ tlbMiss openrisc (emulated env) 0xbc002000 0x300 = 0 := by
  obtain ⟨hcached, hmiss, -⟩ := tlbMiss_run HwFill.openrisc_documented HwFill.cold_based
    (fun _ => ⟨rfl, rfl⟩) HwFill.refill (emulated_reports _) (emulated_exposed _) 0xbc002000 0x300
    (by decide) (by decide)
  have hprobed : ¬ probedSet openrisc oneWay 0xbc002000 =
      pageSet openrisc oneWay oneWay 0xbc002000 0x300 := by
    decide
  exact ⟨hcached.mpr (by decide), fun hhit => hprobed (hmiss.mp hhit).2⟩

end Tcb.TlbProbe
