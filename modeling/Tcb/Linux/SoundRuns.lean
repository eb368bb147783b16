import Tcb.Linux.SoundClock

/-!
# What the sound driver counts

In every run the counts of the driver are the remainders of the time that was
counted, the timer is set to the end of a period, and the device plays exactly
while the timer is set.
-/

namespace Tcb.DummySound

/-! ## The counts of the driver -/

/-- The counts of the driver are the remainders of the time that was
counted. -/
structure Counts (HZ : ℕ) (clock : Clock) (dpcm : DummySystimerPcm) : Prop where
  base_time : dpcm.base_time = BitVec.ofNat 32 clock.base
  rate : dpcm.rate.toNat = clock.rate
  frac_buffer_size : dpcm.frac_buffer_size.toNat = clock.buffer HZ
  frac_period_size : dpcm.frac_period_size.toNat = clock.period HZ
  frac_pos : dpcm.frac_pos.toNat = clock.frac % clock.buffer HZ
  frac_period_rest : dpcm.frac_period_rest.toNat = clock.period HZ - clock.frac % clock.period HZ
  elapsed : dpcm.elapsed + clock.told = clock.passed HZ

section Update

variable {HZ : ℕ} {clock : Clock} {dpcm : DummySystimerPcm} {jiffies : Uint} {fuel : ℕ}

theorem delta_eq {now base : ℕ} (hbase : base ≤ now) (hgap : now - base < 2 ^ 32) :
    (BitVec.ofNat 32 now - BitVec.ofNat 32 base).toNat = now - base := by
  rw [BitVec.toNat_sub, BitVec.toNat_ofNat, BitVec.toNat_ofNat]
  omega

theorem dummySystimerUpdate_counts (hHZ : 0 < HZ) (hcounts : Counts HZ clock dpcm)
    (hjiffies : jiffies = BitVec.ofNat 32 clock.now) (hbase : clock.base ≤ clock.now)
    (hfits : clock.Fits HZ) (hfuel : 2 ^ 32 ≤ fuel) :
    ∃ dpcm', dummySystimerUpdate fuel jiffies dpcm = .ok dpcm' ∧ Counts HZ clock.updated dpcm' := by
  have hperiod := hfits.valid.period_pos hHZ
  have hle := hfits.valid.period_le
  have hticks := hfits.ticks
  have hgap : clock.now - clock.base < 2 ^ 32 := by
    have := Nat.le_mul_of_pos_right (clock.now - clock.base) hfits.valid.rate
    omega
  have hdelta : (jiffies - dpcm.base_time).toNat = clock.now - clock.base := by
    rw [hjiffies, hcounts.base_time, delta_eq hbase hgap]
  rw [dummySystimerUpdate]
  by_cases hzero : jiffies - dpcm.base_time = 0
  · have hsame : clock.now - clock.base = 0 := by
      rw [← hdelta, hzero]
      rfl
    have hclock : clock.updated = { clock with ticks := clock.ticks, base := clock.base } := by
      rw [Clock.updated]
      congr 1 <;> omega
    exact ⟨dpcm, if_pos hzero, by rw [hclock]; exact hcounts⟩
  · rw [if_neg hzero]
    obtain ⟨hpassed, hrest⟩ :=
      passed_add clock.frac ((clock.now - clock.base) * clock.rate) hperiod
    have hproduct : ((jiffies - dpcm.base_time) * dpcm.rate).toNat =
        (clock.now - clock.base) * clock.rate := by
      rw [BitVec.toNat_mul, hdelta, hcounts.rate]
      exact Nat.mod_eq_of_lt (by omega)
    have hpos : (dpcm.frac_pos + (jiffies - dpcm.base_time) * dpcm.rate).toNat =
        clock.frac % clock.buffer HZ + (clock.now - clock.base) * clock.rate := by
      have := Nat.mod_lt clock.frac (hperiod.trans_le hle)
      rw [BitVec.toNat_add, hcounts.frac_pos, hproduct]
      exact Nat.mod_eq_of_lt (by omega)
    have hphase := Nat.mod_lt clock.frac hperiod
    have hsize : 0 < dpcm.frac_buffer_size.toNat := by
      rw [hcounts.frac_buffer_size]
      exact hperiod.trans_le hle
    obtain ⟨wrapped, hwrap, hwrapped⟩ := wrapLoop_eq hsize
      ((dpcm.frac_pos + (jiffies - dpcm.base_time) * dpcm.rate).isLt.trans_le hfuel)
    have hrest' : (clock.now - clock.base) * clock.rate + clock.period HZ -
        (clock.period HZ - clock.frac % clock.period HZ) =
          (clock.now - clock.base) * clock.rate + clock.frac % clock.period HZ := by omega
    have helapsed := hcounts.elapsed
    have hpassed' : clock.updated.passed HZ = clock.passed HZ +
        ((clock.now - clock.base) * clock.rate + clock.frac % clock.period HZ) /
          clock.period HZ := by
      rw [Clock.passed, Clock.frac_updated]
      exact hpassed
    obtain ⟨left, hloop, hleft⟩ := @periodLoop_eq dpcm.frac_period_size
      ((jiffies - dpcm.base_time) * dpcm.rate)
      (by rw [hcounts.frac_period_size]; exact hperiod)
      (by rw [hproduct, hcounts.frac_period_size]; omega) fuel dpcm.elapsed dpcm.frac_period_rest
      (by rw [hproduct, hcounts.frac_period_size]; omega)
      (by rw [hproduct, hcounts.frac_period_size, hcounts.frac_period_rest]; omega)
      (by
        have hcount := hfits.elapsed
        rw [hpassed'] at hcount
        rw [hproduct, hcounts.frac_period_size, hcounts.frac_period_rest, hrest']
        omega)
    rw [hproduct, hcounts.frac_period_size, hcounts.frac_period_rest, hrest'] at hloop hleft
    refine ⟨{ dpcm with
      base_time := dpcm.base_time + (jiffies - dpcm.base_time)
      frac_pos := wrapped
      elapsed := dpcm.elapsed + ((clock.now - clock.base) * clock.rate +
        clock.frac % clock.period HZ) / clock.period HZ
      frac_period_rest := left - (jiffies - dpcm.base_time) * dpcm.rate }, ?_, ?_⟩
    · simp only [hwrap, Run.ok_bind, hloop]
    have hback : (left - (jiffies - dpcm.base_time) * dpcm.rate).toNat =
        left.toNat - (clock.now - clock.base) * clock.rate := by
      have hless := Nat.mod_lt ((clock.now - clock.base) * clock.rate +
        clock.frac % clock.period HZ) hperiod
      rw [← hproduct]
      exact BitVec.toNat_sub_of_le (by rw [BitVec.le_def, hproduct]; omega)
    constructor
    · rw [BitVec.add_comm, BitVec.sub_add_cancel, hjiffies]
      rfl
    · exact hcounts.rate
    · exact hcounts.frac_buffer_size
    · exact hcounts.frac_period_size
    · rw [hwrapped, hpos, hcounts.frac_buffer_size, Nat.mod_add_mod, Clock.frac_updated]
      rfl
    · rw [hback, hleft, Clock.frac_updated]
      have hsame : (clock.frac + (clock.now - clock.base) * clock.rate) %
          clock.updated.period HZ = _ := hrest
      rw [hsame]
      have hless := Nat.mod_lt ((clock.now - clock.base) * clock.rate +
        clock.frac % clock.period HZ) hperiod
      change _ = clock.period HZ - _
      omega
    · rw [hpassed', ← hcounts.elapsed]
      exact Nat.add_right_comm _ _ _

end Update

/-! ## A run of the driver -/

/-- The driver and its device at a time. -/
structure Keeps (HZ : ℕ) (virt_to_phys : Uint → Uint) (clock : Clock) (machine : Machine) :
    Prop where
  jiffies : machine.jiffies = BitVec.ofNat 32 clock.now
  base_le : clock.base ≤ clock.now
  counts : Counts HZ clock machine.dpcm
  pending : machine.pending = clock.due.isSome
  expires : ∀ due ∈ clock.due, machine.expires = BitVec.ofNat 32 due
  period_elapsed : machine.period_elapsed = clock.reports
  answered : machine.answered.map BitVec.toNat = clock.answered
  runtime : 0 < clock.rate → machine.runtime.rate.toNat = clock.rate ∧
    machine.runtime.period_size.toNat = clock.period_size
  stopped : clock.due = none → machine.virt_io 0 = 0
  playing : clock.due.isSome → machine.virt_io 0 = 1 ∧
    machine.virt_io 1 = virt_to_phys machine.runtime.dma_area ∧
    machine.virt_io 2 = machine.runtime.periods ∧
    (machine.virt_io 3).toNat = clock.period_size ∧ (machine.virt_io 5).toNat = clock.rate ∧
    machine.virt_io 6 = machine.runtime.channels ∧ machine.virt_io 7 = machine.runtime.format

section Run

variable {HZ : Uint} {virt_to_phys : Uint → Uint} {clock : Clock} {machine : Machine} {fuel : ℕ}

theorem dummySystimerCreate_keeps (jiffies : Uint) (runtime : Runtime) :
    Keeps HZ.toNat virt_to_phys (Clock.created jiffies) (dummySystimerCreate jiffies runtime) := by
  constructor
  · rw [Clock.created, BitVec.ofNat_toNat, BitVec.setWidth_eq]
    rfl
  · exact Nat.zero_le _
  · constructor <;> simp [dummySystimerCreate, Clock.created, Clock.buffer, Clock.period,
      Clock.frac, Clock.passed]
  · rfl
  · exact fun _ hdue => absurd hdue (Option.not_mem_none _)
  · rfl
  · rfl
  · exact fun hrate => absurd hrate (Nat.lt_irrefl 0)
  · exact fun _ => rfl
  · exact fun hdue => absurd hdue Bool.false_ne_true

theorem dummySystimerRearm_eq (hcounts : Counts HZ.toNat clock machine.dpcm)
    (hjiffies : machine.jiffies = BitVec.ofNat 32 clock.now) (hvalid : clock.Valid HZ.toNat)
    (hpending : machine.pending = false) :
    dummySystimerRearm machine = .ok { machine with
      expires := BitVec.ofNat 32 (clock.now + clock.wait HZ.toNat)
      pending := true } := by
  have hrate := hvalid.rate
  have hle := hvalid.period_le
  have hcounters := hvalid.counters
  have hnonzero : machine.dpcm.rate ≠ 0 := by
    intro hzero
    rw [← hcounts.rate, hzero] at hrate
    exact absurd hrate (Nat.lt_irrefl 0)
  have hsum : (machine.dpcm.frac_period_rest + machine.dpcm.rate - 1).toNat =
      clock.period HZ.toNat - clock.frac % clock.period HZ.toNat + clock.rate - 1 := by
    rw [BitVec.toNat_sub, BitVec.toNat_add, hcounts.frac_period_rest, hcounts.rate,
      show (1 : Uint).toNat = 1 from rfl]
    omega
  have hwait : (machine.dpcm.frac_period_rest + machine.dpcm.rate - 1) / machine.dpcm.rate =
      BitVec.ofNat 32 (clock.wait HZ.toNat) := by
    apply BitVec.eq_of_toNat_eq
    have hsmall : clock.wait HZ.toNat < 2 ^ 32 := by
      rw [Clock.wait]
      exact (Nat.div_le_self _ _).trans_lt (by omega)
    rw [BitVec.toNat_udiv, hsum, hcounts.rate, BitVec.toNat_ofNat, Nat.mod_eq_of_lt hsmall]
    rfl
  rw [dummySystimerRearm, Run.require_pos hnonzero, Run.require_pos hpending]
  simp only [Run.ok_bind, hwait, hjiffies, ← BitVec.ofNat_add]

theorem Keeps.pass (hkeeps : Keeps HZ.toNat virt_to_phys clock machine) (ticks : ℕ) :
    Keeps HZ.toNat virt_to_phys { clock with now := clock.now + ticks }
      { machine with jiffies := machine.jiffies + BitVec.ofNat 32 ticks } where
  jiffies := by rw [hkeeps.jiffies, ← BitVec.ofNat_add]
  base_le := hkeeps.base_le.trans (Nat.le_add_right _ _)
  counts := ⟨hkeeps.counts.1, hkeeps.counts.2, hkeeps.counts.3, hkeeps.counts.4, hkeeps.counts.5,
    hkeeps.counts.6, hkeeps.counts.7⟩
  pending := hkeeps.pending
  expires := hkeeps.expires
  period_elapsed := hkeeps.period_elapsed
  answered := hkeeps.answered
  runtime := hkeeps.runtime
  stopped := hkeeps.stopped
  playing := hkeeps.playing

theorem Keeps.prepare (hkeeps : Keeps HZ.toNat virt_to_phys clock machine) {runtime : Runtime}
    (hdue : clock.due = none) (hvalid : (clock.prepared runtime).Valid HZ.toNat) :
    Keeps HZ.toNat virt_to_phys (clock.prepared runtime)
      (dummySystimerPrepare HZ { machine with runtime }) := by
  have hcounters : runtime.buffer_size.toNat * HZ.toNat + runtime.rate.toNat < 2 ^ 32 :=
    hvalid.counters
  have hle : runtime.period_size.toNat * HZ.toNat ≤ runtime.buffer_size.toNat * HZ.toNat :=
    hvalid.period_le
  have hperiod : (runtime.period_size * HZ).toNat = runtime.period_size.toNat * HZ.toNat := by
    rw [BitVec.toNat_mul]
    exact Nat.mod_eq_of_lt (by omega)
  have hfrac : (clock.prepared runtime).frac = 0 := Nat.zero_mul _
  constructor
  · exact hkeeps.jiffies
  · exact hkeeps.base_le
  · constructor
    · exact hkeeps.counts.base_time
    · rfl
    · change (runtime.buffer_size * HZ).toNat = _
      rw [BitVec.toNat_mul]
      exact Nat.mod_eq_of_lt (by omega)
    · exact hperiod
    · rw [hfrac, Nat.zero_mod]
      rfl
    · rw [hfrac, Nat.zero_mod, Nat.sub_zero]
      exact hperiod
    · rw [Clock.passed, hfrac, Nat.zero_div]
      rfl
  · exact hkeeps.pending
  · exact hkeeps.expires
  · exact hkeeps.period_elapsed
  · exact hkeeps.answered
  · exact fun _ => ⟨rfl, rfl⟩
  · exact hkeeps.stopped
  · intro hsome
    rw [Clock.prepared, hdue] at hsome
    exact absurd hsome Bool.false_ne_true

/-- The device is told to play what the stream was prepared for. -/
theorem started_virt_io (machine : Machine) (register : ℕ) :
    (iowrite32be (writeParameters virt_to_phys machine) 1 0).virt_io register =
      if register = 0 then 1
      else if register = 7 then machine.runtime.format
      else if register = 6 then machine.runtime.channels
      else if register = 5 then machine.runtime.rate
      else if register = 3 then machine.runtime.period_size
      else if register = 2 then machine.runtime.periods
      else if register = 1 then virt_to_phys machine.runtime.dma_area
      else machine.virt_io register := by
  simp only [iowrite32be, writeParameters, Function.update_apply]

theorem started_frame (machine : Machine) :
    let started := iowrite32be (writeParameters virt_to_phys machine) 1 0
    started.runtime = machine.runtime ∧ started.jiffies = machine.jiffies ∧
      started.dpcm = machine.dpcm ∧ started.pending = machine.pending ∧
      started.period_elapsed = machine.period_elapsed ∧ started.answered = machine.answered := by
  simp only [iowrite32be, writeParameters, and_self]

theorem Keeps.start (hkeeps : Keeps HZ.toNat virt_to_phys clock machine)
    (hdue : clock.due = none) (hvalid : clock.Valid HZ.toNat) :
    ∃ machine', dummySystimerStart (iowrite32be (writeParameters virt_to_phys machine) 1 0) =
        .ok machine' ∧
      Keeps HZ.toNat virt_to_phys ({ clock with base := clock.now }.armed HZ.toNat) machine' := by
  obtain ⟨hrate, hperiod⟩ := hkeeps.runtime hvalid.rate
  have hregisters := @started_virt_io virt_to_phys machine
  obtain ⟨hruntime, hjiffies, hdpcm, hpending, hperiods, hanswered⟩ :=
    @started_frame virt_to_phys machine
  generalize iowrite32be (writeParameters virt_to_phys machine) 1 0 = started at *
  have hcounts : Counts HZ.toNat { clock with base := clock.now }
      { started.dpcm with base_time := started.jiffies } := by
    rw [hdpcm, hjiffies]
    exact ⟨hkeeps.jiffies, hkeeps.counts.2, hkeeps.counts.3, hkeeps.counts.4, hkeeps.counts.5,
      hkeeps.counts.6, hkeeps.counts.7⟩
  have hrearm := @dummySystimerRearm_eq HZ { clock with base := clock.now }
    { started with dpcm.base_time := started.jiffies } hcounts
    (hjiffies.trans hkeeps.jiffies) ⟨hvalid.1, hvalid.2, hvalid.3, hvalid.4⟩
    (hpending.trans (hkeeps.pending.trans (by rw [hdue]; rfl)))
  refine ⟨_, hrearm, ?_⟩
  constructor
  · exact hjiffies.trans hkeeps.jiffies
  · exact le_rfl
  · exact ⟨hcounts.1, hcounts.2, hcounts.3, hcounts.4, hcounts.5, hcounts.6, hcounts.7⟩
  · rfl
  · rintro due hdue
    obtain rfl := Option.some.inj hdue
    rfl
  · exact hperiods.trans hkeeps.period_elapsed
  · exact (congrArg _ hanswered).trans hkeeps.answered
  · rw [hruntime]
    exact hkeeps.runtime
  · exact fun hnone => absurd hnone (Option.some_ne_none _)
  · intro _
    simp only [hregisters, hruntime]
    exact ⟨rfl, rfl, rfl, hperiod, hrate, rfl, rfl⟩

theorem Keeps.stop (hkeeps : Keeps HZ.toNat virt_to_phys clock machine) :
    Keeps HZ.toNat virt_to_phys { clock with due := none }
      (dummySystimerStop (iowrite32be machine 0 0)) where
  jiffies := hkeeps.jiffies
  base_le := hkeeps.base_le
  counts := ⟨hkeeps.counts.1, hkeeps.counts.2, hkeeps.counts.3, hkeeps.counts.4, hkeeps.counts.5,
    hkeeps.counts.6, hkeeps.counts.7⟩
  pending := rfl
  expires _ hdue := absurd hdue (Option.not_mem_none _)
  period_elapsed := hkeeps.period_elapsed
  answered := hkeeps.answered
  runtime := hkeeps.runtime
  stopped _ := rfl
  playing hsome := absurd hsome Bool.false_ne_true

theorem Keeps.pointer (hHZ : 0 < HZ.toNat) (hkeeps : Keeps HZ.toNat virt_to_phys clock machine)
    (hfits : clock.Fits HZ.toNat) (hfuel : 2 ^ 32 ≤ fuel) :
    ∃ position machine', dummySystimerPointer HZ fuel machine = .ok (position, machine') ∧
      Keeps HZ.toNat virt_to_phys (clock.step HZ.toNat .pointer)
        { machine' with answered := position :: machine'.answered } := by
  obtain ⟨dpcm, hupdate, hcounts⟩ :=
    dummySystimerUpdate_counts hHZ hkeeps.counts hkeeps.jiffies hkeeps.base_le hfits hfuel
  refine ⟨dpcm.frac_pos / HZ, { machine with dpcm }, by rw [dummySystimerPointer, hupdate]; rfl, ?_⟩
  have hposition : (dpcm.frac_pos / HZ).toNat =
      clock.updated.frac / HZ.toNat % clock.buffer_size := by
    rw [BitVec.toNat_udiv, hcounts.frac_pos, Clock.buffer, Nat.mul_comm,
      Nat.mod_mul_right_div_self]
    rfl
  constructor
  · exact hkeeps.jiffies
  · exact le_rfl
  · exact ⟨hcounts.1, hcounts.2, hcounts.3, hcounts.4, hcounts.5, hcounts.6, hcounts.7⟩
  · exact hkeeps.pending
  · exact hkeeps.expires
  · exact hkeeps.period_elapsed
  · rw [List.map_cons, hposition, hkeeps.answered]
    rfl
  · exact hkeeps.runtime
  · exact hkeeps.stopped
  · exact hkeeps.playing

theorem Keeps.callback (hHZ : 0 < HZ.toNat) (hkeeps : Keeps HZ.toNat virt_to_phys clock machine)
    (hfits : clock.Fits HZ.toNat) (hplaying : clock.due.isSome) (hfuel : 2 ^ 32 ≤ fuel) :
    ∃ machine', dummySystimerCallback fuel machine = .ok machine' ∧
      Keeps HZ.toNat virt_to_phys (clock.step HZ.toNat .callback) machine' := by
  obtain ⟨dpcm, hupdate, hcounts⟩ :=
    dummySystimerUpdate_counts hHZ hkeeps.counts hkeeps.jiffies hkeeps.base_le hfits hfuel
  have hvalid : clock.updated.Valid HZ.toNat :=
    ⟨hfits.valid.1, hfits.valid.2, hfits.valid.3, hfits.valid.4⟩
  have hrearm := @dummySystimerRearm_eq HZ clock.updated { machine with dpcm, pending := false }
    hcounts hkeeps.jiffies hvalid rfl
  have helapsed := hcounts.elapsed
  have hcleared : Counts HZ.toNat ((clock.updated.armed HZ.toNat).reported HZ.toNat)
      { dpcm with elapsed := 0 } :=
    ⟨hcounts.1, hcounts.2, hcounts.3, hcounts.4, hcounts.5, hcounts.6, Nat.zero_add _⟩
  have hreport : dpcm.elapsed ≠ 0 ↔ clock.updated.told < clock.updated.passed HZ.toNat := by omega
  have hrun : dummySystimerCallback fuel machine = .ok
      { machine with
        dpcm := { dpcm with elapsed := 0 }
        expires := BitVec.ofNat 32 (clock.updated.now + clock.updated.wait HZ.toNat)
        pending := true
        period_elapsed :=
          if dpcm.elapsed ≠ 0 then machine.period_elapsed + 1 else machine.period_elapsed } := by
    rw [dummySystimerCallback, hupdate]
    simp only [Run.ok_bind, hrearm]
    split <;> rfl
  refine ⟨_, hrun, ?_⟩
  obtain ⟨hio, hparameters⟩ := hkeeps.playing hplaying
  constructor
  · exact hkeeps.jiffies
  · exact le_rfl
  · exact hcleared
  · rfl
  · rintro due hdue
    obtain rfl := Option.some.inj hdue
    rfl
  · rw [hkeeps.period_elapsed]
    exact ite_congr (propext hreport) (fun _ => rfl) (fun _ => rfl)
  · exact hkeeps.answered
  · exact hkeeps.runtime
  · exact fun hnone => absurd hnone (Option.some_ne_none _)
  · exact fun _ => ⟨hio, hparameters⟩

theorem Keeps.step (hHZ : 0 < HZ.toNat) (hkeeps : Keeps HZ.toNat virt_to_phys clock machine)
    {event : Event} (hallowed : clock.Allowed HZ.toNat event) (hfuel : 2 ^ 32 ≤ fuel) :
    ∃ machine', step HZ virt_to_phys fuel machine event = .ok machine' ∧
      Keeps HZ.toNat virt_to_phys (clock.step HZ.toNat event) machine' := by
  cases event with
  | pass ticks => exact ⟨_, rfl, hkeeps.pass ticks⟩
  | prepare runtime => exact ⟨_, rfl, hkeeps.prepare hallowed.1 hallowed.2⟩
  | trigger cmd =>
      cases cmd with
      | START => exact hkeeps.start hallowed.1 hallowed.2
      | RESUME => exact hkeeps.start hallowed.1 hallowed.2
      | STOP => exact ⟨_, rfl, hkeeps.stop⟩
      | SUSPEND => exact ⟨_, rfl, hkeeps.stop⟩
      | other cmd => exact ⟨_, rfl, hkeeps⟩
  | pointer =>
      obtain ⟨position, machine', hpointer, hkeeps'⟩ := hkeeps.pointer hHZ hallowed hfuel
      exact ⟨_, by rw [DummySound.step, hpointer]; rfl, hkeeps'⟩
  | callback =>
      obtain ⟨hfits, due, hdue, -⟩ := hallowed
      exact hkeeps.callback hHZ hfits (Option.isSome_of_eq_some hdue) hfuel

theorem Keeps.run (hHZ : 0 < HZ.toNat) (hkeeps : Keeps HZ.toNat virt_to_phys clock machine)
    {events : List Event} (hallowed : clock.AllowedRun HZ.toNat events) (hfuel : 2 ^ 32 ≤ fuel) :
    ∃ machine', run HZ virt_to_phys fuel machine events = .ok machine' ∧
      Keeps HZ.toNat virt_to_phys (clock.run HZ.toNat events) machine' := by
  induction events generalizing clock machine with
  | nil => exact ⟨machine, rfl, hkeeps⟩
  | cons event events ih =>
      obtain ⟨machine', hstep, hnext⟩ := hkeeps.step hHZ hallowed.1 hfuel
      obtain ⟨final, hrun, hfinal⟩ := ih hnext hallowed.2
      refine ⟨final, ?_, hfinal⟩
      rw [DummySound.run, List.foldlM_cons, hstep]
      exact hrun

/-- However the time is divided by calls and by the timer, the driver returns
and its counts are those of the time. -/
theorem run_counts (hHZ : 0 < HZ.toNat) (jiffies : Uint) (runtime : Runtime) (events : List Event)
    (hallowed : (Clock.created jiffies).AllowedRun HZ.toNat events) (hfuel : 2 ^ 32 ≤ fuel) :
    ∃ machine, run HZ virt_to_phys fuel (dummySystimerCreate jiffies runtime) events =
        .ok machine ∧
      Keeps HZ.toNat virt_to_phys ((Clock.created jiffies).run HZ.toNat events) machine :=
  (dummySystimerCreate_keeps jiffies runtime).run hHZ hallowed hfuel

end Run

/-- Eight thousand samples a second, in four periods of a thousand. -/
def smallStream : Runtime := ⟨8000, 4000, 1000, 4, 2, 2, 0x1000⟩

/-- The tick counter wraps while the stream plays. -/
def smallEvents : List Event :=
  [.pass 5, .prepare smallStream, .trigger .START, .pass 13, .callback, .pass 5, .pointer]

theorem smallStream_fits {clock : Clock} (hrate : clock.rate = 8000)
    (hbuffer : clock.buffer_size = 4000) (hperiod : clock.period_size = 1000)
    (hgap : clock.now - clock.base ≤ 13) (hticks : clock.ticks ≤ 13) : clock.Fits 100 := by
  have htotal : clock.updated.frac ≤ 26 * 8000 := by
    rw [Clock.frac_updated, Clock.frac, ← Nat.add_mul, hrate]
    exact Nat.mul_le_mul_right _ (Nat.add_le_add hticks hgap)
  refine ⟨⟨?_, ?_, ?_, ?_⟩, ?_, ?_⟩
  · simp [hrate]
  · simp [hperiod]
  · simp [hperiod, hbuffer]
  · simp [Clock.buffer, hbuffer, hrate]
  · rw [Clock.buffer, hrate, hbuffer]
    exact (Nat.add_le_add_right (Nat.mul_le_mul_right _ hgap) _).trans_lt (by decide)
  · exact ((Nat.sub_le _ _).trans (Nat.div_le_self _ _)).trans_lt (htotal.trans_lt (by decide))

theorem smallEvents_allowed : (Clock.created (-10)).AllowedRun 100 smallEvents := by
  refine ⟨trivial, ⟨rfl, ⟨by decide, by decide, by decide, by decide⟩⟩,
    ⟨rfl, ⟨by decide, by decide, by decide, by decide⟩⟩, trivial,
    ⟨smallStream_fits rfl rfl rfl (by decide) (by decide), _, rfl, by decide⟩, trivial,
    smallStream_fits rfl rfl rfl (by decide) (by decide), trivial⟩

theorem run_counts_smallStream :
    ∃ machine, run 100 id (2 ^ 32) (dummySystimerCreate (-10) smallStream) smallEvents =
        .ok machine ∧
      Keeps 100 id ((Clock.created (-10)).run 100 smallEvents) machine :=
  run_counts (by decide) (-10) smallStream smallEvents smallEvents_allowed le_rfl

section Run

variable {HZ : Uint} {virt_to_phys : Uint → Uint} {fuel : ℕ}

/-- Every time the timer fires, it has a period to report. -/
theorem run_periodElapsed (hHZ : 0 < HZ.toNat) (jiffies : Uint) (runtime : Runtime)
    (events : List Event)
    (hallowed : (Clock.created jiffies).AllowedRun HZ.toNat events) (hfuel : 2 ^ 32 ≤ fuel) :
    ∃ machine, run HZ virt_to_phys fuel (dummySystimerCreate jiffies runtime) events =
        .ok machine ∧
      machine.period_elapsed = events.count .callback := by
  obtain ⟨machine, hrun, hkeeps⟩ :=
    (@dummySystimerCreate_keeps HZ virt_to_phys jiffies runtime).run hHZ hallowed hfuel
  refine ⟨machine, hrun, ?_⟩
  have hintime : Clock.InTime HZ.toNat (Clock.created jiffies) :=
    ⟨Nat.zero_le _, Nat.zero_le _, fun _ hdue => absurd hdue (Option.not_mem_none _)⟩
  rw [hkeeps.period_elapsed, hintime.run hHZ hallowed]
  exact Nat.zero_add _

theorem run_periodElapsed_smallStream :
    ∃ machine, run 100 id (2 ^ 32) (dummySystimerCreate (-10) smallStream) smallEvents =
        .ok machine ∧
      machine.period_elapsed = 1 :=
  run_periodElapsed (by decide) (-10) smallStream smallEvents smallEvents_allowed le_rfl

end Run

end Tcb.DummySound
