import Mathlib.Tactic
import Tcb.Core.Run

/-!
# The timer of the sound driver

The driver plays a stream to a device that says nothing about its position.
It counts the position and the periods itself, from the ticks of the system
timer, in fractions of a sample.  The counts are brought up to date whenever
the timer fires or the position is asked for, so that they have to come out the
same however the time is divided.
-/

namespace Tcb.DummySound

/-- `unsigned int` and `unsigned long`. -/
abbrev Uint := BitVec 32

/-- What the driver uses of `struct snd_pcm_runtime`. -/
structure Runtime where
  rate : Uint
  buffer_size : Uint
  period_size : Uint
  periods : Uint
  channels : Uint
  format : Uint
  dma_area : Uint
  deriving DecidableEq

/-- `struct dummy_systimer_pcm`, without the timer. -/
structure DummySystimerPcm where
  base_time : Uint
  frac_pos : Uint
  frac_period_rest : Uint
  frac_buffer_size : Uint
  frac_period_size : Uint
  rate : Uint
  elapsed : ℕ

/-- The commands of `dummy_pcm_trigger`. -/
inductive Trigger
  | START
  | RESUME
  | STOP
  | SUSPEND
  | other (cmd : ℤ)
  deriving DecidableEq

/-- The tick counter, one open stream with its timer, and the registers of the
device.  `answered` has the positions that were given, the newest in front. -/
structure Machine where
  jiffies : Uint
  runtime : Runtime
  dpcm : DummySystimerPcm
  expires : Uint
  pending : Bool
  virt_io : ℕ → Uint
  period_elapsed : ℕ
  answered : List Uint

section Code

variable (HZ : Uint) (virt_to_phys : Uint → Uint)

/-- The position is brought back into the buffer. -/
def wrapLoop : ℕ → Uint → Uint → Run Empty Uint
  | 0, _, _ => Run.outOfFuel
  | fuel + 1, frac_buffer_size, frac_pos =>
      if frac_pos ≥ frac_buffer_size then
        wrapLoop fuel frac_buffer_size (frac_pos - frac_buffer_size)
      else .ok frac_pos

/-- The periods that are over are counted. -/
def periodLoop : ℕ → Uint → Uint → ℕ → Uint → Run Empty (ℕ × Uint)
  | 0, _, _, _, _ => Run.outOfFuel
  | fuel + 1, frac_period_size, delta, elapsed, frac_period_rest =>
      if frac_period_rest ≤ delta then
        if elapsed + 1 < 2 ^ 31 then
          periodLoop fuel frac_period_size delta (elapsed + 1)
            (frac_period_rest + frac_period_size)
        else Run.fault .overflow
      else .ok (elapsed, frac_period_rest)

def dummySystimerUpdate (fuel : ℕ) (jiffies : Uint) (dpcm : DummySystimerPcm) :
    Run Empty DummySystimerPcm :=
  let delta := jiffies - dpcm.base_time
  if delta = 0 then .ok dpcm
  else do
    let base_time := dpcm.base_time + delta
    let delta := delta * dpcm.rate
    let frac_pos ← wrapLoop fuel dpcm.frac_buffer_size (dpcm.frac_pos + delta)
    let (elapsed, frac_period_rest) ←
      periodLoop fuel dpcm.frac_period_size delta dpcm.elapsed dpcm.frac_period_rest
    .ok { dpcm with base_time, frac_pos, elapsed, frac_period_rest := frac_period_rest - delta }

/-- A division by zero has no meaning, and a timer that is pending may not be
added once more. -/
def dummySystimerRearm (machine : Machine) : Run Empty Machine := do
  let dpcm := machine.dpcm
  Run.require (dpcm.rate ≠ 0)
  Run.require (machine.pending = false)
  .ok { machine with
    expires := machine.jiffies + (dpcm.frac_period_rest + dpcm.rate - 1) / dpcm.rate
    pending := true }

def dummySystimerStart (machine : Machine) : Run Empty Machine :=
  dummySystimerRearm { machine with dpcm.base_time := machine.jiffies }

def dummySystimerStop (machine : Machine) : Machine := { machine with pending := false }

def dummySystimerPrepare (machine : Machine) : Machine :=
  let runtime := machine.runtime
  let frac_period_size := runtime.period_size * HZ
  { machine with
    dpcm :=
      { machine.dpcm with
        frac_pos := 0
        rate := runtime.rate
        frac_buffer_size := runtime.buffer_size * HZ
        frac_period_size
        frac_period_rest := frac_period_size
        elapsed := 0 } }

/-- The timer is not pending while its function runs. -/
def dummySystimerCallback (fuel : ℕ) (machine : Machine) : Run Empty Machine := do
  let dpcm ← dummySystimerUpdate fuel machine.jiffies machine.dpcm
  let machine ← dummySystimerRearm { machine with dpcm, pending := false }
  let elapsed := machine.dpcm.elapsed
  let machine := { machine with dpcm.elapsed := 0 }
  if elapsed ≠ 0 then .ok { machine with period_elapsed := machine.period_elapsed + 1 }
  else .ok machine

def dummySystimerPointer (fuel : ℕ) (machine : Machine) : Run Empty (Uint × Machine) := do
  let dpcm ← dummySystimerUpdate fuel machine.jiffies machine.dpcm
  .ok (dpcm.frac_pos / HZ, { machine with dpcm })

def iowrite32be (machine : Machine) (value : Uint) (register : ℕ) : Machine :=
  { machine with virt_io := Function.update machine.virt_io register value }

/-- What is written to the device before it is started. -/
def writeParameters (machine : Machine) : Machine :=
  let runtime := machine.runtime
  let machine := iowrite32be machine (virt_to_phys runtime.dma_area) 1
  let machine := iowrite32be machine runtime.periods 2
  let machine := iowrite32be machine runtime.period_size 3
  let machine := iowrite32be machine runtime.rate 5
  let machine := iowrite32be machine runtime.channels 6
  iowrite32be machine runtime.format 7

/-- `dummy_pcm_trigger`; the answer is `-EINVAL` for other commands. -/
def dummyPcmTrigger (machine : Machine) : Trigger → Run Empty Machine
  | .START | .RESUME => dummySystimerStart (iowrite32be (writeParameters virt_to_phys machine) 1 0)
  | .STOP | .SUSPEND => .ok (dummySystimerStop (iowrite32be machine 0 0))
  | .other _ => .ok machine

/-- `dummy_systimer_create`, and the device is off. -/
def dummySystimerCreate (jiffies : Uint) (runtime : Runtime) : Machine where
  jiffies
  runtime
  dpcm := ⟨0, 0, 0, 0, 0, 0, 0⟩
  expires := 0
  pending := false
  virt_io _ := 0
  period_elapsed := 0
  answered := []

/-! ## Runs -/

/-- Time passes, the stream is prepared with its parameters or triggered, the
position is asked for, or the timer fires. -/
inductive Event
  | pass (ticks : ℕ)
  | prepare (runtime : Runtime)
  | trigger (cmd : Trigger)
  | pointer
  | callback
  deriving DecidableEq

def step (fuel : ℕ) (machine : Machine) : Event → Run Empty Machine
  | .pass ticks => .ok { machine with jiffies := machine.jiffies + BitVec.ofNat 32 ticks }
  | .prepare runtime => .ok (dummySystimerPrepare HZ { machine with runtime })
  | .trigger cmd => dummyPcmTrigger virt_to_phys machine cmd
  | .pointer => do
      let (position, machine) ← dummySystimerPointer HZ fuel machine
      .ok { machine with answered := position :: machine.answered }
  | .callback => dummySystimerCallback fuel machine

def run (fuel : ℕ) (machine : Machine) (events : List Event) : Run Empty Machine :=
  events.foldlM (step HZ virt_to_phys fuel) machine

end Code

/-! ## The two loops -/

theorem wrapLoop_eq {size : Uint} (hsize : 0 < size.toNat) {fuel : ℕ} {pos : Uint}
    (hfuel : pos.toNat < fuel) :
    ∃ wrapped, wrapLoop fuel size pos = .ok wrapped ∧ wrapped.toNat = pos.toNat % size.toNat := by
  induction fuel generalizing pos with
  | zero => exact absurd hfuel (Nat.not_lt_zero _)
  | succ fuel ih =>
      rw [wrapLoop]
      by_cases hge : pos ≥ size
      · have hle : size.toNat ≤ pos.toNat := hge
        have hsub : (pos - size).toNat = pos.toNat - size.toNat := BitVec.toNat_sub_of_le hge
        obtain ⟨wrapped, hwrapped, hmod⟩ := @ih (pos - size) (by omega)
        refine ⟨wrapped, by rw [if_pos hge, hwrapped], ?_⟩
        rw [hmod, hsub, ← Nat.mod_eq_sub_mod hle]
      · have hlt : pos.toNat < size.toNat := BitVec.not_le.mp hge
        exact ⟨pos, by rw [if_neg hge], (Nat.mod_eq_of_lt hlt).symm⟩

/-- Each turn is for a period that is over, and no such period is left. -/
theorem periodLoop_eq {size delta : Uint} (hsize : 0 < size.toNat)
    (hroom : delta.toNat + size.toNat < 2 ^ 32) {fuel elapsed : ℕ} {rest : Uint}
    (hfuel : delta.toNat + size.toNat < fuel + rest.toNat)
    (hrest : rest.toNat ≤ delta.toNat + size.toNat)
    (hcount : elapsed + (delta.toNat + size.toNat - rest.toNat) / size.toNat < 2 ^ 31) :
    ∃ left, periodLoop fuel size delta elapsed rest =
        .ok (elapsed + (delta.toNat + size.toNat - rest.toNat) / size.toNat, left) ∧
      left.toNat = delta.toNat + size.toNat -
        (delta.toNat + size.toNat - rest.toNat) % size.toNat := by
  induction fuel generalizing elapsed rest with
  | zero => omega
  | succ fuel ih =>
      rw [periodLoop]
      by_cases hle : rest ≤ delta
      · have hle' : rest.toNat ≤ delta.toNat := hle
        have hadd : (rest + size).toNat = rest.toNat + size.toNat := by
          rw [BitVec.toNat_add]
          exact Nat.mod_eq_of_lt (by omega)
        have hgap : delta.toNat + size.toNat - rest.toNat =
            (delta.toNat + size.toNat - (rest + size).toNat) + size.toNat := by omega
        have hdiv : (delta.toNat + size.toNat - rest.toNat) / size.toNat =
            (delta.toNat + size.toNat - (rest + size).toNat) / size.toNat + 1 := by
          rw [hgap, Nat.add_div_right _ hsize]
        have hmod : (delta.toNat + size.toNat - rest.toNat) % size.toNat =
            (delta.toNat + size.toNat - (rest + size).toNat) % size.toNat := by
          rw [hgap, Nat.add_mod_right]
        rw [hdiv] at hcount ⊢
        have hnext : elapsed + 1 < 2 ^ 31 :=
          (Nat.add_le_add_left (Nat.le_add_left 1 _) elapsed).trans_lt hcount
        obtain ⟨left, hleft, heq⟩ :=
          @ih (elapsed + 1) (rest + size) (by omega) (by omega) (by omega)
        refine ⟨left, ?_, by rw [heq, hmod]⟩
        rw [if_pos hle, if_pos hnext, hleft, Nat.add_assoc, Nat.add_comm 1]
      · have hlt : delta.toNat < rest.toNat := BitVec.not_le.mp hle
        have hsmall : delta.toNat + size.toNat - rest.toNat < size.toNat := by omega
        refine ⟨rest, ?_, ?_⟩
        · rw [if_neg hle, Nat.div_eq_of_lt hsmall, Nat.add_zero]
        · rw [Nat.mod_eq_of_lt hsmall]
          omega

end Tcb.DummySound
