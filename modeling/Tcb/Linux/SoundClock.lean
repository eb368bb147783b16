import Tcb.Linux.DummySound

/-!
# The time that a stream has played

The counts of the sound driver are remainders that wrap around.  Here they are
kept whole: the ticks that were counted, the tick of the last count, and the
periods that were reported.  What the position is and when a period is over
follow from them by one multiplication and one division.
-/

namespace Tcb.DummySound

/-! ## The time that was counted -/

/-- What the counts stand for: the ticks since the stream was prepared that
were counted, and when they were.  `told` is the number of periods that the
timer has reported, in as many as `reports` calls. -/
structure Clock where
  rate : ℕ
  buffer_size : ℕ
  period_size : ℕ
  now : ℕ
  base : ℕ
  ticks : ℕ
  told : ℕ
  due : Option ℕ
  reports : ℕ
  answered : List ℕ

namespace Clock

variable (HZ : ℕ) (clock : Clock)

/-- The position in all, in fractions of a sample. -/
def frac : ℕ := clock.ticks * clock.rate

def buffer : ℕ := clock.buffer_size * HZ

def period : ℕ := clock.period_size * HZ

/-- The periods that are over. -/
def passed : ℕ := clock.frac / clock.period HZ

def updated : Clock :=
  { clock with ticks := clock.ticks + (clock.now - clock.base), base := clock.now }

/-- The number of ticks to the end of the period. -/
def wait : ℕ :=
  (clock.period HZ - clock.frac % clock.period HZ + clock.rate - 1) / clock.rate

def armed : Clock := { clock with due := some (clock.now + clock.wait HZ) }

def prepared (runtime : Runtime) : Clock :=
  { clock with
    rate := runtime.rate.toNat
    buffer_size := runtime.buffer_size.toNat
    period_size := runtime.period_size.toNat
    ticks := 0
    told := 0 }

/-- The periods that are over are reported. -/
def reported : Clock :=
  { clock with
    told := clock.passed HZ
    reports := if clock.told < clock.passed HZ then clock.reports + 1 else clock.reports }

def step : Event → Clock
  | .pass ticks => { clock with now := clock.now + ticks }
  | .prepare runtime => clock.prepared runtime
  | .trigger .START | .trigger .RESUME => { clock with base := clock.now }.armed HZ
  | .trigger .STOP | .trigger .SUSPEND => { clock with due := none }
  | .trigger (.other _) => clock
  | .pointer =>
      { clock.updated with
        answered := clock.updated.frac / HZ % clock.buffer_size :: clock.answered }
  | .callback => (clock.updated.armed HZ).reported HZ

def run (events : List Event) : Clock := events.foldl (step HZ) clock

/-- The parameters of the stream fit into the counters. -/
structure Valid : Prop where
  rate : 0 < clock.rate
  period_size : 0 < clock.period_size
  buffer_size : clock.period_size ≤ clock.buffer_size
  counters : clock.buffer HZ + clock.rate < 2 ^ 32

/-- So do the ticks since the last update. -/
structure Fits : Prop where
  valid : clock.Valid HZ
  ticks : (clock.now - clock.base) * clock.rate + clock.buffer HZ < 2 ^ 32
  elapsed : clock.updated.passed HZ - clock.told < 2 ^ 31

/-- What the sound system and the timer do: a stream is prepared and started
when it does not play, and the timer fires when it is due. -/
def Allowed : Event → Prop
  | .pass _ => True
  | .prepare runtime => clock.due = none ∧ (clock.prepared runtime).Valid HZ
  | .trigger .START | .trigger .RESUME => clock.due = none ∧ clock.Valid HZ
  | .trigger _ => True
  | .pointer => clock.Fits HZ
  | .callback => clock.Fits HZ ∧ ∃ due ∈ clock.due, due ≤ clock.now

def AllowedRun : Clock → List Event → Prop
  | _, [] => True
  | clock, event :: events => clock.Allowed HZ event ∧ AllowedRun (clock.step HZ event) events

/-- A stream that has just been opened. -/
def created (jiffies : Uint) : Clock where
  rate := 0
  buffer_size := 0
  period_size := 0
  now := jiffies.toNat
  base := 0
  ticks := 0
  told := 0
  due := none
  reports := 0
  answered := []

end Clock

section Update

variable {HZ : ℕ} {clock : Clock}

theorem Clock.Valid.period_pos (hvalid : clock.Valid HZ) (hHZ : 0 < HZ) : 0 < clock.period HZ :=
  Nat.mul_pos hvalid.period_size hHZ

theorem Clock.Valid.period_le (hvalid : clock.Valid HZ) : clock.period HZ ≤ clock.buffer HZ :=
  Nat.mul_le_mul_right HZ hvalid.buffer_size

theorem Clock.frac_updated (clock : Clock) :
    clock.updated.frac = clock.frac + (clock.now - clock.base) * clock.rate :=
  Nat.add_mul _ _ _

/-- The periods and the part of one that have passed after more time. -/
theorem passed_add (frac delta : ℕ) {period : ℕ} (hperiod : 0 < period) :
    (frac + delta) / period = frac / period + (delta + frac % period) / period ∧
      (frac + delta) % period = (delta + frac % period) % period := by
  have hsplit : frac + delta = (delta + frac % period) + period * (frac / period) := by
    have := Nat.mod_add_div frac period
    omega
  constructor
  · rw [hsplit, Nat.add_mul_div_left _ _ hperiod, Nat.add_comm]
  · rw [hsplit, Nat.add_mul_mod_self_left]

end Update

/-! ## No drift -/

namespace Clock

variable {HZ : ℕ} {clock : Clock}

/-- The ticks that an update would count in all. -/
def total (clock : Clock) : ℕ := clock.ticks + (clock.now - clock.base)

/-- Enough time passes before the timer fires for one more period to be
over. -/
structure InTime (HZ : ℕ) (clock : Clock) : Prop where
  base_le : clock.base ≤ clock.now
  told_le : clock.told ≤ clock.passed HZ
  due : ∀ due ∈ clock.due,
    0 < clock.period HZ ∧
      (clock.told + 1) * clock.period HZ ≤ (clock.ticks + (due - clock.base)) * clock.rate

theorem wait_enough (hvalid : clock.Valid HZ) (hHZ : 0 < HZ) :
    (clock.passed HZ + 1) * clock.period HZ ≤ (clock.ticks + clock.wait HZ) * clock.rate := by
  have hphase := Nat.mod_lt clock.frac (hvalid.period_pos hHZ)
  have hsplit := Nat.div_add_mod' clock.frac (clock.period HZ)
  have hwait : clock.period HZ - clock.frac % clock.period HZ ≤ clock.wait HZ * clock.rate := by
    have hdiv := Nat.div_add_mod' (clock.period HZ - clock.frac % clock.period HZ +
      clock.rate - 1) clock.rate
    have hmod := Nat.mod_lt (clock.period HZ - clock.frac % clock.period HZ +
      clock.rate - 1) hvalid.rate
    rw [wait]
    omega
  calc (clock.passed HZ + 1) * clock.period HZ
      = clock.passed HZ * clock.period HZ + clock.period HZ := Nat.succ_mul _ _
    _ ≤ clock.frac + clock.wait HZ * clock.rate := by rw [passed]; omega
    _ = (clock.ticks + clock.wait HZ) * clock.rate := (Nat.add_mul _ _ _).symm

/-- An update keeps what is due. -/
theorem InTime.updated (hintime : InTime HZ clock) : InTime HZ clock.updated := by
  refine ⟨le_rfl, hintime.told_le.trans (Nat.div_le_div_right ?_), ?_⟩
  · exact Nat.mul_le_mul_right _ (Nat.le_add_right _ _)
  · intro due hdue
    obtain ⟨hperiod, hle⟩ := hintime.due due hdue
    refine ⟨hperiod, hle.trans (Nat.mul_le_mul_right _ ?_)⟩
    have := hintime.base_le
    change _ ≤ clock.ticks + (clock.now - clock.base) + (due - clock.now)
    omega

theorem InTime.armed (hbase : clock.base = clock.now) (htold : clock.told ≤ clock.passed HZ)
    (hvalid : clock.Valid HZ) (hHZ : 0 < HZ) : InTime HZ (clock.armed HZ) := by
  refine ⟨hbase.le, htold, ?_⟩
  rintro due hdue
  obtain rfl := Option.some.inj hdue
  refine ⟨hvalid.period_pos hHZ, ?_⟩
  have hwait : clock.now + clock.wait HZ - (clock.armed HZ).base = clock.wait HZ := by
    change clock.now + clock.wait HZ - clock.base = clock.wait HZ
    omega
  rw [hwait]
  exact (Nat.mul_le_mul_right _ (Nat.succ_le_succ htold)).trans (wait_enough hvalid hHZ)

/-- When the timer is due, a period is over. -/
theorem InTime.told_lt (hintime : InTime HZ clock) {due : ℕ} (hdue : due ∈ clock.due)
    (hnow : due ≤ clock.now) : clock.updated.told < clock.updated.passed HZ := by
  obtain ⟨hperiod, hle⟩ := hintime.due due hdue
  refine (Nat.le_div_iff_mul_le hperiod).mpr (hle.trans (Nat.mul_le_mul_right _ ?_))
  exact Nat.add_le_add_left (Nat.sub_le_sub_right hnow _) _

theorem InTime.step (hintime : InTime HZ clock) (hHZ : 0 < HZ) {event : Event}
    (hallowed : clock.Allowed HZ event) :
    InTime HZ (clock.step HZ event) ∧
      (clock.step HZ event).reports = clock.reports + [event].count .callback := by
  cases event with
  | pass ticks =>
      exact ⟨⟨hintime.base_le.trans (Nat.le_add_right _ _), hintime.told_le, hintime.due⟩, rfl⟩
  | prepare runtime =>
      refine ⟨⟨hintime.base_le, Nat.zero_le _, fun due hdue => ?_⟩, rfl⟩
      exact absurd (hallowed.1.symm.trans hdue) (Option.some_ne_none due).symm
  | trigger cmd =>
      have hstarted (hvalid : clock.Valid HZ) :
          InTime HZ ({ clock with base := clock.now }.armed HZ) :=
        InTime.armed rfl hintime.told_le ⟨hvalid.1, hvalid.2, hvalid.3, hvalid.4⟩ hHZ
      have hstopped : InTime HZ { clock with due := none } :=
        ⟨hintime.base_le, hintime.told_le, fun _ hdue => absurd hdue (Option.not_mem_none _)⟩
      cases cmd with
      | START => exact ⟨hstarted hallowed.2, rfl⟩
      | RESUME => exact ⟨hstarted hallowed.2, rfl⟩
      | STOP => exact ⟨hstopped, rfl⟩
      | SUSPEND => exact ⟨hstopped, rfl⟩
      | other cmd => exact ⟨hintime, rfl⟩
  | pointer =>
      exact ⟨⟨hintime.updated.base_le, hintime.updated.told_le, hintime.updated.due⟩, rfl⟩
  | callback =>
      obtain ⟨hfits, due, hdue, hnow⟩ := hallowed
      have hvalid := hfits.valid
      constructor
      · exact @InTime.armed HZ (clock.updated.reported HZ) rfl le_rfl
          ⟨hvalid.1, hvalid.2, hvalid.3, hvalid.4⟩ hHZ
      · exact if_pos (hintime.told_lt hdue hnow)

theorem InTime.run (hintime : InTime HZ clock) (hHZ : 0 < HZ) {events : List Event}
    (hallowed : clock.AllowedRun HZ events) :
    (clock.run HZ events).reports = clock.reports + events.count .callback := by
  induction events generalizing clock with
  | nil => rfl
  | cons event events ih =>
      obtain ⟨hnext, hreports⟩ := hintime.step hHZ hallowed.1
      have hrest := ih hnext hallowed.2
      rw [hreports, Nat.add_assoc, ← List.count_append, List.singleton_append] at hrest
      exact hrest

end Clock

end Tcb.DummySound
