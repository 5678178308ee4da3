import Mathlib.Order.Bounds.Basic
import Mathlib.Tactic.Ring
import RangeBearing.Clock

/-!
# Polling a clock that wraps around

The reading of a clock is its number of milliseconds, its *tick*, modulo `2 ^ 32`.  A wait sees
the readings only, and what it tests need not grow from poll to poll.  The milliseconds that have
passed do grow.  As long as no poll step carries them from below the budget past a turn of the
readings, the wait ends with the first poll at which the budget has passed; with a poll step of a
millisecond at most no tick is skipped, so that it ends in the very tick that it waits for.

* `Clock.tick`               the milliseconds that have passed, without the wrap;
* `Clock.delayed`            the clock after some delays of a poll step;
* `Clock.EndsAfter`          the polls of a wait end after some delays;
* `Clock.wait_eq_some_iff`   a wait ends as its polls do, however many they are;
* `Clock.passed`             the milliseconds since the start of a wait, without the wrap;
* `Clock.endsAfter_first`    a wait ends with the first poll at which the budget has passed;
* `Clock.wait_tick`          and in the tick at which it has elapsed, or at once when that is over.
-/

namespace RangeBearing

namespace Clock

/-- the milliseconds that have passed -/
def tick (c : Clock) : Nat := c.micros / 1000

/-- the clock after some delays of a poll step -/
def delayed (c : Clock) (step : UInt32) (n : Nat) : Clock := ⟨c.micros + n * step.toNat⟩

/-- the polls end after `n` delays: there is one after each poll but the last -/
structure EndsAfter (c : Clock) (start budget step : UInt32) (n : Nat) : Prop where
  again : ∀ i < n, (c.delayed step i).elapsed start < budget
  last : budget ≤ (c.delayed step n).elapsed start

/-- the milliseconds since `start` after some delays, without the wrap: those that a wait begins
with and those that the clock has moved on by since then -/
def passed (c : Clock) (start step : UInt32) (n : Nat) : Nat :=
  (c.delayed step n).tick - c.tick + (c.elapsed start).toNat

variable {c d : Clock} {start budget step : UInt32} {s n : Nat}

theorem reading_eq (c : Clock) : c.reading = .ofNat c.tick := rfl

theorem tick_afterMs (c : Clock) (ms : UInt32) : (c.afterMs ms).tick = c.tick + ms.toNat := by
  unfold tick afterMs
  dsimp only
  omega

/-- the elapsed time since a tick, less than a full turn of the readings later -/
theorem elapsed_toNat (hs : s ≤ c.tick) (hturn : c.tick - s < UInt32.size) :
    (c.elapsed (.ofNat s)).toNat = c.tick - s := by
  have hsize : UInt32.size = 4294967296 := rfl
  rw [hsize] at hturn
  unfold elapsed
  rw [reading_eq, UInt32.toNat_sub]
  simp only [UInt32.toNat_ofNat']
  omega

/-! ## polls without an end to their number -/

theorem delayed_zero (c : Clock) (step : UInt32) : c.delayed step 0 = c := by
  unfold delayed
  rw [Nat.zero_mul, Nat.add_zero]

theorem delayed_succ (c : Clock) (step : UInt32) (n : Nat) :
    c.delayed step (n + 1) = (c.afterUs step).delayed step n := by
  unfold delayed afterUs
  rw [Nat.succ_mul, Nat.add_assoc, Nat.add_comm (n * step.toNat)]

theorem endsAfter_zero_iff : c.EndsAfter start budget step 0 ↔ budget ≤ c.elapsed start := by
  constructor
  · intro h
    have hover := h.last
    rwa [delayed_zero] at hover
  · intro h
    exact ⟨nofun, by rwa [delayed_zero]⟩

theorem endsAfter_succ_iff : c.EndsAfter start budget step (n + 1) ↔
    c.elapsed start < budget ∧ (c.afterUs step).EndsAfter start budget step n := by
  constructor
  · intro h
    have hfirst := h.again 0 (Nat.zero_lt_succ n)
    rw [delayed_zero] at hfirst
    refine ⟨hfirst, fun i hi => ?_, ?_⟩
    · rw [← delayed_succ]
      exact h.again (i + 1) (Nat.succ_lt_succ hi)
    · rw [← delayed_succ]
      exact h.last
  · rintro ⟨hfirst, h⟩
    refine ⟨fun i hi => ?_, by rw [delayed_succ]; exact h.last⟩
    cases i with
    | zero => rwa [delayed_zero]
    | succ i =>
      rw [delayed_succ]
      exact h.again i (Nat.lt_of_succ_lt_succ hi)

theorem poll_eq_some_iff {polls : Nat} : poll start budget step polls c = some d ↔
    ∃ n < polls, c.EndsAfter start budget step n ∧ d = c.delayed step n := by
  induction polls generalizing c with
  | zero => exact iff_of_false nofun fun ⟨n, hn, _⟩ => Nat.not_lt_zero n hn
  | succ polls ih =>
    unfold poll
    by_cases hpast : c.elapsed start < budget
    · rw [if_pos hpast, ih]
      constructor
      · rintro ⟨n, hn, hends, rfl⟩
        exact ⟨n + 1, Nat.succ_lt_succ hn, endsAfter_succ_iff.mpr ⟨hpast, hends⟩,
          (delayed_succ c step n).symm⟩
      · rintro ⟨n, hn, hends, rfl⟩
        cases n with
        | zero => exact absurd hpast (UInt32.not_lt.mpr (endsAfter_zero_iff.mp hends))
        | succ n =>
          exact ⟨n, Nat.lt_of_succ_lt_succ hn, (endsAfter_succ_iff.mp hends).2,
            delayed_succ c step n⟩
    · rw [if_neg hpast, Option.some_inj]
      constructor
      · rintro rfl
        exact ⟨0, Nat.zero_lt_succ polls, endsAfter_zero_iff.mpr (UInt32.not_lt.mp hpast),
          (delayed_zero c step).symm⟩
      · rintro ⟨n, -, hends, rfl⟩
        cases n with
        | zero => exact (delayed_zero c step).symm
        | succ n => exact absurd (endsAfter_succ_iff.mp hends).1 hpast

/-- a period of delays later the clock reads the same -/
theorem reading_delayed_period (c : Clock) (step : UInt32) (n : Nat) :
    (c.delayed step (n + period)).reading = (c.delayed step n).reading := by
  have hperiod : period = UInt32.size * 1000 := rfl
  have hturns : c.micros + (n + period) * step.toNat =
      c.micros + n * step.toNat + 1000 * (step.toNat * UInt32.size) := by
    rw [hperiod]
    ring
  unfold delayed reading
  rw [← UInt32.toNat_inj, UInt32.toNat_ofNat', UInt32.toNat_ofNat', hturns,
    Nat.add_mul_div_left _ _ (by decide), UInt32.size, Nat.add_mul_mod_self_right]

/-- so polls that end do so within a period -/
theorem EndsAfter.lt_period (h : c.EndsAfter start budget step n) : n < period := by
  by_contra hle
  obtain ⟨i, rfl⟩ := Nat.exists_eq_add_of_le' (Nat.le_of_not_lt hle)
  have hagain := h.again i (Nat.lt_add_of_pos_right (by decide))
  have hover := h.last
  unfold elapsed at hagain hover
  rw [reading_delayed_period] at hover
  exact absurd hagain (UInt32.not_lt.mpr hover)

/-- a wait ends as its polls do, and never if they do not end -/
theorem wait_eq_some_iff : c.wait start budget step = some d ↔
    ∃ n, c.EndsAfter start budget step n ∧ d = c.delayed step n := by
  unfold wait
  rw [poll_eq_some_iff]
  constructor
  · rintro ⟨n, -, h⟩
    exact ⟨n, h⟩
  · rintro ⟨n, hends, hd⟩
    exact ⟨n, Nat.lt_succ_of_lt hends.lt_period, hends, hd⟩

/-! ## the milliseconds that have passed -/

theorem passed_zero (c : Clock) (start step : UInt32) :
    c.passed start step 0 = (c.elapsed start).toNat := by
  unfold passed
  rw [delayed_zero, Nat.sub_self, Nat.zero_add]

theorem tick_le_delayed (c : Clock) (step : UInt32) (n : Nat) :
    c.tick ≤ (c.delayed step n).tick :=
  Nat.div_le_div_right (Nat.le_add_right _ _)

/-- a poll step brings no more milliseconds than it has, those begun included -/
theorem passed_succ_le (c : Clock) (start step : UInt32) (n : Nat) :
    c.passed start step (n + 1) ≤ c.passed start step n + (step.toNat + 999) / 1000 := by
  have hfrom := tick_le_delayed c step n
  have hstep : (c.delayed step (n + 1)).tick ≤
      (c.delayed step n).tick + (step.toNat + 999) / 1000 := by
    unfold tick delayed
    dsimp only
    rw [Nat.succ_mul]
    omega
  unfold passed
  omega

/-- a poll shows the milliseconds that have passed, modulo a turn of the readings -/
theorem elapsed_delayed (c : Clock) (start step : UInt32) (n : Nat) :
    ((c.delayed step n).elapsed start).toNat = c.passed start step n % UInt32.size := by
  have hsize : UInt32.size = 4294967296 := rfl
  have hfrom := tick_le_delayed c step n
  have hstart := start.toNat_lt_size
  rw [hsize] at hstart ⊢
  unfold passed elapsed
  rw [reading_eq, reading_eq, UInt32.toNat_sub, UInt32.toNat_sub, UInt32.toNat_ofNat',
    UInt32.toNat_ofNat']
  omega

/-- some number of delays brings any budget to pass -/
theorem exists_le_passed (c : Clock) (start budget : UInt32) (hpos : 1 ≤ step.toNat) :
    ∃ n, budget.toNat ≤ c.passed start step n := by
  refine ⟨1000 * budget.toNat, ?_⟩
  have hlong : 1000 * budget.toNat ≤ 1000 * budget.toNat * step.toNat :=
    Nat.le_mul_of_pos_right _ hpos
  unfold passed tick delayed
  dsimp only
  omega

/-- so there is a first poll at which it has passed -/
theorem exists_first (c : Clock) (start budget : UInt32) (hpos : 1 ≤ step.toNat) :
    ∃ n, IsLeast {k | budget.toNat ≤ c.passed start step k} n := by
  have hpasses := exists_le_passed c start budget hpos
  exact ⟨Nat.find hpasses, Nat.isLeast_find hpasses⟩

/-! ## the first poll at which the budget has passed -/

section
variable (first : IsLeast {k | budget.toNat ≤ c.passed start step k} n)
include first

theorem passed_lt_of_lt {i : Nat} (hi : i < n) : c.passed start step i < budget.toNat :=
  Nat.lt_of_not_le fun hpassed => Nat.not_le_of_lt hi (first.2 hpassed)

theorem pos_of_first (hlate : c.elapsed start < budget) : 0 < n := by
  refine Nat.pos_of_ne_zero fun hzero => ?_
  have hpassed : budget.toNat ≤ c.passed start step n := first.1
  rw [hzero, passed_zero, ← UInt32.le_iff_toNat_le] at hpassed
  exact UInt32.not_lt.mpr hpassed hlate

/-- the milliseconds have not come round since the poll before -/
theorem passed_lt_size (hroom : budget.toNat + (step.toNat + 999) / 1000 ≤ UInt32.size) :
    c.passed start step n < UInt32.size := by
  cases n with
  | zero =>
    rw [passed_zero]
    exact UInt32.toNat_lt_size _
  | succ n =>
    have hlast := passed_lt_of_lt first (Nat.lt_succ_self n)
    have hstep := passed_succ_le c start step n
    omega

/-- so up to there the polls show what has passed -/
theorem elapsed_of_le_first (hroom : budget.toNat + (step.toNat + 999) / 1000 ≤ UInt32.size)
    {i : Nat} (hi : i ≤ n) : ((c.delayed step i).elapsed start).toNat = c.passed start step i := by
  rw [elapsed_delayed]
  refine Nat.mod_eq_of_lt ?_
  rcases Nat.lt_or_eq_of_le hi with hlt | rfl
  · exact Nat.lt_trans (passed_lt_of_lt first hlt) budget.toNat_lt_size
  · exact passed_lt_size first hroom

theorem endsAfter_first (hroom : budget.toNat + (step.toNat + 999) / 1000 ≤ UInt32.size) :
    c.EndsAfter start budget step n := by
  constructor
  · intro i hi
    rw [UInt32.lt_iff_toNat_lt, elapsed_of_le_first first hroom (Nat.le_of_lt hi)]
    exact passed_lt_of_lt first hi
  · rw [UInt32.le_iff_toNat_le, elapsed_of_le_first first hroom (Nat.le_refl n)]
    exact first.1

theorem first_eq_zero (hover : budget ≤ c.elapsed start) : n = 0 := by
  have hnone : budget.toNat ≤ c.passed start step 0 := by rwa [passed_zero]
  exact Nat.le_zero.mp (first.2 hnone)

theorem passed_first (hlate : c.elapsed start < budget) (hstep : step.toNat ≤ 1000) :
    c.passed start step n = budget.toNat := by
  have hover : budget.toNat ≤ c.passed start step n := first.1
  obtain ⟨k, rfl⟩ := Nat.exists_eq_add_one_of_ne_zero (Nat.ne_of_gt (pos_of_first first hlate))
  have hbefore := passed_lt_of_lt first (Nat.lt_succ_self k)
  have hnext := passed_succ_le c start step k
  omega

end

/-- a wait for a budget since tick `s` ends in the tick at which it has elapsed, and at once when
that is over -/
theorem wait_tick (budget : UInt32) (hpos : 0 < step.toNat) (hstep : step.toNat ≤ 1000)
    (hs : s ≤ c.tick) (hturn : c.tick - s < UInt32.size) :
    ∃ d, c.wait (.ofNat s) budget step = some d ∧ d.tick = max c.tick (s + budget.toNat) := by
  have hroom : budget.toNat + (step.toNat + 999) / 1000 ≤ UInt32.size := by
    have := budget.toNat_lt_size
    omega
  have helapsed := elapsed_toNat hs hturn
  obtain ⟨n, first⟩ := exists_first c (.ofNat s) budget hpos
  refine ⟨c.delayed step n, wait_eq_some_iff.mpr ⟨n, endsAfter_first first hroom, rfl⟩, ?_⟩
  by_cases hlate : c.elapsed (.ofNat s) < budget
  · have hpassed := passed_first first hlate hstep
    have hfrom := tick_le_delayed c step n
    rw [UInt32.lt_iff_toNat_lt, helapsed] at hlate
    unfold passed at hpassed
    omega
  · have hover := UInt32.not_lt.mp hlate
    rw [first_eq_zero first hover, delayed_zero]
    rw [UInt32.le_iff_toNat_le, helapsed] at hover
    omega

end Clock

end RangeBearing
