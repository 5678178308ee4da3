import RangeBearing.Proofs.Polling

/-!
# Waits that end on time

A wait may begin anywhere in a millisecond, with any poll step, and go on over the end of the
readings.  It makes as few delays as bring the budget to pass, so it ends less than a poll step
after the budget is due.

* `Clock.due`        the microsecond at which a budget has elapsed;
* `Clock.Punctual`   when a wait ends, and what the clock shows then;
* `Clock.wait_punctual`.
-/

namespace RangeBearing

namespace Clock

/-- the first microsecond at which a budget has elapsed that has not elapsed yet -/
def due (c : Clock) (start budget : UInt32) : Nat :=
  (c.tick + (budget.toNat - (c.elapsed start).toNat)) * 1000

variable {c : Clock} {start budget step : UInt32} {n : Nat}

/-- a budget that has not elapsed yet passes at the microsecond at which it is due -/
theorem le_passed_iff (hlate : c.elapsed start < budget) :
    budget.toNat ≤ c.passed start step n ↔ c.due start budget ≤ (c.delayed step n).micros := by
  rw [UInt32.lt_iff_toNat_lt] at hlate
  have hfrom := tick_le_delayed c step n
  unfold passed due
  unfold tick at hfrom ⊢
  omega

/-- the first poll at which a budget has passed is less than a poll step late -/
theorem first_overshoot (first : IsLeast {k | budget.toNat ≤ c.passed start step k} n)
    (hlate : c.elapsed start < budget) :
    c.due start budget ≤ (c.delayed step n).micros ∧
      (c.delayed step n).micros < c.due start budget + step.toNat := by
  refine ⟨(le_passed_iff hlate).mp first.1, ?_⟩
  obtain ⟨k, rfl⟩ := Nat.exists_eq_add_one_of_ne_zero (Nat.ne_of_gt (pos_of_first first hlate))
  have hbefore : ¬ c.due start budget ≤ (c.delayed step k).micros := by
    rw [← le_passed_iff hlate]
    exact Nat.not_le_of_lt (passed_lt_of_lt first (Nat.lt_succ_self k))
  unfold delayed at hbefore ⊢
  dsimp only at hbefore ⊢
  rw [Nat.succ_mul]
  omega

/-- how a wait ends after `n` delays -/
structure Punctual (c : Clock) (start budget step : UInt32) (n : Nat) : Prop where
  ends : c.EndsAfter start budget step n
  /-- there is no delay when the budget has elapsed before -/
  atOnce : budget ≤ c.elapsed start → n = 0
  /-- there are no more delays than it takes for the budget to pass -/
  least : IsLeast {k | budget.toNat ≤ c.passed start step k} n
  /-- the clock shows what has passed, wherever it wraps around -/
  shown : ((c.delayed step n).elapsed start).toNat = c.passed start step n
  /-- the end comes less than a poll step late -/
  overshoot : c.elapsed start < budget →
    c.due start budget ≤ (c.delayed step n).micros ∧
      (c.delayed step n).micros < c.due start budget + step.toNat
  /-- and in the right millisecond if a poll step is no longer than that -/
  exact : c.elapsed start < budget → step.toNat ≤ 1000 →
    (c.delayed step n).elapsed start = budget

/-- a wait ends on time: on every clock, for every start, and for every budget with room for a
poll step between it and a turn of the readings -/
theorem wait_punctual (c : Clock) (start : UInt32) (hpos : 1 ≤ step.toNat)
    (hroom : budget.toNat + (step.toNat + 999) / 1000 ≤ UInt32.size) :
    ∃ n, c.wait start budget step = some (c.delayed step n) ∧
      c.Punctual start budget step n := by
  obtain ⟨n, first⟩ := exists_first c start budget hpos
  have hends := endsAfter_first first hroom
  have hshown := elapsed_of_le_first first hroom (Nat.le_refl n)
  refine ⟨n, wait_eq_some_iff.mpr ⟨n, hends, rfl⟩, ?_⟩
  exact {
    ends := hends
    atOnce := first_eq_zero first
    least := first
    shown := hshown
    overshoot := first_overshoot first
    exact := fun hlate hstep => by
      rw [← UInt32.toNat_inj, hshown]
      exact passed_first first hlate hstep }

/-- for example, three delays of seven milliseconds for a budget of sixteen, across the wrap -/
theorem wait_punctual_across_wrap :
    1 ≤ (7000 : UInt32).toNat ∧
    (16 : UInt32).toNat + ((7000 : UInt32).toNat + 999) / 1000 ≤ UInt32.size ∧
    wait ⟨4294967293250⟩ 4294967293 16 7000 = some ⟨4294967314250⟩ ∧
    Punctual ⟨4294967293250⟩ 4294967293 16 7000 3 := by
  have hpos : 1 ≤ (7000 : UInt32).toNat := by decide
  have hroom : (16 : UInt32).toNat + ((7000 : UInt32).toNat + 999) / 1000 ≤ UInt32.size := by
    decide
  obtain ⟨n, hwait, punctual⟩ := wait_punctual ⟨4294967293250⟩ 4294967293 hpos hroom
  have hlate : elapsed ⟨4294967293250⟩ 4294967293 < 16 := by decide
  have hdue : due ⟨4294967293250⟩ 4294967293 16 = 4294967309000 := by decide
  obtain ⟨hfrom, hto⟩ := punctual.overshoot hlate
  rw [hdue] at hfrom hto
  obtain rfl : n = 3 := by
    have hstep : (7000 : UInt32).toNat = 7000 := rfl
    unfold delayed at hfrom hto
    dsimp only at hfrom hto
    rw [hstep] at hfrom hto
    omega
  exact ⟨hpos, hroom, hwait, punctual⟩

end Clock

end RangeBearing
