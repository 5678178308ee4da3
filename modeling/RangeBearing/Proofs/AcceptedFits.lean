import RangeBearing.Assessment
import RangeBearing.Proofs.Cycles
import RangeBearing.Proofs.Predictions

/-!
# Fits that are accepted

The rejection test asks whether the innovation is above the limit, which no test on `nan` would
notice.  There is no such innovation: a norm that is positive is not so small that a cell divided
by it overflows, and the sum of magnitudes of numbers is a number.

* `Innovation.deviation`            the sum of the differences, cell by cell;
* `Innovation.deviation_nonneg`     it is a number, whatever the pose;
* `Assessment.Decides`              what scoring a pose decides;
* `Assessment.score_decides`        for every matrix, energy and pose.
-/

namespace RangeBearing

open Binary

namespace Innovation

variable {measured expected : Grid Binary32}

/-- the sum of the absolute differences of two grids, each divided by its norm -/
def deviation (measured expected : Grid Binary32) : Binary32 :=
  Grid.pairs.foldl (fun sum (e, s) =>
    sum + (measured.get e s / norm measured - expected.get e s / norm expected).abs) 0

theorem values_eq (g : Grid Binary32) : g.values = Grid.pairs.map fun (e, s) => g.get e s := by
  unfold Grid.values Grid.cells
  rw [List.map_map]
  rfl

theorem between_eq (measured expected : Grid Binary32) : between measured expected =
    if 0 < norm measured then
      if 0 < norm expected then .ok (deviation measured expected)
      else .error (.model .darkPrediction)
    else .error (.model .darkMeasurement) := by
  unfold between
  dsimp only
  rw [values_eq, values_eq, List.zip_map', List.foldl_map]
  by_cases ha : 0 < norm measured
  · by_cases hb : 0 < norm expected
    · rw [if_neg (not_not.mpr ha), if_neg (not_not.mpr hb), if_pos ha, if_pos hb]
      rfl
    · rw [if_neg (not_not.mpr ha), if_pos hb, if_pos ha, if_neg hb]
      rfl
  · rw [if_pos ha, if_neg ha]
    rfl

/-- less than the root of every positive number -/
def leastRoot : Binary32 := 1e-23

theorem leastRoot_le (h : 0 < norm expected) : leastRoot ≤ norm expected := by
  have hroot : leastRoot ≤ (ofCode false 1).sqrt := by decide +kernel
  have hleast := least_le (pos_of_sqrt_pos h) (by decide)
  exact Binary.le_trans hroot (sqrt_mono (by decide) hleast (by decide))

theorem difference_nonneg {m a x b : Binary32} (hm : m.isFinite) (ha : 0 < a)
    (hx : x.Between 0 3300) (hb : leastRoot ≤ b) : 0 ≤ (m / a - x / b).abs := by
  have hmeasured : m / a ≠ nan :=
    div_ne_nan hm (ne_nan_right (Binary.le_of_lt ha)) (value_pos ha).ne'
  -- one finite quotient is enough, the other one may overflow
  have hexpected := hx.div_of_le hb (by decide) (by decide)
  exact nonneg_abs (sub_finite_ne_nan hmeasured hexpected.isFinite)

theorem foldl_nonneg {α : Type} {f : α → Binary32} (l : List α) {init : Binary32}
    (hinit : 0 ≤ init) (hf : ∀ a, 0 ≤ f a) : 0 ≤ l.foldl (fun sum a => sum + f a) init := by
  induction l generalizing init with
  | nil => exact hinit
  | cons a l ih => exact ih (nonneg_add hinit (hf a) (by decide))

theorem deviation_nonneg (hm : ∀ e s, (measured.get e s).isFinite)
    (hx : ∀ e s, (expected.get e s).Between 0 3300) (ha : 0 < norm measured)
    (hb : 0 < norm expected) : 0 ≤ deviation measured expected :=
  foldl_nonneg Grid.pairs (by decide) fun (e, s) =>
    difference_nonneg (hm e s) ha (hx e s) (leastRoot_le hb)

end Innovation

namespace Assessment

open Controller

variable {c : Config} {m : Brightness} {energy : Int32} {pose : Pose} {a : Assessment}

/-- the cells expected at the range that would be published -/
def expectation (c : Config) (pose : Pose) : Grid Binary32 :=
  Prediction.grid (max pose.range c.leastRange) pose.bearing pose.heading

/-- the distance of a matrix from what a pose predicts -/
def innovationOf (c : Config) (m : Brightness) (pose : Pose) : Binary32 :=
  Innovation.deviation m.numbers (expectation c pose)

/-- both matrices have a direction to compare -/
def Comparable (c : Config) (m : Brightness) (pose : Pose) : Prop :=
  0 < Innovation.norm m.numbers ∧ 0 < Innovation.norm (expectation c pose)

theorem innovationOf_nonneg (h : Comparable c m pose) : 0 ≤ innovationOf c m pose := by
  refine Innovation.deviation_nonneg ?_ (Prediction.grid_moderate _ _ _) h.1 h.2
  intro e s
  unfold Brightness.numbers
  rw [Grid.get_map]
  exact Brightness.number_isFinite _

def ofInnovation (c : Config) (energy : Int32) (pose : Pose) (innovation : Binary32) :
    Assessment :=
  ⟨max pose.range c.leastRange, innovation, trust c energy innovation⟩

theorem between_of_comparable (h : Comparable c m pose) :
    Innovation.between m.numbers (expectation c pose) = .ok (innovationOf c m pose) := by
  rw [Innovation.between_eq, if_pos h.1, if_pos h.2]
  rfl

theorem between_of_not_comparable (h : ¬ Comparable c m pose) :
    ∃ cause, Innovation.between m.numbers (expectation c pose) = .error (.model cause) := by
  rw [Innovation.between_eq]
  by_cases hm : 0 < Innovation.norm m.numbers
  · rw [if_pos hm, if_neg fun hx => h ⟨hm, hx⟩]
    exact ⟨_, rfl⟩
  · rw [if_neg hm]
    exact ⟨_, rfl⟩

/-- the pose does not fit, or it fits, or there is nothing to compare -/
theorem score_cases (c : Config) (m : Brightness) (energy : Int32) (pose : Pose) :
    (Comparable c m pose ∧ c.rejectAbove < innovationOf c m pose ∧
        score c m energy pose = .error (.poorFit (innovationOf c m pose) c.rejectAbove)) ∨
      (Comparable c m pose ∧ ¬ c.rejectAbove < innovationOf c m pose ∧
        score c m energy pose = .ok (ofInnovation c energy pose (innovationOf c m pose))) ∨
      ¬ Comparable c m pose ∧ ∃ cause, score c m energy pose = .error (.model cause) := by
  unfold score
  dsimp only
  rw [← expectation]
  by_cases h : Comparable c m pose
  · rw [between_of_comparable h]
    by_cases hreject : c.rejectAbove < innovationOf c m pose
    · exact .inl ⟨h, hreject, if_pos hreject⟩
    · exact .inr (.inl ⟨h, hreject, if_neg hreject⟩)
  · obtain ⟨cause, hbetween⟩ := between_of_not_comparable h
    rw [hbetween]
    exact .inr (.inr ⟨h, cause, rfl⟩)

theorem eq_of_score_poorFit {innovation limit : Binary32}
    (h : score c m energy pose = .error (.poorFit innovation limit)) :
    innovation = innovationOf c m pose ∧ limit = c.rejectAbove ∧ limit < innovation := by
  rcases score_cases c m energy pose with ⟨-, hreject, hscore⟩ | ⟨-, -, hscore⟩ | ⟨-, cause, hscore⟩
  · rw [hscore] at h
    cases h
    exact ⟨rfl, rfl, hreject⟩
  · rw [hscore] at h
    cases h
  · rw [hscore] at h
    cases h

theorem score_eq_ok_iff : score c m energy pose = .ok a ↔ Comparable c m pose ∧
    ¬ c.rejectAbove < innovationOf c m pose ∧
      a = ofInnovation c energy pose (innovationOf c m pose) := by
  rcases score_cases c m energy pose with
    ⟨-, hreject, hscore⟩ | ⟨hcomparable, hfit, hscore⟩ | ⟨hdark, cause, hscore⟩
  · rw [hscore]
    exact iff_of_false nofun fun h => h.2.1 hreject
  · rw [hscore]
    exact ⟨fun h => ⟨hcomparable, hfit, (Except.ok.inj h).symm⟩, fun h => congrArg _ h.2.2.symm⟩
  · rw [hscore]
    exact iff_of_false nofun fun h => hdark h.1

/-! ## what an accepted pose publishes -/

theorem trust_cases (c : Config) (energy : Int32) (innovation : Binary32) :
    (trust c energy innovation).isFinite ∧ 0 ≤ trust c energy innovation ∨
      trust c energy innovation = c.fallbackConfidence := by
  unfold trust
  extract_lets raw cut
  by_cases h : ¬ cut.isFinite ∨ cut < 0
  · rw [if_pos h]
    exact .inr rfl
  · rw [if_neg h]
    obtain ⟨hfinite, hsign⟩ := not_or.mp h
    have hfinite := not_not.mp hfinite
    exact .inl ⟨hfinite, Binary.le_of_not_lt zero_ne_nan (ne_nan_of_isFinite hfinite) hsign⟩

/-- what holds of the assessment of an accepted pose -/
structure Accepts (a : Assessment) (c : Config) (m : Brightness) (pose : Pose) : Prop where
  innovation : a.innovation = innovationOf c m pose
  nonneg : 0 ≤ a.innovation
  within : a.innovation ≤ c.rejectAbove
  /-- a range from the least one on is published, -/
  ownRange : c.leastRange ≤ pose.range → a.rangeCm == pose.range
  /-- and the least one in the place of a smaller one and of no number -/
  leastRange : pose.range < c.leastRange ∨ pose.range.isNaN → a.rangeCm = c.leastRange
  confidence : a.confidence.isFinite ∧ 0 ≤ a.confidence ∨ a.confidence = c.fallbackConfidence

theorem accepts_ofInnovation (hnonneg : 0 ≤ innovationOf c m pose)
    (hwithin : innovationOf c m pose ≤ c.rejectAbove) :
    (ofInnovation c energy pose (innovationOf c m pose)).Accepts c m pose where
  innovation := rfl
  nonneg := hnonneg
  within := hwithin
  ownRange := max_of_ge
  leastRange h := max_of_le (h.symm.imp_right Binary.le_of_lt)
  confidence := trust_cases _ _ _

/-! ## the decision -/

/-- what scoring a pose decides -/
structure Decides (c : Config) (m : Brightness) (energy : Int32) (pose : Pose) : Prop where
  /-- the innovation is a number, where there is one -/
  number : ∀ {innovation}, Innovation.between m.numbers (expectation c pose) = .ok innovation →
    innovation = innovationOf c m pose ∧ innovation ≠ nan
  /-- a pose that does not fit is rejected with this number, which is above the limit -/
  rejected : ∀ {innovation limit}, score c m energy pose = .error (.poorFit innovation limit) →
    innovation = innovationOf c m pose ∧ innovation ≠ nan ∧ limit = c.rejectAbove ∧
      limit < innovation
  /-- one that fits is accepted, and no other -/
  accepted_iff : (∃ a, score c m energy pose = .ok a) ↔
    0 < Innovation.norm m.numbers ∧ 0 < Innovation.norm (expectation c pose) ∧
      innovationOf c m pose ≤ c.rejectAbove
  accepted : ∀ {a}, score c m energy pose = .ok a → a.Accepts c m pose

/-- whatever the matrix, the energy and the pose, as long as the limit is a number -/
theorem score_decides (limit : c.rejectAbove ≠ nan) (m : Brightness) (energy : Int32)
    (pose : Pose) : Decides c m energy pose where
  number {innovation} h := by
    by_cases hcomparable : Comparable c m pose
    · rw [between_of_comparable hcomparable] at h
      obtain rfl := Except.ok.inj h
      exact ⟨rfl, ne_nan_right (innovationOf_nonneg hcomparable)⟩
    · obtain ⟨cause, hbetween⟩ := between_of_not_comparable hcomparable
      rw [hbetween] at h
      cases h
  rejected h := by
    obtain ⟨hinnovation, hlimit, hexceeds⟩ := eq_of_score_poorFit h
    exact ⟨hinnovation, ne_nan_right (Binary.le_of_lt hexceeds), hlimit, hexceeds⟩
  accepted_iff := by
    constructor
    · rintro ⟨a, ha⟩
      obtain ⟨hcomparable, hfit, -⟩ := score_eq_ok_iff.mp ha
      have hnumber := ne_nan_right (innovationOf_nonneg hcomparable)
      exact ⟨hcomparable.1, hcomparable.2, Binary.le_of_not_lt hnumber limit hfit⟩
    · rintro ⟨hmeasured, hexpected, hwithin⟩
      have hfit := Binary.not_lt_of_le hwithin
      exact ⟨_, score_eq_ok_iff.mpr ⟨⟨hmeasured, hexpected⟩, hfit, rfl⟩⟩
  accepted h := by
    obtain ⟨hcomparable, hfit, rfl⟩ := score_eq_ok_iff.mp h
    have hnonneg := innovationOf_nonneg hcomparable
    exact accepts_ofInnovation hnonneg (Binary.le_of_not_lt (ne_nan_right hnonneg) limit hfit)

/-- a robot that faces us, at no range -/
def unranged : Pose := ⟨-Elementary.twelfthTurn, Elementary.halfTurn, nan, nan⟩

/-- for example, with less than no energy: the least range is published and the confidence is
replaced -/
theorem score_decides_unranged : Config.default.rejectAbove ≠ nan ∧
    Decides .default ⟨headOn⟩ (-1) unranged ∧
    ∃ a, score .default ⟨headOn⟩ (-1) unranged = .ok a ∧
      a.rangeCm = Config.default.leastRange := by
  have limit : Config.default.rejectAbove ≠ nan := by decide
  have decides := score_decides limit ⟨headOn⟩ (-1) unranged
  obtain ⟨a, ha⟩ := decides.accepted_iff.mpr (by decide +kernel)
  exact ⟨limit, decides, a, ha, (decides.accepted ha).leastRange (.inr rfl)⟩

end Assessment

end RangeBearing
