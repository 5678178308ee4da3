import RangeBearing.Proofs.AcceptedFits
import RangeBearing.Proofs.EndedCycles
import RangeBearing.Proofs.Magnitudes
import RangeBearing.Proofs.Publications
import RangeBearing.Proofs.Turns

/-!
# Published units

Degrees are published in `(-180, 180]` for every angle, and no range below the least one of the
configuration is published, whatever the estimation has made of it.

* `Angle.wrap_within`            an angle in its turn, or no number;
* `Estimate.wholeDegrees_mem`    whole degrees of every angle;
* `Estimate.InUnits`             what holds of a published estimate;
* `Station.History.inUnits`      every estimate that a call gives back is in units.
-/

namespace RangeBearing

open Elementary Binary Controller

theorem precision_pos : 0 < Format.binary32.precision := by decide

/-! ## angles -/

namespace Angle

def degreeCode : Fin Format.binary32.top := ⟨0x42652ee0, by decide⟩

/-- the code of a hundred and eighty -/
def oppositeCode : Fin Format.binary32.top := ⟨0x43340000, by decide⟩

theorem degree_eq : degree = finite false degreeCode := by decide

/-- a half turn comes out as a hundred and eighty degrees -/
theorem round_toDegrees_halfTurn : (toDegrees halfTurn).round = finite false oppositeCode := by
  decide

/-- a wrapped angle is no number, or at most half a turn to either side -/
theorem wrap_within (a : Binary32) : (wrap a).Within halfTurn := by
  by_cases h : a.isFinite
  · obtain ⟨s, c, rfl⟩ := exists_finite h
    obtain ⟨hright, hleft⟩ := (represents_wrap_finite s c).inTurn
    have hbetween : (wrap (finite s c)).Between (-halfTurn) halfTurn :=
      ⟨by decide, by decide, Binary.le_of_lt hright, hleft⟩
    exact hbetween.within (by decide) (by decide)
  · exact .inl (wrap_of_not_isFinite h)

end Angle

namespace Estimate

/-- whatever the angle, the direction opposite to zero is `180` and nothing lies beyond it -/
theorem wholeDegrees_mem (angle : Binary32) :
    -180 < (wholeDegrees angle).toInt ∧ (wholeDegrees angle).toInt ≤ 180 := by
  have hhalf : halfTurn ≠ nan := by
    rw [Angle.halfTurn_eq]
    exact nofun
  have hdegrees : (Angle.toDegrees (Angle.wrap angle)).Within (Angle.toDegrees halfTurn) := by
    unfold Angle.toDegrees
    rw [Angle.degree_eq]
    exact (Angle.wrap_within angle).mul precision_pos hhalf (by decide)
  have hopposite : Angle.toDegrees halfTurn ≠ nan := by
    unfold Angle.toDegrees
    rw [Angle.degree_eq]
    exact mul_ne_nan hhalf (by decide)
  have hround := hdegrees.round precision_pos hopposite
  rw [Angle.round_toDegrees_halfTurn] at hround
  unfold wholeDegrees
  generalize (Angle.toDegrees (Angle.wrap angle)).round = degrees at hround
  have hbound := hround.natAbs_clampTo_le precision_pos (by decide : (-0x8000 : Int) ≤ 0)
    (by decide : (0 : Int) ≤ 0x7fff)
  have hunits : Format.binary32.units Angle.oppositeCode / Format.binary32.one = 180 := by
    decide
  have hint : degrees.toInt16.toInt = degrees.clampTo (-0x8000) 0x7fff := by
    unfold toInt16
    exact Int16.toInt_ofInt_of_le (by omega) (by omega)
  rw [hunits] at hbound
  dsimp only
  split
  case isTrue => decide
  case isFalse hfold =>
    have hne : degrees.toInt16.toInt ≠ -180 := by
      intro heq
      exact hfold (Int16.toInt_inj.mp heq)
    omega

/-! ## ranges -/

def tenCode : Fin Format.binary32.top := ⟨0x41200000, by decide⟩

theorem ten_eq : (10 : Binary32) = finite false tenCode := by decide

theorem zero_key? : (0 : Binary32).key? = some 0 := by decide

theorem mm_ne_nan {a : Binary32} (ha : a ≠ nan) : a * 10 ≠ nan := by
  rw [ten_eq]
  exact mul_ne_nan ha (by decide)

theorem isNegative_mm {a : Binary32} (ha : a ≠ nan) : (a * 10).isNegative = a.isNegative := by
  rw [ten_eq]
  exact isNegative_mul ha (by decide)

theorem mm_mono {a b : Binary32} (hb : b ≠ nan) (positive : b.isNegative = false)
    (h : a.magnitude ≤ b.magnitude) : (a * 10).round.toUInt16 ≤ (b * 10).round.toUInt16 := by
  have hmul : (a * 10).magnitude ≤ (b * 10).magnitude := by
    rw [ten_eq]
    exact mul_mono precision_pos hb (by decide) h
  refine toUInt16_mono precision_pos (round_ne_nan (mm_ne_nan hb)) ?_ ?_
  · rw [isNegative_round, isNegative_mm hb, positive]
  · exact round_mono precision_pos (mm_ne_nan hb) hmul

/-- the greater of a range and a least one is not published as less than the least one -/
theorem mm_le_max {least : Binary32} (hleast : 0 ≤ least) (range : Binary32) :
    (least * 10).round.toUInt16 ≤ (max range least * 10).round.toUInt16 := by
  obtain ⟨hmax, hle⟩ := le_max (x := range) zero_key? hleast
  rcases hle with hzero | ⟨positive, hle⟩
  · have hnone : (0 : Binary32) ≠ nan := by
      intro h
      rw [← key?_eq_none, zero_key?] at h
      cases h
    have hbelow := mm_mono (a := least) hnone (by decide) (by omega)
    have hzero : ((0 : Binary32) * 10).round.toUInt16 = 0 := by decide
    rw [hzero, UInt16.le_iff_toNat_le] at hbelow
    rw [UInt16.le_iff_toNat_le]
    exact Nat.le_trans hbelow (Nat.zero_le _)
  · exact mm_mono hmax positive hle

theorem whole_lt_top {n : Nat} (hn : n ≤ 0xffff) :
    n * Format.binary32.one < Format.binary32.units Format.binary32.top := by
  have hlast : 0xffff * Format.binary32.one < Format.binary32.units Format.binary32.top := by
    decide
  exact Nat.lt_of_le_of_lt (Nat.mul_le_mul_right _ hn) hlast

theorem toUInt16_whole {n : Nat} (hn : n ≤ 0xffff) :
    (ofRatio (F := .binary32) false (n * Format.binary32.one) 1).toUInt16.toNat = n := by
  have hdigits : n < 2 * Format.binary32.binade :=
    Nat.lt_of_le_of_lt hn (by decide)
  obtain ⟨j, hj⟩ := Format.exists_units (e := 149) hdigits
  have hj : Format.binary32.units j = n * Format.binary32.one := hj
  have htop : j < Format.binary32.top :=
    Format.lt_of_units_lt precision_pos (hj ▸ whole_lt_top hn)
  have hfinite : ofRatio (F := .binary32) false (n * Format.binary32.one) 1 =
      finite false ⟨j, htop⟩ := by
    rw [← hj]
    exact ofRatio_units false ⟨j, htop⟩
  have hwhole : Format.binary32.units j / Format.binary32.one = n := by
    rw [hj]
    exact Nat.mul_div_cancel _ (Nat.two_pow_pos _)
  rw [hfinite]
  unfold toUInt16
  rw [UInt16.toNat_ofNat']
  simp only [clampTo, truncate_false, hwhole]
  omega

/-- a half above a whole number is rounded up -/
theorem toUInt16_half {n : Nat} (hn : n ≤ 0xffff) {k : Fin Format.binary32.top}
    (hk : 2 * Format.binary32.units k + Format.binary32.one = n * (2 * Format.binary32.one)) :
    (finite false k).round.toUInt16.toNat = n := by
  have hwhole : (2 * Format.binary32.units k + Format.binary32.one) /
      (2 * Format.binary32.one) = n := by
    rw [hk]
    exact Nat.mul_div_cancel _ (Nat.mul_pos (by decide) (Nat.two_pow_pos _))
  show (ofRatio false (_ / _ * Format.binary32.one) 1).toUInt16.toNat = n
  rw [hwhole, toUInt16_whole hn]

theorem lt_mm_finite {n : Nat} (hn : n < 0xffff) {c : Fin Format.binary32.top}
    (h : (2 * n + 1) * Format.binary32.one ≤ 20 * Format.binary32.units c) :
    n < (finite false c * (10 : Binary32)).round.toUInt16.toNat := by
  have hone : Format.binary32.one = 2 * 2 ^ 148 := by decide
  have hten : Format.binary32.units tenCode = 10 * Format.binary32.one := by decide
  -- the half between `n` and `n + 1` has few enough digits, so rounding the product keeps above it
  obtain ⟨k, hk⟩ := Format.exists_units (F := .binary32) (m := 2 * n + 1) (e := 148)
    (Nat.lt_of_le_of_lt (by omega : 2 * n + 1 ≤ 0x1ffff) (by decide))
  generalize 2 ^ 148 = half at hone hk
  have hdouble : 2 * Format.binary32.units k = (2 * n + 1) * Format.binary32.one := by
    rw [hk, hone, Nat.mul_left_comm]
  have hnext : 2 * Format.binary32.units k + Format.binary32.one =
      (n + 1) * (2 * Format.binary32.one) := by
    rw [hdouble]
    ring
  have htop : k < Format.binary32.top := by
    have hlast : (n + 1) * Format.binary32.one < _ := whole_lt_top hn
    have hbelow := hnext
    rw [Nat.mul_left_comm] at hbelow
    exact Format.lt_of_units_lt precision_pos (by omega)
  have hproduct : k ≤ Format.binary32.nearest
      (Format.binary32.units c * Format.binary32.units tenCode) Format.binary32.one := by
    refine Format.le_nearest precision_pos (Nat.two_pow_pos _) ?_
    rw [hten, ← Nat.mul_assoc]
    exact Nat.mul_le_mul_right _ (by omega)
  have hmagnitude : (finite false ⟨k, htop⟩ : Binary32).magnitude ≤
      (finite false c * (10 : Binary32)).magnitude := by
    rw [ten_eq, magnitude_mul]
    exact Nat.le_min.mpr ⟨hproduct, Nat.le_of_lt htop⟩
  have hc : (finite false c : Binary32) ≠ nan := nofun
  have hround := toUInt16_mono precision_pos (round_ne_nan (mm_ne_nan hc))
    ((isNegative_round _).trans (isNegative_mm hc))
    (round_mono precision_pos (mm_ne_nan hc) hmagnitude)
  rw [UInt16.le_iff_toNat_le, toUInt16_half hn hnext] at hround
  exact hround

/-- the millimetres of a range are not less than those to which the exact product is rounded -/
theorem le_mm {a : Binary32} {n : Nat} (hn : n ≤ 0xffff)
    (h : (2 * n - 1 : Int) * Format.binary32.one ≤ 20 * a.signedUnits) :
    n ≤ (a * 10).round.toUInt16.toNat := by
  cases n with
  | zero => exact Nat.zero_le _
  | succ n =>
    have hodd : (2 * (n + 1 : Nat) - 1 : Int) = (2 * n + 1 : Nat) := by omega
    rw [hodd, ← Int.natCast_mul] at h
    have hone : 0 < (2 * n + 1) * Format.binary32.one :=
      Nat.mul_pos (Nat.succ_pos _) (Nat.two_pow_pos _)
    obtain ⟨c, rfl⟩ := finite_of_signedUnits_pos (a := a) (by omega)
    simp only [signedUnits] at h
    exact lt_mm_finite hn (by omega)

/-! ## estimates -/

/-- what holds of a published estimate -/
structure InUnits (c : Config) (e : Estimate) : Prop where
  bearing : -180 < e.bearingDeg.toInt ∧ e.bearingDeg.toInt ≤ 180
  heading : -180 < e.headingDeg.toInt ∧ e.headingDeg.toInt ≤ 180
  /-- the least range in millimetres is a lower bound -/
  range : (c.leastRange * 10).round.toUInt16 ≤ e.rangeMm
  /-- and so are the millimetres to which the exact product is rounded, a half going up; there are
  `one` units in a centimetre -/
  exact : ∀ mm : Nat, mm ≤ 0xffff →
    (2 * mm - 1 : Int) * Format.binary32.one ≤ 20 * c.leastRange.signedUnits →
      mm ≤ e.rangeMm.toNat

variable {c : Config}

theorem inUnits_ofPose (least : 0 ≤ c.leastRange) (source : UInt16)
    (range bearing heading confidence : Binary32) :
    (ofPose source (max range c.leastRange) bearing heading confidence).InUnits c where
  bearing := wholeDegrees_mem bearing
  heading := wholeDegrees_mem heading
  range := mm_le_max least range
  exact mm hmm h := by
    have hrange := mm_le_max least range
    rw [UInt16.le_iff_toNat_le] at hrange
    exact Nat.le_trans (le_mm hmm h) hrange

end Estimate

theorem Assessment.rangeCm_of_score {c : Config} {m : Brightness} {energy : Int32} {pose : Pose}
    {a : Assessment} (h : score c m energy pose = .ok a) :
    a.rangeCm = max pose.range c.leastRange := by
  obtain ⟨-, -, rfl⟩ := score_eq_ok_iff.mp h
  rfl

namespace Estimate

variable {c : Config}

theorem inUnits_ofScore (least : 0 ≤ c.leastRange) (source : UInt16) {m : Brightness}
    {energy : Int32} {pose : Pose} {a : Assessment}
    (h : Assessment.score c m energy pose = .ok a) :
    (ofPose source a.rangeCm pose.bearing pose.heading a.confidence).InUnits c := by
  rw [Assessment.rangeCm_of_score h]
  exact inUnits_ofPose least _ _ _ _ _

theorem inUnits_ofMatrix (least : 0 ≤ c.leastRange) {source : UInt16} {m : Brightness}
    {e : Estimate} (h : ofMatrix c source m = .ok e) : e.InUnits c := by
  unfold ofMatrix at h
  cases hpose : Estimation.pose m c.weightFloor with
  | error fault =>
    rw [hpose] at h
    cases h
  | ok pose =>
    rw [hpose] at h
    change (Assessment.score c m m.total pose >>= _) = _ at h
    cases hscore : Assessment.score c m m.total pose with
    | error fault =>
      rw [hscore] at h
      cases h
    | ok a =>
      rw [hscore] at h
      obtain rfl := Except.ok.inj h
      exact inUnits_ofScore least source hscore

end Estimate

/-! ## over a history -/

namespace Controller

/-- the estimate that a call has given back -/
def Answered.given? : Answered → Option Estimate
  | ⟨.use, _, .ok e⟩ | ⟨.serve _, _, .ok e⟩ => some e
  | ⟨.takeEstimate, _, some e⟩ | ⟨.peekEstimate, _, some e⟩ => some e
  | _ => none

theorem Answered.estimate?_eq_some {r : Answered} {e : Estimate} (h : r.estimate? = some e) :
    (∃ steps, r = ⟨.use, steps, .ok e⟩) ∨ ∃ request steps, r = ⟨.serve request, steps, .ok e⟩ := by
  obtain ⟨call, steps, result⟩ := r
  cases call with
  | use =>
    cases result with
    | ok e' =>
      obtain rfl := Option.some.inj h
      exact .inl ⟨steps, rfl⟩
    | error fault => cases h
  | serve request =>
    cases result with
    | ok e' =>
      obtain rfl := Option.some.inj h
      exact .inr ⟨request, steps, rfl⟩
    | error fault => cases h
  | _ => cases h

theorem Answered.given?_of_estimate? {r : Answered} {e : Estimate} (h : r.estimate? = some e) :
    r.given? = some e := by
  rcases estimate?_eq_some h with ⟨steps, rfl⟩ | ⟨request, steps, rfl⟩
  · rfl
  · rfl

theorem Answered.ended?_of_estimate? {r : Answered} {e : Estimate} (h : r.estimate? = some e) :
    r.ended? = some (.ok e) := by
  rcases estimate?_eq_some h with ⟨steps, rfl⟩ | ⟨request, steps, rfl⟩
  · rfl
  · rfl

/-- an estimate that is given back has been published by the call, or is read from the mailbox -/
theorem Answered.Moves.published_or_unread {c : Config} {st st' : Station} {r : Answered}
    {e : Estimate} (h : r.Moves c st st') (he : r.given? = some e) :
    r.estimate? = some e ∨ st.mailbox.unread = some e := by
  obtain ⟨call, steps, result⟩ := r
  cases call with
  | use =>
    cases result with
    | ok e' => exact .inl he
    | error fault => cases he
  | serve request =>
    cases result with
    | ok e' => exact .inl he
    | error fault => cases he
  | takeEstimate =>
    obtain ⟨hresult, -⟩ := takeEstimate_performs h
    cases result with
    | some e' => exact .inr (hresult.symm.trans he)
    | none => cases he
  | peekEstimate =>
    obtain ⟨hresult, -⟩ := peekEstimate_performs h
    cases result with
    | some e' => exact .inr (hresult.symm.trans he)
    | none => cases he
  | _ => cases he

/-- what holds of the estimates that a history has given back -/
structure PublishesInUnits (c : Config) (past : List Answered) : Prop where
  given : ∀ {r e}, r ∈ past → r.given? = some e → e.InUnits c
  /-- two bodies are forty-four millimetres apart when they touch -/
  default : c.leastRange = Config.default.leastRange →
    ∀ {r e}, r ∈ past → r.given? = some e → 44 ≤ e.rangeMm
  /-- whatever the range of the pose, a number or not -/
  scored : ∀ {m energy pose a} (source : UInt16), Assessment.score c m energy pose = .ok a →
    (Estimate.ofPose source a.rangeCm pose.bearing pose.heading a.confidence).InUnits c
  /-- the degrees of every two angles, numbers or not -/
  degrees : ∀ (source : UInt16) (rangeCm bearing heading confidence : Binary32),
    let e := Estimate.ofPose source rangeCm bearing heading confidence
    (-180 < e.bearingDeg.toInt ∧ e.bearingDeg.toInt ≤ 180) ∧
      -180 < e.headingDeg.toInt ∧ e.headingDeg.toInt ≤ 180

end Controller

namespace Station.History

variable {c : Config} {past : List Answered} {st : Station} {r : Answered} {e : Estimate}

theorem inUnits_of_estimate (h : History c past st) (least : 0 ≤ c.leastRange) (hr : r ∈ past)
    (he : r.estimate? = some e) : e.InUnits c := by
  obtain ⟨before, after, rfl⟩ := List.append_of_mem hr
  obtain ⟨st₀, st₁, history, moves⟩ := h.split
  have hended := Answered.ended?_of_estimate? he
  rcases moves.passes_or_ends history.settled with hpasses | ⟨request, result, hends⟩
  · rw [hpasses.ended] at hended
    cases hended
  · rw [hends.ended] at hended
    obtain rfl := Option.some.inj hended
    exact Estimate.inUnits_ofMatrix least hends.judged.symm

theorem inUnits_of_unread (h : History c past st) (least : 0 ≤ c.leastRange)
    (he : st.mailbox.unread = some e) : e.InUnits c := by
  obtain ⟨j, unread⟩ := (h.mailbox e).mp he
  obtain ⟨r, hr, hre⟩ := unread.published
  exact h.inUnits_of_estimate least (List.mem_of_getElem? hr) hre

theorem inUnits_of_given (h : History c past st) (least : 0 ≤ c.leastRange) (hr : r ∈ past)
    (he : r.given? = some e) : e.InUnits c := by
  obtain ⟨before, after, hpast⟩ := List.append_of_mem hr
  obtain ⟨st₀, st₁, history, moves⟩ := (hpast ▸ h).split
  rcases moves.published_or_unread he with hpublished | hunread
  · exact h.inUnits_of_estimate least hr hpublished
  · exact history.inUnits_of_unread least hunread

/-- over every history each estimate that is given back keeps to its units -/
theorem inUnits (h : History c past st) (least : 0 ≤ c.leastRange) : PublishesInUnits c past where
  given := h.inUnits_of_given least
  default hdefault r e hr he := by
    have hexact := (h.inUnits_of_given least hr he).exact 44 (by decide)
    rw [hdefault] at hexact
    exact hexact (by decide)
  scored source hscore := Estimate.inUnits_ofScore least source hscore
  degrees source rangeCm bearing heading confidence :=
    ⟨Estimate.wholeDegrees_mem bearing, Estimate.wholeDegrees_mem heading⟩

/-- for example, over the calls of a cycle with a robot in front of us -/
theorem inUnits_after_cycle : ∃ past st r, History .default past st ∧
    0 ≤ Config.default.leastRange ∧ PublishesInUnits .default past ∧
    r ∈ past ∧ r.given? = some ⟨7, 100, -30, 180, 255⟩ := by
  have least : 0 ≤ Config.default.leastRange := by decide
  have fresh : Station.new.slot.state = .idle := rfl
  obtain ⟨result, st, cycle⟩ := Cycle.completes .default ⟨7, 1, 5⟩ headOn fresh
  obtain ⟨hresult, -⟩ := cycle.performs fresh
  rw [ofMatrix_headOn] at hresult
  obtain ⟨first, second, third, history, hthird⟩ := cycle.history .new
  rw [hresult] at hthird
  exact ⟨_, st, third, history, least, history.inUnits least,
    List.mem_append_right _ (List.mem_singleton_self third), Answered.given?_of_estimate? hthird⟩

end Station.History

end RangeBearing
