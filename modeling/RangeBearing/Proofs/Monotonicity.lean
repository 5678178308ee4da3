import Mathlib.Algebra.Order.Floor.Ring
import Mathlib.Data.Rat.Floor
import RangeBearing.Binary.Bits
import RangeBearing.Binary.Integral
import RangeBearing.Proofs.Bounds

/-!
# Operations that keep the order

Between two data whose places are neighbours there is no third one.  Adding a constant, multiplying
and dividing by a positive one, squaring what is not negative, rounding up, reading as an integer
and taking the root keep the order of all numbers, the infinite ones included; dividing by them
reverses it.

* `Binary.next_le_of_lt`, `Binary.le_of_lt_next`   neighbours in the order;
* `Binary.le_of_finite`      only the finite data have to be compared;
* `Binary.add_le_add_left`, `Binary.sub_le_sub_right`, `Binary.mul_le_mul_left`,
  `Binary.div_le_div_right`, `Binary.mul_self_le_mul_self`, `Binary.div_le_div_left`,
  `Binary.ceil_le_ceil`, `Binary.clampTo_le_clampTo`, `Binary.Between.sqrt`;
* `Binary.value_ceil`        rounding up gives the integer above the value;
* `Binary.between_greatest`, `Binary.isFinite_sqrt`   the finite data of 32 bits.
-/

namespace RangeBearing

namespace Binary

variable {F : Format} {a b c lo hi next : Binary F}

/-! ## neighbours -/

theorem next_le_of_lt (h : a < b) (neighbour : next.key? = a.key?.map (· + 1)) : next ≤ b := by
  obtain ⟨x, y, hx, hy, hxy⟩ := lt_iff.mp h
  rw [hx] at neighbour
  exact le_iff.mpr ⟨x + 1, y, neighbour, hy, hxy⟩

theorem le_of_lt_next (h : a < next) (neighbour : next.key? = b.key?.map (· + 1)) : a ≤ b := by
  obtain ⟨x, y, hx, hy, hxy⟩ := lt_iff.mp h
  rw [hy] at neighbour
  obtain ⟨z, hz, rfl⟩ := Option.map_eq_some_iff.mp neighbour.symm
  exact le_iff.mpr ⟨x, z, hx, hz, by omega⟩

/-! ## all numbers -/

theorem number_cases (ha : a ≠ nan) : a = infinite true ∨ a.isFinite ∨ a = infinite false := by
  cases a with
  | nan => exact absurd rfl ha
  | finite s c => exact .inr (.inl rfl)
  | infinite s =>
    cases s with
    | true => exact .inl rfl
    | false => exact .inr (.inr rfl)

theorem not_infinite_le_infinite (htop : 0 < F.top) :
    ¬ infinite false ≤ (infinite true : Binary F) := by
  intro h
  obtain ⟨x, y, hx, hy, hxy⟩ := le_iff.mp h
  obtain rfl : (F.top : Int) = x := Option.some.inj hx
  obtain rfl : -(F.top : Int) = y := Option.some.inj hy
  omega

theorem not_le_infinite (ha : a.isFinite) : ¬ a ≤ infinite true := by
  intro h
  rcases finite_or_infinite ha h with hfinite | hinfinite
  · cases hfinite
  · cases hinfinite

section
variable [NeZero F.precision]

theorem infinite_le (ha : a ≠ nan) : infinite true ≤ a := by
  have hle := F.amount_strictMono.monotone (magnitude_le_top ha)
  rw [le_iff_value (a := infinite true) nofun ha, value_of_ne_nan ha]
  show -F.amount F.top ≤ _
  refine neg_le_of_abs_le ?_
  rw [abs_signed _ (F.amount_nonneg _)]
  exact hle

/-- an operation that leaves the infinities in their places keeps the order, when it does so on
finite data -/
theorem le_of_finite {f : Binary F → Binary F} (low : f (infinite true) = infinite true)
    (high : f (infinite false) = infinite false) (number : ∀ {x}, x.isFinite → f x ≠ nan)
    (finite : ∀ {x y}, x.isFinite → y.isFinite → x.value ≤ y.value → (f x).value ≤ (f y).value)
    (htop : 0 < F.top) (h : a ≤ b) : f a ≤ f b := by
  have hnumber : f b ≠ nan := by
    rcases number_cases (ne_nan_right h) with rfl | hb | rfl
    · rw [low]
      exact nofun
    · exact number hb
    · rw [high]
      exact nofun
  rcases number_cases (ne_nan_left h) with rfl | ha | rfl
  · rw [low]
    exact infinite_le hnumber
  · rcases number_cases (ne_nan_right h) with rfl | hb | rfl
    · exact absurd h (not_le_infinite ha)
    · rw [le_iff_value (number ha) hnumber]
      exact finite ha hb ((le_iff_value (ne_nan_left h) (ne_nan_right h)).mp h)
    · rw [high]
      exact le_infinite (number ha)
  · rcases number_cases (ne_nan_right h) with rfl | hb | rfl
    · exact absurd h (not_infinite_le_infinite htop)
    · exact absurd h (not_infinite_le hb)
    · exact Binary.le_rfl hnumber

theorem mul_infinite (s : Bool) (hc : c.isFinite) (positive : 0 < c) :
    c * infinite s = infinite s := by
  rcases pos_cases positive with rfl | ⟨k, hk, rfl⟩
  · cases hc
  · show (if k.val = 0 then nan else infinite (false != s)) = _
    rw [if_neg hk, Bool.false_bne]

theorem mul_le_mul_left (hc : c.isFinite) (positive : 0 < c) (h : a ≤ b) : c * a ≤ c * b := by
  have hvalue := value_pos positive
  refine le_of_finite (f := (c * ·)) (mul_infinite true hc positive)
    (mul_infinite false hc positive) (mul_ne_nan_of_finite hc) ?_ (top_pos hc) h
  intro x y hx hy hxy
  rw [value_mul hc hx, value_mul hc hy]
  exact Format.round_mono (mul_le_mul_of_nonneg_left hxy hvalue.le)

theorem div_le_div_right (hc : c.isFinite) (positive : 0 < c) (h : a ≤ b) : a / c ≤ b / c := by
  have hvalue := value_pos positive
  have hinfinite (s : Bool) : infinite s / c = infinite s := by
    rcases pos_cases positive with rfl | ⟨k, -, rfl⟩
    · cases hc
    · exact congrArg infinite (Bool.bne_false s)
  refine le_of_finite (f := (· / c)) (hinfinite true) (hinfinite false)
    (fun hx => div_ne_nan hx (ne_nan_of_isFinite hc) hvalue.ne') ?_ (top_pos hc) h
  intro x y hx hy hxy
  rw [value_div hx hc hvalue.ne', value_div hy hc hvalue.ne']
  exact Format.round_mono (div_le_div_of_nonneg_right hxy hvalue.le)

/-! ## sums, squares and divisors -/

protected theorem add_le_add_left (hc : c.isFinite) (h : a ≤ b) : c + a ≤ c + b := by
  have hinfinite (s : Bool) : c + infinite s = infinite s := by
    obtain ⟨t, d, rfl⟩ := exists_finite hc
    rfl
  refine le_of_finite (f := (c + ·)) (hinfinite true) (hinfinite false) (add_ne_nan hc) ?_
    (top_pos hc) h
  intro x y hx hy hxy
  rw [value_add hc hx, value_add hc hy]
  exact Format.round_mono (add_le_add (le_refl _) hxy)

protected theorem sub_le_sub_right (hc : c.isFinite) (h : a ≤ b) : a - c ≤ b - c := by
  have hinfinite (s : Bool) : infinite s - c = infinite s := by
    obtain ⟨t, d, rfl⟩ := exists_finite hc
    rfl
  refine le_of_finite (f := (· - c)) (hinfinite true) (hinfinite false)
    (fun hx => sub_ne_nan hx hc) ?_ (top_pos hc) h
  intro x y hx hy hxy
  rw [value_sub hx hc, value_sub hy hc]
  exact Format.round_mono (sub_le_sub hxy (le_refl _))

/-- the square of a number that is not below zero -/
protected theorem mul_self_le_mul_self (ha : 0 ≤ a) (h : a ≤ b) (htop : 0 < F.top) :
    a * a ≤ b * b := by
  have hsquare := square_nonneg (ne_nan_left h)
  rcases finite_or_infinite (zero_isFinite htop) (Binary.le_trans ha h) with hb | rfl
  · have ha' := isFinite_of_le (zero_isFinite htop) hb ha h
    have hvalue := value_nonneg ha
    have hle := (le_iff_value (ne_nan_left h) (ne_nan_right h)).mp h
    rw [le_iff_value (mul_ne_nan_of_finite ha' ha') (mul_ne_nan_of_finite hb hb), value_mul ha' ha',
      value_mul hb hb]
    exact Format.round_mono (mul_le_mul hle hle hvalue (hvalue.trans hle))
  · exact le_infinite (ne_nan_right hsquare)

/-- what is divided by a greater number is less -/
protected theorem div_le_div_left (hc : c.isFinite) (nonneg : 0 ≤ c) (positive : 0 < a)
    (h : a ≤ b) : c / b ≤ c / a := by
  have hvalue := value_nonneg nonneg
  have hzero := zero_isFinite (top_pos hc)
  have hnumber {x : Binary F} (hx : x.isFinite) (hpos : 0 < x.value) : c / x ≠ nan :=
    div_ne_nan hc (ne_nan_of_isFinite hx) hpos.ne'
  have ha := value_pos positive
  rcases finite_or_infinite hzero (Binary.le_of_lt positive) with hfa | rfl
  · have hab := (le_iff_value (ne_nan_left h) (ne_nan_right h)).mp h
    rcases finite_or_infinite hfa h with hfb | rfl
    · have hb := ha.trans_le hab
      rw [le_iff_value (hnumber hfb hb) (hnumber hfa ha), value_div hc hfb hb.ne',
        value_div hc hfa ha.ne']
      exact Format.round_mono (div_le_div_of_nonneg_left hvalue ha hab)
    · rw [le_iff_value (div_infinite_ne_nan hc) (hnumber hfa ha), value_div_infinite hc,
        value_div hc hfa ha.ne']
      exact Format.round_nonneg (div_nonneg hvalue ha.le)
  · rcases finite_or_infinite hzero (Binary.le_trans (Binary.le_of_lt positive) h) with hfb | rfl
    · exact absurd h (not_infinite_le hfb)
    · exact Binary.le_rfl (div_infinite_ne_nan hc)

/-! ## integers -/

omit [NeZero F.precision] in
theorem add_pred_div (n : Nat) {d : Nat} (hd : 0 < d) :
    (((n + (d - 1)) / d : Nat) : Int) = -(-(n : Int) / d) := by
  have hdiv := Nat.div_add_mod (n + (d - 1)) d
  have hmod := Nat.mod_lt (n + (d - 1)) hd
  generalize (n + (d - 1)) / d = q at *
  generalize (n + (d - 1)) % d = r at *
  have hrest : ((d - 1 - r : Nat) : Int) + d * -(q : Int) = -(n : Int) := by
    rw [Int.mul_neg, ← Int.natCast_mul]
    omega
  have hunique := (Int.ediv_emod_unique (Int.natCast_pos.mpr hd)).mpr
    ⟨hrest, Int.natCast_nonneg _, by omega⟩
  rw [hunique.1, Int.neg_neg]

/-- rounding up gives the integer above the value, rounded once -/
theorem value_ceil (ha : a.isFinite) : a.ceil.value = F.round ⌈a.value⌉ := by
  obtain ⟨s, c, rfl⟩ := exists_finite ha
  have hone := F.one_cast_pos
  have hcancel (whole : Nat) : ((whole * F.one : Nat) / ((1 : Nat) * F.one) : ℚ) = whole := by
    rw [Nat.cast_one, one_mul, Nat.cast_mul, mul_div_assoc, div_self hone.ne', mul_one]
  show (ofRatio s _ 1).value = _
  rw [value_ofRatio _ _ Nat.one_pos, value_finite, Rat.ceil_intCast_div_natCast, hcancel]
  congr 1
  cases s with
  | true =>
    show -((F.units c / F.one : Nat) : ℚ) = ((-(- -(F.units c : Int) / (F.one : Int)) : Int) : ℚ)
    rw [Int.neg_neg]
    push_cast
    rfl
  | false =>
    show (((F.units c + (F.one - 1)) / F.one : Nat) : ℚ) =
      ((-(-(F.units c : Int) / (F.one : Int)) : Int) : ℚ)
    rw [← add_pred_div _ F.one_pos, Int.cast_natCast]

theorem ceil_le_ceil (htop : 0 < F.top) (h : a ≤ b) : a.ceil ≤ b.ceil := by
  refine le_of_finite (f := ceil) rfl rfl ?_ ?_ htop h
  · intro x hx
    obtain ⟨s, c, rfl⟩ := exists_finite hx
    exact ofRatio_ne_nan _ _ _
  · intro x y hx hy hxy
    rw [value_ceil hx, value_ceil hy]
    exact Format.round_mono (Int.cast_le.mpr (Int.ceil_mono hxy))

theorem clampTo_le_clampTo {low high : Int} (hl : low ≤ 0) (hh : 0 ≤ high) (htop : 0 < F.top)
    (h : a ≤ b) : a.clampTo low high ≤ b.clampTo low high := by
  have ha := clampTo_mem a hl hh
  have hb := clampTo_mem b hl hh
  rcases number_cases (ne_nan_left h) with rfl | hfa | rfl
  · exact hb.1
  · rcases number_cases (ne_nan_right h) with rfl | hfb | rfl
    · exact absurd h (not_le_infinite hfa)
    · have hvalue := (le_iff_value (ne_nan_left h) (ne_nan_right h)).mp h
      obtain ⟨s, c, rfl⟩ := exists_finite hfa
      obtain ⟨t, d, rfl⟩ := exists_finite hfb
      rw [value_finite, value_finite, div_le_div_iff_of_pos_right F.one_cast_pos,
        Int.cast_le] at hvalue
      have htruncate : (finite s c).truncate ≤ (finite t d).truncate :=
        Int.tdiv_le_tdiv (by exact_mod_cast F.one_pos) hvalue
      simp only [clampTo]
      omega
    · exact ha.2
  · rcases number_cases (ne_nan_right h) with rfl | hfb | rfl
    · exact absurd h (not_infinite_le_infinite htop)
    · exact absurd h (not_infinite_le hfb)
    · exact Int.le_refl _

/-! ## roots -/

theorem Between.sqrt (h : a.Between lo hi) (positive : 0 < lo)
    (finite : lo.sqrt.isFinite ∧ hi.sqrt.isFinite) : a.sqrt.Between lo.sqrt hi.sqrt where
  low := finite.1
  high := finite.2
  lower := sqrt_mono positive h.lower (top_pos h.low)
  upper := sqrt_mono (h.pos positive) h.upper (top_pos h.low)

end

/-! ## all finite data -/

/-- the greatest finite datum -/
def greatest : Binary32 := .ofBits 0x7f7fffff

theorem between_greatest {x : Binary32} (h : x.isFinite) :
    x.Between (-greatest) greatest := by
  obtain ⟨s, c, rfl⟩ := exists_finite h
  have hgreatest : greatest = finite false ⟨0x7f7fffff, by decide⟩ := by decide
  have hneg : -greatest = finite true ⟨0x7f7fffff, by decide⟩ := by decide
  have hcode : c.val ≤ 0x7f7fffff := Nat.le_of_lt_succ c.isLt
  refine ⟨by decide, by decide, ?_, ?_⟩
  · rw [hneg, finite_le_iff]
    cases s with
    | true => simpa using hcode
    | false => simp
  · rw [hgreatest, finite_le_iff]
    cases s with
    | true => simp
    | false => simpa using hcode

/-- a root does not overflow -/
theorem isFinite_sqrt {x : Binary32} (h : x.isFinite) (positive : 0 < x) : x.sqrt.isFinite := by
  have hleast := least_le positive (by decide)
  have hbetween : x.Between (ofCode false 1) greatest :=
    ⟨by decide, by decide, hleast, (between_greatest h).upper⟩
  exact (hbetween.sqrt (by decide) (by decide +kernel)).isFinite

end Binary

end RangeBearing
