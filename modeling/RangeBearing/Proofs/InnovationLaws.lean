import RangeBearing.Proofs.AcceptedFits
import RangeBearing.Proofs.DoubledReadings
import RangeBearing.Proofs.Monotonicity
import RangeBearing.Proofs.Signs

/-!
# Laws of the innovation

The innovation is a distance of directions: it is symmetric, it does not tell a pair of grids from
their opposites, a grid of finite cells is at no distance from itself, and the overall brightness
of a matrix cancels out.  All of this holds exactly, whatever is rounded.

* `Innovation.squares`            the sum under the root of the norm;
* `Innovation.quotient_isFinite`  no cell overflows when it is divided by the norm of its grid;
* `Innovation.norm_scaled`        the norm of a doubled matrix;
* `Innovation.Laws`, `Innovation.laws`.
-/

namespace RangeBearing

open Binary

namespace Innovation

variable {m x : Grid Binary32}

/-- the sum of the squares -/
def squares (g : Grid Binary32) : Binary32 :=
  Grid.pairs.foldl (fun sum p => sum + g.get p.1 p.2 * g.get p.1 p.2) 0

theorem norm_eq (g : Grid Binary32) : norm g = (squares g).sqrt := by
  unfold norm squares
  rw [values_eq, List.foldl_map]

theorem squares_pos (h : 0 < norm m) : 0 < squares m := by
  rw [norm_eq] at h
  exact pos_of_sqrt_pos h

/-! ## signs -/

/-- every cell with the other sign -/
def opposite (g : Grid Binary32) : Grid Binary32 := g.map (- ·)

theorem norm_opposite (g : Grid Binary32) : norm (opposite g) = norm g := by
  rw [norm_eq, norm_eq]
  unfold squares opposite
  simp only [Grid.get_map, neg_mul_neg]

theorem between_opposite (m x : Grid Binary32) :
    between (opposite m) (opposite x) = between m x := by
  have hcell (a b u v : Binary32) : (-u / a - -v / b).abs = (u / a - v / b).abs := by
    rw [neg_div, neg_div, neg_sub_neg, abs_sub_swap]
  have hdeviation : deviation (opposite m) (opposite x) = deviation m x := by
    unfold deviation
    rw [norm_opposite, norm_opposite]
    unfold opposite
    simp only [Grid.get_map, hcell]
  rw [between_eq, between_eq, norm_opposite, norm_opposite, hdeviation]

theorem deviation_swap (m x : Grid Binary32) : deviation m x = deviation x m := by
  unfold deviation
  refine congrArg (Grid.pairs.foldl · 0) (funext₂ fun sum (e, s) => ?_)
  exact congrArg (sum + ·) (abs_sub_swap _ _)

/-! ## a grid and itself -/

/-- a sum of terms that are not below zero is not below any of them -/
theorem le_foldl {α : Type} {f : α → Binary32} (hf : ∀ a, 0 ≤ f a) (l : List α) {init : Binary32}
    (hinit : 0 ≤ init) : init ≤ l.foldl (fun sum a => sum + f a) init ∧
      ∀ a ∈ l, f a ≤ l.foldl (fun sum a => sum + f a) init := by
  induction l generalizing init with
  | nil => exact ⟨Binary.le_rfl (ne_nan_right hinit), nofun⟩
  | cons b l ih =>
    have hle := le_add_of_nonneg hinit (hf b) (by decide)
    obtain ⟨hsum, hterms⟩ := ih (Binary.le_trans hinit hle)
    refine ⟨Binary.le_trans hle hsum, ?_⟩
    intro a ha
    rcases List.mem_cons.mp ha with rfl | ha
    · have hterm := le_add_of_nonneg (hf a) hinit (by decide)
      rw [add_swap] at hterm
      exact Binary.le_trans hterm hsum
    · exact hterms a ha

section
variable (hm : ∀ e s, (m.get e s).isFinite)
include hm

theorem square_le_squares (e s : Direction) : m.get e s * m.get e s ≤ squares m :=
  (le_foldl (f := fun p : Direction × Direction => m.get p.1 p.2 * m.get p.1 p.2)
    (fun p => square_nonneg (ne_nan_of_isFinite (hm p.1 p.2))) Grid.pairs (by decide)).2
    (e, s) (Grid.mem_pairs e s)

/-- a cell of at least one in magnitude bounds the norm from below -/
theorem one_le_norm {e s : Direction} (h : ¬ (m.get e s).Within 1) : 1 ≤ norm m := by
  have hnumber := ne_nan_of_isFinite (hm e s)
  have hunit : (1 : Binary32) ≠ nan := ne_nan_of_isFinite (by decide)
  have hone : (1 : Binary32).value = 1 := by
    have hvalue := value_ofInt (F := .binary32) (i := 1) (by decide) (by decide)
    rwa [Int.cast_one] at hvalue
  have hcell : 1 ≤ |(m.get e s).value| := by
    rw [Within.iff_value hnumber hunit, hone, abs_one] at h
    exact (not_le.mp h).le
  have hsquare : 1 ≤ m.get e s * m.get e s := by
    have hexact : (1 : Binary32).value ≤ (m.get e s).value * (m.get e s).value := by
      rw [hone, ← abs_mul_abs_self]
      exact one_le_mul_of_one_le_of_one_le hcell hcell
    rw [le_iff_value hunit (mul_ne_nan_of_finite (hm e s) (hm e s)), value_mul (hm e s) (hm e s)]
    exact (round_value hunit).symm.trans_le (Format.round_mono hexact)
  have hroot : (1 : Binary32) ≤ (1 : Binary32).sqrt := by decide +kernel
  rw [norm_eq]
  refine Binary.le_trans hroot ?_
  exact sqrt_mono (by decide) (Binary.le_trans hsquare (square_le_squares hm e s)) (by decide)

theorem quotient_isFinite (h : 0 < norm m) (e s : Direction) :
    (m.get e s / norm m).isFinite := by
  have hnumber : m.get e s / norm m ≠ nan :=
    div_ne_nan (hm e s) (ne_nan_right (Binary.le_of_lt h)) (value_pos h).ne'
  by_cases hsmall : (m.get e s).Within 1
  · have hquotient := hsmall.div_of_le (leastRoot_le h) (by decide) (by decide)
    exact hquotient.isFinite (by decide) hnumber
  · have hquotient := Within.div_of_le (.self (m.get e s)) (one_le_norm hm hsmall) (by decide)
      ⟨hm e s, by decide⟩
    rw [div_one (hm e s)] at hquotient
    exact hquotient.isFinite (hm e s) hnumber

theorem between_self (h : 0 < norm m) : between m m = .ok 0 := by
  have hcell (e s : Direction) : (m.get e s / norm m - m.get e s / norm m).abs = 0 := by
    rw [sub_self (quotient_isFinite hm h e s)]
    decide
  have hsum (l : List (Direction × Direction)) :
      l.foldl (fun sum _ => sum + 0) (0 : Binary32) = 0 := by
    induction l with
    | nil => rfl
    | cons p l ih => exact ih
  rw [between_eq, if_pos h, if_pos h]
  unfold deviation
  simp only [hcell, hsum]

end

/-! ## doubled matrices -/

section
variable {m : Brightness} (h : m.Doublable)
include h

theorem squares_scaled : Scaled 2 (squares m.numbers) (squares m.doubled.numbers) := by
  have hsquare (p : Direction × Direction) :=
    Brightness.square_scaled (Brightness.toInt_doubled h p.1 p.2)
  unfold squares Brightness.numbers
  simp only [Grid.get_map]
  exact (Scaled.sum_pairs (fun p => (hsquare p).1) (fun p => (hsquare p).2) (by decide)).1

theorem norm_scaled (hpos : 0 < squares m.numbers) :
    Scaled 1 (norm m.numbers) (norm m.doubled.numbers) := by
  have hsquares := squares_scaled h
  rw [norm_eq, norm_eq]
  exact hsquares.sqrt (by decide) hpos
    (isFinite_sqrt hsquares.isFinite.2 (hsquares.pos_iff.mpr hpos))

/-- the overall brightness cancels out -/
theorem between_doubled (x : Grid Binary32) :
    between m.doubled.numbers x = between m.numbers x := by
  rw [between_eq, between_eq]
  by_cases hpos : 0 < squares m.numbers
  · have hnorm := norm_scaled h hpos
    have hcell (e s : Direction) : m.doubled.numbers.get e s / norm m.doubled.numbers =
        m.numbers.get e s / norm m.numbers := by
      have hreading := Brightness.number_scaled (Brightness.toInt_doubled h e s)
      unfold Brightness.numbers at hnorm ⊢
      rw [Grid.get_map, Grid.get_map]
      exact hreading.div_eq hnorm
    have hdeviation : deviation m.doubled.numbers x = deviation m.numbers x := by
      unfold deviation
      simp only [hcell]
    simp only [hdeviation, hnorm.pos_iff]
  · -- a dark matrix, doubled or not
    have hdoubled : ¬ 0 < squares m.doubled.numbers := mt (squares_scaled h).pos_iff.mp hpos
    rw [if_neg (mt squares_pos hpos), if_neg (mt squares_pos hdoubled)]

end

/-! ## the laws -/

/-- what holds of the innovations of a grid against another one -/
structure Laws (m x : Grid Binary32) : Prop where
  symmetric : 0 < norm m → 0 < norm x → ∃ d, between m x = .ok d ∧ between x m = .ok d
  opposite : between (opposite m) (opposite x) = between m x
  self : (∀ e s, (m.get e s).isFinite) → 0 < norm m → between m m = .ok 0
  doubled : ∀ b : Brightness, b.Doublable → between b.doubled.numbers x = between b.numbers x

theorem laws (m x : Grid Binary32) : Laws m x where
  symmetric hm hx := by
    refine ⟨deviation m x, ?_, ?_⟩
    · rw [between_eq, if_pos hm, if_pos hx]
    · rw [between_eq, if_pos hx, if_pos hm, deviation_swap]
  opposite := between_opposite m x
  self := between_self
  doubled _ hb := between_doubled hb x

/-- for example, the light of a robot in front of us -/
theorem laws_headOn : Brightness.Doublable ⟨Controller.headOn⟩ ∧
    0 < norm (Brightness.numbers ⟨Controller.headOn⟩) ∧
    between (Brightness.numbers ⟨Controller.headOn⟩) (Brightness.numbers ⟨Controller.headOn⟩) =
      .ok 0 ∧
    between (Brightness.doubled ⟨Controller.headOn⟩).numbers
      (Brightness.numbers ⟨Controller.headOn⟩) = .ok 0 := by
  have hdoublable : Brightness.Doublable ⟨Controller.headOn⟩ := by decide
  have hnorm : 0 < norm (Brightness.numbers ⟨Controller.headOn⟩) := by decide +kernel
  have hlaws := laws (Brightness.numbers ⟨Controller.headOn⟩)
    (Brightness.numbers ⟨Controller.headOn⟩)
  have hself := hlaws.self (fun e s => ?_) hnorm
  · exact ⟨hdoublable, hnorm, hself, (hlaws.doubled _ hdoublable).trans hself⟩
  · unfold Brightness.numbers
    rw [Grid.get_map]
    exact Brightness.number_isFinite _

end Innovation

end RangeBearing
