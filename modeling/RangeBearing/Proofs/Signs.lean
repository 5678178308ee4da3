import RangeBearing.Proofs.Order

/-!
# Signs

Rounding to nearest treats both signs alike, so changing the signs of the operands changes at most
the sign of the result.  The one exception is a sum that is exactly zero: its sign is positive
unless both terms are negative.

* `Binary.neg_mul`, `Binary.neg_mul_neg`, `Binary.neg_div`;
* `Binary.add_swap`, `Binary.abs_sub_swap`    for all data;
* `Binary.neg_add_neg`                        for a sum that is not zero.
-/

namespace RangeBearing

namespace Binary

variable {F : Format} {a b : Binary F}

/-! ## the parts of a datum -/

theorem neg_ofCode (s : Bool) (c : Nat) : -(ofCode (F := F) s c) = ofCode (!s) c := by
  unfold ofCode
  split
  · rfl
  · rfl

theorem abs_ofCode (s : Bool) (c : Nat) : (ofCode (F := F) s c).abs = ofCode false c := by
  unfold ofCode
  split
  · rfl
  · rfl

theorem abs_neg (a : Binary F) : (-a).abs = a.abs := by
  cases a <;> rfl

theorem magnitude_neg (a : Binary F) : (-a).magnitude = a.magnitude := by
  cases a <;> rfl

theorem isNegative_neg (ha : a ≠ nan) : (-a).isNegative = !a.isNegative := by
  cases a with
  | nan => exact absurd rfl ha
  | infinite s => rfl
  | finite s c => rfl

theorem signedUnits_neg (a : Binary F) : (-a).signedUnits = -a.signedUnits := by
  cases a with
  | nan => rfl
  | infinite s => rfl
  | finite s c =>
    cases s with
    | true => exact (Int.neg_neg _).symm
    | false => rfl

/-- a datum is its magnitude with its sign -/
theorem eq_signed_abs (a : Binary F) : a = if a.isNegative then -a.abs else a.abs := by
  cases a with
  | nan => rfl
  | infinite s => cases s <;> rfl
  | finite s c => cases s <;> rfl

/-! ## products and quotients -/

theorem neg_mul (a b : Binary F) : -a * b = -(a * b) := by
  show mul (-a) b = -mul a b
  cases a with
  | nan => cases b <;> rfl
  | infinite s =>
    cases b with
    | nan => rfl
    | infinite t => exact congrArg infinite (Bool.not_bne _ _)
    | finite t d =>
      show (if d.val = 0 then nan else infinite ((!s) != t)) =
        -(if d.val = 0 then nan else infinite (s != t))
      rw [Bool.not_bne, apply_ite Neg.neg]
      rfl
  | finite s c =>
    cases b with
    | nan => rfl
    | infinite t =>
      show (if c.val = 0 then nan else infinite ((!s) != t)) =
        -(if c.val = 0 then nan else infinite (s != t))
      rw [Bool.not_bne, apply_ite Neg.neg]
      rfl
    | finite t d =>
      show ofCode ((!s) != t) _ = -ofCode (s != t) _
      rw [neg_ofCode, Bool.not_bne]

theorem mul_neg (a b : Binary F) : a * -b = -(a * b) := by
  rw [mul_swap, neg_mul, mul_swap]

theorem neg_mul_neg (a b : Binary F) : -a * -b = a * b := by
  rw [neg_mul, mul_neg, neg_neg]

theorem neg_div (a b : Binary F) : -a / b = -(a / b) := by
  show div (-a) b = -div a b
  cases a with
  | nan => cases b <;> rfl
  | infinite s =>
    cases b with
    | nan => rfl
    | infinite t => rfl
    | finite t d => exact congrArg infinite (Bool.not_bne _ _)
  | finite s c =>
    cases b with
    | nan => rfl
    | infinite t =>
      show ofCode ((!s) != t) 0 = -ofCode (s != t) 0
      rw [neg_ofCode, Bool.not_bne]
    | finite t d =>
      show (if d.val = 0 then if c.val = 0 then nan else infinite ((!s) != t)
          else ofCode ((!s) != t) _) =
        -(if d.val = 0 then if c.val = 0 then nan else infinite (s != t) else ofCode (s != t) _)
      rw [Bool.not_bne, apply_ite Neg.neg, apply_ite Neg.neg, neg_ofCode]
      rfl

/-! ## sums -/

theorem add_swap (a b : Binary F) : a + b = b + a := by
  show add a b = add b a
  cases a with
  | nan => cases b <;> rfl
  | infinite s =>
    cases b with
    | nan => rfl
    | infinite t => cases s <;> cases t <;> rfl
    | finite t d => rfl
  | finite s c =>
    cases b with
    | nan => rfl
    | infinite t => rfl
    | finite t d =>
      show finite s c + finite t d = finite t d + finite s c
      rw [add_finite, add_finite, Int.add_comm, Bool.and_comm]

theorem ofUnits_neg {i : Int} (hi : i ≠ 0) : ofUnits (F := F) (-i) = -ofUnits i := by
  have hsign : decide (-i < 0) = !decide (i < 0) := by
    rw [← decide_not, decide_eq_decide]
    omega
  unfold ofUnits ofRatio
  rw [neg_ofCode, hsign, Int.natAbs_neg]

theorem neg_add_neg (ha : a.isFinite) (hb : b.isFinite)
    (hsum : a.signedUnits + b.signedUnits ≠ 0) : -a + -b = -(a + b) := by
  obtain ⟨s, c, rfl⟩ := exists_finite ha
  obtain ⟨t, d, rfl⟩ := exists_finite hb
  have hneg := Int.neg_add (a := (finite s c).signedUnits) (b := (finite t d).signedUnits)
  rw [← signedUnits_neg, ← signedUnits_neg] at hneg
  rw [add_finite, if_neg hsum, ← ofUnits_neg hsum, hneg]
  refine if_neg fun hzero => hsum ?_
  rw [← Int.neg_eq_zero, hneg]
  exact hzero

theorem abs_neg_add_neg (a b : Binary F) : (-a + -b).abs = (a + b).abs := by
  cases a with
  | nan => rfl
  | infinite s =>
    cases b with
    | nan => rfl
    | infinite t => cases s <;> cases t <;> rfl
    | finite t d => rfl
  | finite s c =>
    cases b with
    | nan => rfl
    | infinite t => rfl
    | finite t d =>
      by_cases hsum : (finite s c).signedUnits + (finite t d).signedUnits = 0
      · have hneg : (finite (!s) c).signedUnits + (finite (!t) d).signedUnits = 0 := by
          show (-(finite s c)).signedUnits + (-(finite t d)).signedUnits = 0
          rw [signedUnits_neg, signedUnits_neg]
          omega
        show (finite (!s) c + finite (!t) d).abs = _
        rw [add_finite, add_finite, if_pos hsum, if_pos hneg]
        exact (abs_ofCode _ _).trans (abs_ofCode _ _).symm
      · rw [neg_add_neg rfl rfl hsum, abs_neg]

theorem neg_sub_neg (a b : Binary F) : -a - -b = b - a := by
  rw [sub_eq, sub_eq, neg_neg, add_swap]

theorem abs_sub_swap (a b : Binary F) : (a - b).abs = (b - a).abs := by
  rw [← neg_sub_neg a b, sub_eq, sub_eq, abs_neg_add_neg]

theorem sub_self [NeZero F.precision] (ha : a.isFinite) : a - a = 0 := by
  obtain ⟨s, c, rfl⟩ := exists_finite ha
  have hsum : (finite s c).signedUnits + (-finite s c).signedUnits = 0 := by
    rw [signedUnits_neg]
    omega
  rw [sub_eq, zero_eq]
  show finite s c + finite (!s) c = _
  rw [add_finite]
  refine (if_pos hsum).trans ?_
  rw [Bool.and_not_self]
  rfl

end Binary

end RangeBearing
