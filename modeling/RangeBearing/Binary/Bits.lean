import RangeBearing.Binary.Basic

/-!
# The interchange encoding

A datum is written as a sign bit followed by the code of its magnitude; every code above `top` is
a NaN.  Reading a written datum gives it back (`Binary.ofBits_toBits`).
-/

namespace RangeBearing

namespace Binary

variable {F : Format}

/-- the weight of the sign bit -/
def signBit (F : Format) : Nat := Nat.pow 2 F.exponentWidth * F.binade

/-- the encoding of a datum; `nan` gets the code just above infinity -/
def toBits (a : Binary F) : Nat :=
  (if a.isNegative then signBit F else 0) + a.magnitude

/-- the datum with an encoding -/
def ofBits (b : Nat) : Binary F :=
  let code := b % signBit F
  if F.top < code then nan else ofCode (signBit F ≤ b) code

theorem top_lt_signBit (F : Format) : F.top < signBit F := by
  have : 0 < F.binade := Nat.two_pow_pos _
  have h : Nat.pow 2 F.exponentWidth - 1 < Nat.pow 2 F.exponentWidth := by
    exact Nat.sub_lt (Nat.two_pow_pos _) (by decide)
  exact Nat.mul_lt_mul_of_pos_right h this

theorem ofBits_sign (s : Bool) (c : Nat) (h : c ≤ F.top) :
    ofBits ((if s then signBit F else 0) + c) = ofCode (F := F) s c := by
  have ht := top_lt_signBit F
  have hm : ((if s then signBit F else 0) + c) % signBit F = c := by
    cases s
    · simpa using Nat.mod_eq_of_lt (by omega)
    · simpa using Nat.mod_eq_of_lt (by omega)
  have hs : decide (signBit F ≤ (if s then signBit F else 0) + c) = s := by
    cases s
    · simp; omega
    · simp
  simp only [ofBits, hm, hs]
  rw [if_neg (by omega)]

/-- reading a written number gives it back -/
theorem ofBits_toBits (a : Binary F) (h : a ≠ nan) : ofBits a.toBits = a := by
  cases a with
  | nan => exact absurd rfl h
  | infinite s =>
    exact (ofBits_sign s F.top (Nat.le_refl _)).trans (by simp [ofCode])
  | finite s c =>
    exact (ofBits_sign s c (Nat.le_of_lt c.isLt)).trans (by simp [ofCode])

end Binary

end RangeBearing
