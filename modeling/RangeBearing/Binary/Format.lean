/-!
# Binary interchange formats and their codes

The magnitudes of a format are numbered in increasing order by CODES: code `0` is zero, code `1`
the smallest positive number, and so on up to `top`, the code of infinity.  Written in binary, a
code is the exponent field followed by the fraction field.

* `Format.units F c`      the magnitude with code `c`, counted in multiples of the smallest
                          positive number, so that every finite magnitude is a natural number;
* `Format.nearest F n d`  the code of the magnitude nearest to `n / d` units, a tie going to the
                          even code.

All arithmetic of the library is "the exact result, rounded once by `nearest`".
-/

namespace RangeBearing

/-- a binary format: the digits of a significand (the leading one included) and the width of the
exponent field -/
structure Format where
  precision : Nat
  exponentWidth : Nat
  deriving DecidableEq

namespace Format

def binary32 : Format := ⟨24, 8⟩

def binary64 : Format := ⟨53, 11⟩

/-- the smallest positive magnitude is `2 ^ -quantumExponent` -/
def quantumExponent (F : Format) : Nat := Nat.pow 2 (F.exponentWidth - 1) + F.precision - 3

/-- the number `1` in units -/
def one (F : Format) : Nat := Nat.pow 2 F.quantumExponent

/-- how many codes share one exponent -/
def binade (F : Format) : Nat := Nat.pow 2 (F.precision - 1)

/-- the code of infinity; the finite magnitudes have the codes below it -/
def top (F : Format) : Nat := (Nat.pow 2 F.exponentWidth - 1) * F.binade

/-- the magnitude with code `c`, in units -/
def units (F : Format) (c : Nat) : Nat :=
  if c < F.binade then c else (F.binade + c % F.binade) * Nat.pow 2 (c / F.binade - 1)

end Format

/-- the integer nearest to `n / d`, a tie going to the even one -/
def divEven (n d : Nat) : Nat :=
  let q := n / d
  let r := n % d
  if 2 * r < d then q else if d < 2 * r then q + 1 else q + q % 2

/-- how many binary digits of an integer part `q` lie below a significand of the format -/
def Format.excess (F : Format) (q : Nat) : Nat := q.log2 + 1 - F.precision

/-- the code of the magnitude nearest to `n / d` units; it is at least `top` when the quotient
rounds to infinity -/
def Format.nearest (F : Format) (n d : Nat) : Nat :=
  let e := F.excess (n / d)
  e * F.binade + divEven n (d * Nat.pow 2 e)

theorem divEven_one (n : Nat) : divEven n 1 = n := by
  simp [divEven, Nat.mod_one]

theorem divEven_zero (d : Nat) (h : 0 < d) : divEven 0 d = 0 := by
  simp [divEven, h]

/-- a whole multiple of the divisor is not rounded -/
theorem divEven_mul (k d : Nat) (h : 0 < d) : divEven (k * d) d = k := by
  simp [divEven, Nat.mul_div_cancel _ h, h]

theorem Format.nearest_zero (F : Format) (d : Nat) (hp : 0 < F.precision) (h : 0 < d) :
    F.nearest 0 d = 0 := by
  have he : F.excess 0 = 0 := by simp only [excess, Nat.log2_zero]; omega
  simp [nearest, he, divEven_zero d h]

end RangeBearing
