import RangeBearing.Binary.Basic

/-!
# Floating-point numbers and integers

* `Binary.truncate a`        the integer part of a number, toward zero;
* `Binary.clampTo lo hi a`   the integer part held between two bounds, `0` for `nan`; the
                             fixed-width readings `toUInt8`, `toUInt16`, `toInt16`, `toInt32`
                             are its instances;
* `Binary.ceil`              the next integer above;
* `Binary.round`             the nearest integer, a half going away from zero; both keep the sign,
                             of a zero too;
* `Binary.remainder a b`     what is left of `a` after taking out `b` a whole number of times,
                             with the sign of `a`; it is exact.
-/

namespace RangeBearing

namespace Binary

variable {F : Format}

/-- the integer part, `0` for a datum that is not finite -/
def truncate (a : Binary F) : Int := a.signedUnits.tdiv F.one

/-- the integer part held between `lo` and `hi` -/
def clampTo (lo hi : Int) : Binary F → Int
  | nan => 0
  | infinite s => if s then lo else hi
  | a@(finite _ _) => max lo (min hi a.truncate)

def toUInt8 (a : Binary F) : UInt8 := .ofNat (a.clampTo 0 0xff).toNat
def toUInt16 (a : Binary F) : UInt16 := .ofNat (a.clampTo 0 0xffff).toNat
def toInt16 (a : Binary F) : Int16 := .ofInt (a.clampTo (-0x8000) 0x7fff)
def toInt32 (a : Binary F) : Int32 := .ofInt (a.clampTo (-0x80000000) 0x7fffffff)

/-- the least integer that is not below the number -/
def ceil : Binary F → Binary F
  | finite s c =>
    let u := F.units c
    ofRatio s ((if s then u / F.one else (u + (F.one - 1)) / F.one) * F.one) 1
  | a => a

/-- the nearest integer, a half going away from zero -/
def round : Binary F → Binary F
  | finite s c => ofRatio s ((2 * F.units c + F.one) / (2 * F.one) * F.one) 1
  | a => a

/-- `a - k * b` for the whole number `k` that brings it nearest to zero on the side of `a` -/
def remainder : Binary F → Binary F → Binary F
  | finite s c, finite _ d =>
    if d.val = 0 then nan else ofRatio s (F.units c % F.units d) 1
  | a@(finite _ _), infinite _ => a
  | _, _ => nan

theorem clampTo_mem {lo hi : Int} (a : Binary F) (hl : lo ≤ 0) (hh : 0 ≤ hi) :
    lo ≤ a.clampTo lo hi ∧ a.clampTo lo hi ≤ hi := by
  cases a with
  | nan => exact ⟨hl, hh⟩
  | infinite s => cases s <;> simp only [clampTo] <;> constructor <;> simp <;> omega
  | finite s c => simp only [clampTo]; omega

end Binary

end RangeBearing
