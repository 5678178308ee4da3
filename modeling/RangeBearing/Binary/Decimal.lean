import RangeBearing.Binary.Basic

/-!
# Shortest decimal text

A magnitude of `u` units is `u * 5 ^ q` parts of `10 ^ -q`, where `q` is the format's
`quantumExponent`: every finite number is a whole number of DECIMAL PARTS.

* `Format.parts F c`         the magnitude with code `c` in decimal parts;
* `Format.readsBack F c m`   `m` half parts lie in the interval of the decimals that are read as
                             the code `c`; its ends belong to it when the code is even;
* `Format.shortest F c`      the parts of the decimal that has the fewest digits of those in the
                             interval; of two such the nearer, of two equally near the greater;
* `Binary.text`              the positional text: never an exponent, no point before an empty
                             fraction, `-0`, `NaN`, `inf`, `-inf`.
-/

namespace RangeBearing

namespace Format

variable (F : Format)

/-- a magnitude in parts of `10 ^ -quantumExponent` -/
def parts (c : Nat) : Nat := F.units c * Nat.pow 5 F.quantumExponent

/-- whether `m` half parts lie between the midpoints to the neighbouring magnitudes -/
def readsBack (c m : Nat) : Bool :=
  let low := F.parts (c - 1) + F.parts c
  let high := F.parts c + F.parts (c + 1)
  if c % 2 = 0 then low ≤ m && m ≤ high else low < m && m < high

/-- the multiple of `step` nearest to the magnitude among its two neighbours on that grid that are
read back, if there is one -/
def onGrid? (c step : Nat) : Option Nat :=
  let m := F.parts c
  let below := m / step * step
  let above := below + step
  match F.readsBack c (2 * below), F.readsBack c (2 * above) with
  | true, true => some (if m - below < above - m then below else above)
  | true, false => some below
  | false, true => some above
  | false, false => none

/-- the shortest decimal that is read as the code `c`, in decimal parts; `0` for the code `0` -/
def shortest (c : Nat) : Nat :=
  let m := F.parts c
  if m = 0 then 0
  else
    let length := (Nat.toDigits 10 m).length
    ((List.range length).findSome? fun n => F.onGrid? c (Nat.pow 10 (length - 1 - n))).getD m

end Format

/-- `m` parts of `10 ^ -q` written out: the whole part, and the fraction without its last zeros -/
def positional (m q : Nat) : String :=
  let digits := Nat.toDigits 10 (m % Nat.pow 10 q)
  let fraction := List.replicate (q - digits.length) '0' ++ digits
  let fraction := (fraction.reverse.dropWhile (· == '0')).reverse
  let whole := toString (m / Nat.pow 10 q)
  if fraction.isEmpty then whole else whole ++ "." ++ String.ofList fraction

namespace Binary

variable {F : Format}

/-- the shortest text that is read back as the same datum -/
def text : Binary F → String
  | nan => "NaN"
  | infinite s => if s then "-inf" else "inf"
  | finite s c => (if s then "-" else "") ++ positional (F.shortest c) F.quantumExponent

end Binary

end RangeBearing
