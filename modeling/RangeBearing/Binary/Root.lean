import RangeBearing.Binary.Basic

/-!
# Square roots

`Binary.sqrt` is the correctly rounded square root.  The root of `u / one` is the root of
`u * one` units.  Its integer part has more digits than a significand, because `one` has more
than twice as many, so the only thing that rounding has to know about the fraction is whether it
is zero; a half stands for any other fraction.
-/

namespace RangeBearing

/-- twice the root of `n` when that is whole, and otherwise the odd number between its two
neighbours -/
def doubledRoot (n : Nat) : Nat :=
  let r := n.sqrt
  if r * r = n then 2 * r else 2 * r + 1

namespace Binary

variable {F : Format}

/-- the square root; that of a negative number is `nan`, and a zero keeps its sign -/
def sqrt : Binary F → Binary F
  | finite s c =>
    if c.val = 0 then finite s c
    else if s then nan
    else ofRatio false (doubledRoot (F.units c * F.one)) 2
  | infinite false => infinite false
  | _ => nan

end Binary

end RangeBearing
