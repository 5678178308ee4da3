import RangeBearing.Binary.Format

/-!
# Floating-point numbers

`Binary F` holds the data of a binary format with a single NaN: a signed zero, the finite numbers,
two infinities and `nan`.  Each operation computes its exact result in units of the format and
rounds it once (`Binary.ofRatio`).

* `Binary.signedUnits`         the value of a finite number, an integer;
* `Binary.ofRatio s n d`       the number nearest to `n / d` units, with the sign `s`;
* `+`, `-`, `*`, `/`           arithmetic, round to nearest even;
* `Binary.key?`                the place of a datum in the order, none for `nan`; `<`, `≤` and the
                               test `==` compare keys, so both zeros are equal and `nan` is
                               equal to nothing;
* decimal literals             read with one rounding.
-/

namespace RangeBearing

/-- a datum of the format `F`; `neg` is the sign -/
inductive Binary (F : Format) where
  | nan
  | infinite (neg : Bool)
  | finite (neg : Bool) (code : Fin F.top)
  deriving DecidableEq

abbrev Binary32 := Binary Format.binary32

abbrev Binary64 := Binary Format.binary64

namespace Binary

variable {F : Format}

/-- the datum with a sign and a code; a code of `top` or more is infinity -/
def ofCode (neg : Bool) (code : Nat) : Binary F :=
  if h : code < F.top then finite neg ⟨code, h⟩ else infinite neg

/-- the number nearest to `n / d` units -/
def ofRatio (neg : Bool) (n d : Nat) : Binary F := ofCode neg (F.nearest n d)

/-- the number nearest to a whole number of units -/
def ofUnits (i : Int) : Binary F := ofRatio (i < 0) i.natAbs 1

/-- the number nearest to an integer -/
def ofInt (i : Int) : Binary F := ofRatio (i < 0) (i.natAbs * F.one) 1

def zero (neg : Bool) : Binary F := ofCode neg 0

instance : Inhabited (Binary F) := ⟨nan⟩

/-! ## literals -/

instance (n : Nat) : OfNat (Binary F) n := ⟨ofInt n⟩

instance : OfScientific (Binary F) where
  ofScientific m negExp e :=
    if negExp then ofRatio false (m * F.one) (Nat.pow 10 e)
    else ofRatio false (m * Nat.pow 10 e * F.one) 1

/-! ## parts of a datum -/

def isNegative : Binary F → Bool
  | nan => false
  | infinite s => s
  | finite s _ => s

def isNaN : Binary F → Bool
  | nan => true
  | _ => false

/-- neither infinite nor `nan` -/
def isFinite : Binary F → Bool
  | finite _ _ => true
  | _ => false

/-- the code of the magnitude; that of `nan` lies above all others -/
def magnitude : Binary F → Nat
  | nan => F.top + 1
  | infinite _ => F.top
  | finite _ c => c

/-- the value in units of a finite number, `0` for the other data -/
def signedUnits : Binary F → Int
  | finite true c => -(F.units c : Int)
  | finite false c => F.units c
  | _ => 0

/-! ## order -/

/-- the place of a datum in the order of the format -/
def key? : Binary F → Option Int
  | nan => none
  | infinite s => some (if s then -(F.top : Int) else F.top)
  | finite s c => some (if s then -(c : Int) else (c : Int))

/-- whether both data have keys and the keys are related -/
def keysSatisfy (r : Int → Int → Bool) (a b : Binary F) : Bool :=
  match a.key?, b.key? with
  | some x, some y => r x y
  | _, _ => false

instance : LT (Binary F) := ⟨fun a b => keysSatisfy (fun x y => x < y) a b = true⟩
instance : LE (Binary F) := ⟨fun a b => keysSatisfy (fun x y => x ≤ y) a b = true⟩
instance : BEq (Binary F) := ⟨keysSatisfy fun x y => x == y⟩

instance (a b : Binary F) : Decidable (a < b) := inferInstanceAs (Decidable (_ = true))
instance (a b : Binary F) : Decidable (a ≤ b) := inferInstanceAs (Decidable (_ = true))

/-- the greater datum; `nan` yields to a number, and of two equal data the second is taken -/
instance : Max (Binary F) := ⟨fun a b => if a.isNaN ∨ a ≤ b then b else a⟩

/-- the smaller datum; `nan` yields to a number, and of two equal data the second is taken -/
instance : Min (Binary F) := ⟨fun a b => if a.isNaN ∨ b ≤ a then b else a⟩

/-! ## arithmetic -/

def neg : Binary F → Binary F
  | nan => nan
  | infinite s => infinite !s
  | finite s c => finite (!s) c

instance : Neg (Binary F) := ⟨neg⟩

def abs : Binary F → Binary F
  | nan => nan
  | infinite _ => infinite false
  | finite _ c => finite false c

/-- an exact sum of zero is the negative zero only if both terms are negative -/
def add : Binary F → Binary F → Binary F
  | nan, _ | _, nan => nan
  | infinite s, infinite t => if s = t then infinite s else nan
  | infinite s, finite _ _ => infinite s
  | finite _ _, infinite t => infinite t
  | x@(finite s _), y@(finite t _) =>
    let sum := x.signedUnits + y.signedUnits
    if sum = 0 then zero (s && t) else ofUnits sum

instance : Add (Binary F) := ⟨add⟩
instance : Sub (Binary F) := ⟨fun a b => a + -b⟩

def mul : Binary F → Binary F → Binary F
  | nan, _ | _, nan => nan
  | infinite s, infinite t => infinite (s != t)
  | infinite s, finite t c => if c.val = 0 then nan else infinite (s != t)
  | finite s c, infinite t => if c.val = 0 then nan else infinite (s != t)
  | finite s c, finite t d => ofRatio (s != t) (F.units c * F.units d) F.one

instance : Mul (Binary F) := ⟨mul⟩

def div : Binary F → Binary F → Binary F
  | nan, _ | _, nan => nan
  | infinite _, infinite _ => nan
  | infinite s, finite t _ => infinite (s != t)
  | finite s _, infinite t => zero (s != t)
  | finite s c, finite t d =>
    if d.val = 0 then
      if c.val = 0 then nan else infinite (s != t)
    else ofRatio (s != t) (F.units c * F.one) (F.units d)

instance : Div (Binary F) := ⟨div⟩

/-- the same number in another format, rounded once -/
def convert {G : Format} : Binary F → Binary G
  | nan => nan
  | infinite s => infinite s
  | finite s c => ofRatio s (F.units c * G.one) F.one

theorem neg_neg (a : Binary F) : - -a = a := by
  cases a <;> simp [Neg.neg, neg]

theorem key?_eq_none {a : Binary F} : a.key? = none ↔ a = nan := by
  cases a <;> simp [key?]

theorem lt_iff {a b : Binary F} :
    a < b ↔ ∃ x y, a.key? = some x ∧ b.key? = some y ∧ x < y := by
  change keysSatisfy _ a b = true ↔ _
  cases ha : a.key? <;> cases hb : b.key? <;> simp [keysSatisfy, ha, hb]

theorem le_iff {a b : Binary F} :
    a ≤ b ↔ ∃ x y, a.key? = some x ∧ b.key? = some y ∧ x ≤ y := by
  change keysSatisfy _ a b = true ↔ _
  cases ha : a.key? <;> cases hb : b.key? <;> simp [keysSatisfy, ha, hb]

end Binary

end RangeBearing
