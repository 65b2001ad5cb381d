/-!
# Binary fractions of 53 bits

Non-negative numbers `significand * 2 ^ exponent` as double precision holds them, with exact
rational arithmetic and rounding to the nearest, ties to even.
-/

namespace ComponentProps

/-- A non-negative number of double precision. -/
structure Double where
  significand : Nat
  exponent : Int
  deriving DecidableEq, Repr

namespace Double

/-- The least exponent: numbers below `2 ^ 52` times this power of two have fewer bits. -/
def minExponent : Int := -1074

def maxExponent : Int := 971

def zero : Double := ⟨0, minExponent⟩

def isZero (d : Double) : Bool := d.significand == 0

/-- The number as a numerator and a denominator. -/
def ratio (d : Double) : Nat × Nat :=
  if 0 ≤ d.exponent then (d.significand * Nat.pow 2 d.exponent.toNat, 1)
  else (d.significand, Nat.pow 2 (-d.exponent).toNat)

/-- The quotient `num / (den * 2 ^ e)` as a whole number, to the nearest, ties to even. -/
def roundScaled (num den : Nat) (e : Int) : Nat :=
  let num := if 0 ≤ e then num else num * Nat.pow 2 (-e).toNat
  let den := if 0 ≤ e then den * Nat.pow 2 e.toNat else den
  let q := num / den
  let r := num % den
  if 2 * r > den || (2 * r == den && q % 2 == 1) then q + 1 else q

/-- The exponent with which `num / den` has 53 bits, or the least exponent. -/
def scaleOf (num den : Nat) : Int :=
  let guess : Int := (Nat.log2 num : Int) - Nat.log2 den - 52
  let fits : Bool :=
    if 0 ≤ guess then num ≥ den * Nat.pow 2 (guess.toNat + 52)
    else num * Nat.pow 2 (-guess).toNat ≥ den * Nat.pow 2 52
  max (if fits then guess else guess - 1) minExponent

/-- The number nearest to `num / den`, unless it is too large. -/
def ofRatio? (num den : Nat) : Option Double :=
  if num = 0 then some zero
  else
    let e := scaleOf num den
    let m := roundScaled num den e
    let d : Double := if m = Nat.pow 2 53 then ⟨Nat.pow 2 52, e + 1⟩ else ⟨m, e⟩
    if d.exponent ≤ maxExponent then some d else none

def mul? (a b : Double) : Option Double :=
  ofRatio? (a.ratio.1 * b.ratio.1) (a.ratio.2 * b.ratio.2)

def div? (a b : Double) : Option Double :=
  ofRatio? (a.ratio.1 * b.ratio.2) (a.ratio.2 * b.ratio.1)

/-- The number nearest to a power of ten, up to the largest that fits. -/
def powerOfTen (k : Nat) : Double := (ofRatio? (Nat.pow 10 k) 1).getD zero

/-- The largest power of ten that fits. -/
def maxPowerOfTen : Nat := 308

/-- Divide by `10 ^ k`, in steps that fit. -/
def shrink (d : Double) (k : Nat) : Double :=
  if k ≤ maxPowerOfTen then (d.div? (powerOfTen k)).getD zero
  else if d.isZero then d
  else shrink ((d.div? (powerOfTen maxPowerOfTen)).getD zero) (k - maxPowerOfTen)
termination_by k
decreasing_by simp only [maxPowerOfTen] at *; omega

/-- The number read from `digits * 10 ^ scale`: the digits are rounded first, then the product or
quotient with the power of ten. -/
def ofDecimal? (digits : Nat) (scale : Int) : Option Double :=
  match ofRatio? digits 1 with
  | none => none
  | some d =>
    if scale < 0 then some (d.shrink (-scale).toNat)
    else if scale.toNat ≤ maxPowerOfTen then d.mul? (powerOfTen scale.toNat)
    else if d.isZero then some d
    else none

end Double

end ComponentProps
