import ComponentProps.Decimal.Double
import ComponentProps.Text.Basic

/-!
# The shortest decimal of a number

The fewest digits that read back as the number, and of those the nearest to it. Plain notation is
used for sixteen digits before the point and up to four zeros after it, an exponent with its sign
otherwise.
-/

namespace ComponentProps.Double

/-- Fractions with a common positive denominator: the ends of the interval that rounds to a number,
and the number itself. -/
structure Interval where
  low : Nat
  value : Nat
  high : Nat
  den : Nat
  /-- The ends round to the number as well. -/
  closed : Bool
  deriving DecidableEq, Repr

/-- The interval of fractions that round to a number. -/
def interval (d : Double) : Interval :=
  -- in units of a quarter of the last place
  let low := if d.significand = Nat.pow 2 52 && d.exponent > minExponent then 1 else 2
  let unit : Double := ⟨1, d.exponent - 2⟩
  let (n, den) := unit.ratio
  ⟨(4 * d.significand - low) * n, 4 * d.significand * n, (4 * d.significand + 2) * n, den,
    d.significand % 2 == 0⟩

namespace Interval

/-- Whether `digits * 10 ^ p` lies in the interval. -/
def holds (i : Interval) (digits : Nat) (p : Int) : Bool :=
  let x := digits * (if 0 ≤ p then Nat.pow 10 p.toNat else 1) * i.den
  let s := if 0 ≤ p then 1 else Nat.pow 10 (-p).toNat
  if i.closed then i.low * s ≤ x && x ≤ i.high * s else i.low * s < x && x < i.high * s

/-- The nearest of the two neighbours of the value on the grid of `10 ^ p` that lies in the
interval. -/
def nearest? (i : Interval) (p : Int) : Option Nat :=
  let num := i.value * (if 0 ≤ p then 1 else Nat.pow 10 (-p).toNat)
  let den := i.den * (if 0 ≤ p then Nat.pow 10 p.toNat else 1)
  let below := num / den
  let r := num % den
  let nearer := if 2 * r > den || (2 * r == den && below % 2 == 1) then below + 1 else below
  let other := if nearer = below then below + 1 else below
  if i.holds nearer p then some nearer
  else if i.holds other p then some other
  else none

/-- The power of ten of the first digit of a positive value. -/
def topPower (i : Interval) : Int :=
  if i.den ≤ i.value then ((Nat.toDigits 10 (i.value / i.den)).length : Int) - 1
  else
    let zeros := (Nat.toDigits 10 (i.den / i.value)).length
    -- the quotient of the two gives the number of zeros up to one
    if i.value * Nat.pow 10 (zeros - 1) ≥ i.den then -((zeros : Int) - 1) else -(zeros : Int)

end Interval

/-- The digits and the power of ten of the shortest decimal, looked for with one digit more each
time. Seventeen digits are enough. -/
def shortestFrom (i : Interval) (top : Int) : Nat → Nat → Nat × Int
  | 0, n => (((i.nearest? (top - n + 1)).getD 0), top - n + 1)
  | more + 1, n =>
    match i.nearest? (top - n + 1) with
    | some digits => (digits, top - n + 1)
    | none => shortestFrom i top more (n + 1)

/-- Digits without zeros at the end, with the power of ten raised to match. -/
def withoutZeros (digits : Nat) (p : Int) : Nat × Int :=
  let text := (Nat.toDigits 10 digits).reverse
  let zeros := (text.takeWhile (· == '0')).length
  (digits / Nat.pow 10 zeros, p + zeros)

/-- The text of a number. -/
def toText (d : Double) : Text :=
  if d.isZero then "0.0".toList
  else
    let i := d.interval
    let (digits, p) := shortestFrom i i.topPower 16 1
    let (digits, p) := withoutZeros digits p
    let text := Nat.toDigits 10 digits
    let point := (text.length : Int) + p
    if 0 ≤ p && point ≤ 16 then text ++ List.replicate p.toNat '0' ++ ".0".toList
    else if 0 < point && point ≤ 16 then
      text.take point.toNat ++ '.' :: text.drop point.toNat
    else if -5 < point && point ≤ 0 then
      "0.".toList ++ List.replicate (-point).toNat '0' ++ text
    else
      let mantissa := if text.length = 1 then text else text.take 1 ++ '.' :: text.drop 1
      let e := point - 1
      mantissa ++ 'e' :: (if e < 0 then '-' else '+') :: Nat.toDigits 10 e.natAbs

end ComponentProps.Double
