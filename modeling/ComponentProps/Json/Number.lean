import ComponentProps.Decimal.Shortest
import ComponentProps.Json.Input

/-!
# Numbers in JSON text

Numbers are read only to be named in a message. Integers are held in 64 bits and everything else in
double precision: digits that no longer fit are dropped and only counted.
-/

namespace ComponentProps.Json

open Text

def maxWord : Nat := Nat.pow 2 64 - 1

/-- The largest exponent that is read; a larger one is taken for infinite. -/
def maxExponent : Nat := Nat.pow 2 31 - 1

def digitValue (c : Char) : Nat := c.toNat - '0'.toNat

/-- The digits that fit into 64 bits, as a number, and those after them. -/
def takeDigits (n : Nat) : Text → Nat × Text
  | [] => (n, [])
  | c :: rest =>
    if n * 10 + digitValue c ≤ maxWord then takeDigits (n * 10 + digitValue c) rest
    else (n, c :: rest)

/-- The number named by a sign, digits and a power of ten. -/
def scaled (positive : Bool) (digits : Nat) (scale : Int) : Reader Found := fun i =>
  match Double.ofDecimal? digits scale with
  | some d => .ok (.float ((if positive then [] else ['-']) ++ d.toText), i)
  | none => .error (i.fault .numberOutOfRange)

/-- Read the digits of an exponent, the first of which has been read into `e`. -/
def readExponentDigits (positive : Bool) (digits : Nat) (scale : Int) (positiveExponent : Bool)
    (e : Nat) (offset : Nat) : Text → Except Fault (Found × Input)
  | [] => scaled positive digits (if positiveExponent then scale + e else scale - e) ⟨offset, []⟩
  | c :: rest =>
    if c.isDigit then
      if e * 10 + digitValue c ≤ maxExponent then
        readExponentDigits positive digits scale positiveExponent (e * 10 + digitValue c)
          (offset + 1) rest
      else if digits != 0 && positiveExponent then .error ⟨.numberOutOfRange, offset + 1⟩
      else
        let more := (rest.takeWhile Char.isDigit).length
        scaled positive 0 0 ⟨offset + 1 + more, rest.drop more⟩
    else
      scaled positive digits (if positiveExponent then scale + e else scale - e) ⟨offset, c :: rest⟩

/-- Read an exponent with the input at its `e`. -/
def readExponent (positive : Bool) (digits : Nat) (scale : Int) : Reader Found := fun i =>
  let i := i.pass 1
  let negative := i.rest.head? == some '-'
  let i := if negative || i.rest.head? == some '+' then i.pass 1 else i
  match i.rest with
  | [] => .error (i.fault .endInValue)
  | c :: rest =>
    if c.isDigit then
      readExponentDigits positive digits scale (!negative) (digitValue c) (i.offset + 1) rest
    else .error (i.faultAhead .invalidNumber)

/-- Read what follows the digits of a number that is not an integer. -/
def readScaled (positive : Bool) (digits : Nat) (scale : Int) : Reader Found := fun i =>
  if i.rest.head? == some 'e' || i.rest.head? == some 'E' then
    readExponent positive digits scale i
  else scaled positive digits scale i

/-- Read a fraction with the input at its point. -/
def readFraction (positive : Bool) (digits : Nat) (scale : Int) : Reader Found := fun i =>
  let i := i.pass 1
  let fraction := i.rest.takeWhile Char.isDigit
  if fraction.isEmpty then
    .error (i.faultAhead (if i.rest.isEmpty then .endInValue else .invalidNumber))
  else
    let (n, dropped) := takeDigits digits fraction
    readScaled positive n (scale - (fraction.length - dropped.length : Nat))
      (i.pass fraction.length)

/-- Read a number after its sign. -/
def readNumber (positive : Bool) : Reader Found := fun i =>
  let whole := i.rest.takeWhile Char.isDigit
  match whole with
  | [] =>
    .error (if i.rest.isEmpty then i.fault .endInValue else i.faultAhead .invalidNumber)
  | c :: more =>
    if c = '0' && !more.isEmpty then .error ⟨.invalidNumber, i.offset + 2⟩
    else
      let (n, dropped) := takeDigits 0 whole
      let i := i.pass whole.length
      if i.rest.head? == some '.' then readFraction positive n dropped.length i
      else if !dropped.isEmpty || i.rest.head? == some 'e' || i.rest.head? == some 'E' then
        readScaled positive n dropped.length i
      else if positive then .ok (.integer n, i)
      else if n = 0 || Nat.pow 2 63 < n then scaled false n 0 i
      else .ok (.integer (-n), i)

/-! ### Numbers that are passed over -/

/-- Pass over an exponent with the input at its `e`. -/
def skipExponent (i : Input) : Except Fault Input :=
  let i := i.pass 1
  let i := if i.rest.head? == some '-' || i.rest.head? == some '+' then i.pass 1 else i
  let digits := i.rest.takeWhile Char.isDigit
  if digits.isEmpty then .error (i.faultAhead .invalidNumber) else .ok (i.pass digits.length)

def skipExponentIfAny (i : Input) : Except Fault Input :=
  if i.rest.head? == some 'e' || i.rest.head? == some 'E' then skipExponent i else .ok i

/-- Pass over a number after its sign. -/
def skipNumber (i : Input) : Except Fault Input :=
  let whole := i.rest.takeWhile Char.isDigit
  match whole with
  | [] => .error (i.faultAhead .invalidNumber)
  | c :: more =>
    if c = '0' && !more.isEmpty then .error ⟨.invalidNumber, i.offset + 2⟩
    else
      let i := i.pass whole.length
      if i.rest.head? == some '.' then
        let i := i.pass 1
        let fraction := i.rest.takeWhile Char.isDigit
        if fraction.isEmpty then .error (i.faultAhead .invalidNumber)
        else skipExponentIfAny (i.pass fraction.length)
      else skipExponentIfAny i

end ComponentProps.Json
