import Parley.Number.Binary
import Parley.Text
set_option autoImplicit false

/-!
Decimal text of doubles.

Writing gives the fewest digits that read back as the same double, always in positional notation.
Of two shortest candidates the nearer one is taken, and the upper one of two equally near.
Reading gives the double nearest to the decimal.
-/

namespace Parley.Number

def tenTo (n : Nat) : Nat :=
  Nat.pow 10 n

/-- The decimal `digits · 10 ^ exponent`. -/
structure Decimal where
  digits : Nat
  exponent : Int
  deriving DecidableEq, Repr

namespace Decimal

/-- A quotient of whole numbers as a place to compare decimals with. -/
structure Ratio where
  num : Nat
  den : Nat

def Ratio.ofBinary (m : Nat) (e : Int) : Ratio :=
  ⟨m * twoTo e.toNat, twoTo (-e).toNat⟩

/-- How `d · 10 ^ k` compares with a ratio. -/
def compareRatio (d : Nat) (k : Int) (r : Ratio) : Ordering :=
  compare (d * tenTo k.toNat * r.den) (r.num * tenTo (-k).toNat)

/-- The number of decimal places before the point; zero or less for a ratio below one tenth. -/
def placesBefore (r : Ratio) : Int :=
  if r.den ≤ r.num then ((Nat.toDigits 10 (r.num / r.den)).length : Int)
  else
    match (List.range 400).find? fun j => decide (r.den ≤ r.num * tenTo (j + 1)) with
    | some j => -(j : Int)
    | none => -400

structure Interval where
  low : Ratio
  high : Ratio
  closed : Bool

def Interval.holds (i : Interval) (d : Nat) (k : Int) : Bool :=
  match compareRatio d k i.low, compareRatio d k i.high with
  | .gt, .lt => true
  | .eq, _ => i.closed
  | _, .eq => i.closed
  | _, _ => false

/-- The numbers that are nearest to the double `m · 2 ^ e`. The gap below a power of two is half as
wide, and the ends belong to the double whose mantissa is even. -/
def roundingInterval (m : Nat) (e : Int) : Interval :=
  let below := if m = twoTo 52 ∧ leastExponent < e then 1 else 2
  ⟨.ofBinary (4 * m - below) (e - 2), .ofBinary (4 * m + 2) (e - 2), m % 2 == 0⟩

/-- The better of the two neighbours of the value on the grid of `10 ^ k`, if one reads back. -/
def neighbour? (value : Ratio) (interval : Interval) (k : Int) : Option Decimal :=
  let d := value.num * tenTo (-k).toNat / (value.den * tenTo k.toNat)
  match interval.holds d k, interval.holds (d + 1) k with
  | true, false => some ⟨d, k⟩
  | false, true => some ⟨d + 1, k⟩
  | false, false => none
  | true, true =>
    match compareRatio (2 * d + 1) k ⟨2 * value.num, value.den⟩ with
    | .gt => some ⟨d, k⟩
    | _ => some ⟨d + 1, k⟩

/-- Moves trailing zeros of the digits into the exponent; `n` bounds their number. -/
def stripZeros : Nat → Decimal → Decimal
  | 0, d => d
  | n + 1, d =>
    if d.digits % 10 = 0 ∧ d.digits ≠ 0 then stripZeros n ⟨d.digits / 10, d.exponent + 1⟩ else d

/-- The shortest decimal that reads back as the double `m · 2 ^ e`. -/
def shortest (m : Nat) (e : Int) : Decimal :=
  let value := Ratio.ofBinary m e
  let places := placesBefore value
  let found := (List.range 17).findSome? fun n =>
    neighbour? value (roundingInterval m e) (places - (n + 1 : Nat))
  stripZeros 20 (found.getD ⟨m, e⟩)

/-- Positional notation, without a point when there is nothing after it. -/
def positional (d : Decimal) : Text :=
  let digits := Nat.toDigits 10 d.digits
  if 0 ≤ d.exponent then digits ++ List.replicate d.exponent.toNat '0'
  else
    let point := (digits.length : Int) + d.exponent
    if 0 < point then digits.take point.toNat ++ '.' :: digits.drop point.toNat
    else '0' :: '.' :: (List.replicate (-point).toNat '0' ++ digits)

/-- The nearest double. Exponents beyond the range of doubles are cut short: what is too large
is infinite and what is too small is zero. -/
def toFloat (d : Decimal) : Float :=
  let size : Int := (Nat.toDigits 10 d.digits).length
  if d.digits = 0 ∨ size + d.exponent < -400 then 0.0
  else if 400 < size + d.exponent then Float.ofScientific 1 false 400
  else Float.ofScientific d.digits (decide (d.exponent < 0)) d.exponent.natAbs

end Decimal

def magnitudeText (x : Float) : Text :=
  match Binary.ofFloat x with
  | .nan => "NaN".toList
  | .infinite _ => "inf".toList
  | .finite _ m e => if m = 0 then ['0'] else (Decimal.shortest m e).positional

/-- The text of a double. The sign of zero is written, the sign of `NaN` is not. -/
def text (x : Float) : Text :=
  match Binary.ofFloat x with
  | .infinite true => '-' :: magnitudeText x
  | .finite true _ _ => '-' :: magnitudeText x
  | _ => magnitudeText x

def digitsValue (t : Text) : Nat :=
  t.foldl (fun n c => 10 * n + (c.toNat - '0'.toNat)) 0

/-- Reads `digits`, then optionally a point and more digits, then optionally an exponent. At least
one digit has to stand before the exponent. -/
def readMagnitude? (t : Text) : Option Float :=
  let whole := t.takeWhile Text.isDigit
  let rest := t.dropWhile Text.isDigit
  let (fraction, rest) := match rest with
    | '.' :: r => (r.takeWhile Text.isDigit, r.dropWhile Text.isDigit)
    | r => ([], r)
  if whole.isEmpty && fraction.isEmpty then none
  else
    let digits := digitsValue (whole ++ fraction)
    let scaled (e : Int) : Float := Decimal.toFloat ⟨digits, e - fraction.length⟩
    let exponent? (r : Text) : Option Int :=
      if r.isEmpty || !r.all Text.isDigit then none else some (digitsValue r)
    match rest with
    | [] => some (scaled 0)
    | c :: r =>
      if c = 'e' ∨ c = 'E' then
        match r with
        | '-' :: r => (exponent? r).map fun e => scaled (-e)
        | '+' :: r => (exponent? r).map scaled
        | r => (exponent? r).map scaled
      else none

def read? : Text → Option Float
  | '-' :: t => (readMagnitude? t).map fun x => -x
  | '+' :: t => readMagnitude? t
  | t => readMagnitude? t

end Parley.Number
