set_option autoImplicit false

/-!
A double as an exact number: a sign, a whole mantissa and a power of two.
-/

namespace Parley.Number

/-- What the 64 bits of a double stand for. A finite double is `± mantissa · 2 ^ exponent`. -/
inductive Binary where
  | nan
  | infinite (negative : Bool)
  | finite (negative : Bool) (mantissa : Nat) (exponent : Int)
  deriving DecidableEq, Repr

def twoTo (n : Nat) : Nat :=
  Nat.pow 2 n

/-- The exponent of the smallest doubles, which is also that of the subnormal ones. -/
def leastExponent : Int := -1074

def Binary.ofBits (bits : Nat) : Binary :=
  let negative := decide (bits / twoTo 63 % 2 = 1)
  let biased := bits / twoTo 52 % twoTo 11
  let fraction := bits % twoTo 52
  if biased = 2047 then
    if fraction = 0 then .infinite negative else .nan
  else if biased = 0 then .finite negative fraction leastExponent
  else .finite negative (twoTo 52 + fraction) (leastExponent + (biased - 1 : Nat))

def Binary.ofFloat (x : Float) : Binary :=
  .ofBits x.toBits.toNat

/-- The double `± mantissa · 2 ^ exponent`, for a mantissa of at most 53 bits and an exponent that
is neither below the least one nor too large; a short mantissa is scaled up first. -/
def pack (negative : Bool) (mantissa : Nat) (exponent : Int) : Float :=
  if mantissa = 0 then
    if negative then -0.0 else 0.0
  else
    let room := min (52 - mantissa.log2) (exponent - leastExponent).toNat
    let full := mantissa * twoTo room
    let biased := (exponent - room - leastExponent).toNat + full / twoTo 52
    let bits := biased * twoTo 52 + full % twoTo 52
    let x := Float.ofBits bits.toUInt64
    if negative then -x else x

/-- The remainder of a division that is rounded toward zero, which is always exact and has the
sign of the dividend. -/
def remainder (x y : Float) : Float :=
  match Binary.ofFloat x, Binary.ofFloat y with
  | .nan, _ => x
  | _, .nan => y
  | .infinite _, _ => Float.ofBits 0x7FF8000000000000
  | .finite .., .infinite _ => x
  | .finite negative m p, .finite _ n q =>
    if n = 0 then Float.ofBits 0x7FF8000000000000
    else
      let e := min p q
      pack negative (m * twoTo (p - e).toNat % (n * twoTo (q - e).toNat)) e

end Parley.Number
