import MiniLisp.Number.Power

/-!
# Double precision numbers, exactly

A finite double is an integer multiple of a power of two. `decode` reads that form off the bits
of a `Float`, and `ofRatio` goes back: it finds the double nearest to a quotient, a tie going to
the even mantissa. Remainders and comparisons with integers are computed on the exact form.
-/

namespace MiniLisp

/-- What the bits of a double say. -/
inductive Decoded where
  /-- The value `± mantissa · 2 ^ exponent`. -/
  | finite (negative : Bool) (mantissa : Nat) (exponent : Int)
  | infinite (negative : Bool)
  | notANumber
deriving Repr, DecidableEq

namespace Binary

/-- The exponent of the smallest positive double. -/
def minExponent : Int := -1074

/-- Reads the exact value of a double. -/
def decode (x : Float) : Decoded :=
  let bits : Nat := x.toBits.toNat
  let negative := bits / twoTo 63 == 1
  let biased : Nat := bits / twoTo 52 % 2048
  let fraction : Nat := bits % twoTo 52
  if biased == 2047 then
    if fraction == 0 then .infinite negative else .notANumber
  else if biased == 0 then .finite negative fraction minExponent
  else .finite negative (fraction + twoTo 52) ((biased : Int) - 1075)

/-- The quotient of two naturals rounded to the nearest natural, a tie to the even one. -/
def roundDiv (num den : Nat) : Nat :=
  let q := num / den
  let r := num % den
  if den < 2 * r || (den == 2 * r && q % 2 == 1) then q + 1 else q

/-- `num · 2 ^ e / den` as a pair of naturals. -/
def scaleRatio (num den : Nat) (e : Int) : Nat × Nat :=
  (num * twoTo e.toNat, den * twoTo (-e).toNat)

/-- The exponent at which a positive quotient has a mantissa of 53 bits, or the least exponent
there is. -/
def targetExponent (num den : Nat) : Int :=
  let e := max ((num.log2 : Int) - (den.log2 : Int) - 53) minExponent
  let scaled := scaleRatio num den (-e)
  if twoTo 53 ≤ scaled.1 / scaled.2 then e + 1 else e

/-- The double with a given sign and magnitude bits. -/
def ofMagnitude (negative : Bool) (bits : Nat) : Float :=
  Float.ofBits (UInt64.ofNat (if negative then twoTo 63 + bits else bits))

/-- The magnitude bits of infinity. -/
def infinityBits : Nat := 2047 * twoTo 52

/-- The double nearest to `± num / den`, or nothing if that is too large to be finite. -/
def ofRatio (negative : Bool) (num den : Nat) : Option Float :=
  if num == 0 then some (ofMagnitude negative 0)
  else
    let e := targetExponent num den
    let scaled := scaleRatio num den (-e)
    let mantissa := roundDiv scaled.1 scaled.2
    -- A mantissa of 54 bits carries into the exponent field, which is what it should do.
    let bits :=
      if mantissa < twoTo 52 then mantissa else (e + 1075).toNat * twoTo 52 + (mantissa - twoTo 52)
    if bits < infinityBits then some (ofMagnitude negative bits) else none

/-- The double nearest to an integer, or nothing if the integer is too large. -/
def ofInt (n : Int) : Option Float :=
  ofRatio (n < 0) n.natAbs 1

/-- The exact value of a finite double as a numerator over a power of two. -/
def toRatio (negative : Bool) (mantissa : Nat) (exponent : Int) : Int × Nat :=
  let scaled := scaleRatio mantissa 1 exponent
  (if negative then -(scaled.1 : Int) else scaled.1, scaled.2)

/-- The order of an integer and a double; nothing if the double is not a number. -/
def compareInt (n : Int) (x : Float) : Option Ordering :=
  match decode x with
  | .notANumber => none
  | .infinite negative => some (if negative then .gt else .lt)
  | .finite negative mantissa exponent =>
    let ratio := toRatio negative mantissa exponent
    some (compare (n * ratio.2) ratio.1)

/-- The remainder of `x` by `y` that has the sign of `x`, computed exactly. -/
def truncatedRemainder (x y : Float) : Float :=
  match decode x, decode y with
  | .finite negative m e, .finite _ m' e' =>
    let low := min e e'
    let r := (m * twoTo (e - low).toNat) % (m' * twoTo (e' - low).toNat)
    let scaled := scaleRatio r 1 low
    (ofRatio negative scaled.1 scaled.2).getD x
  | .finite .., .infinite _ => x
  | _, _ => Float.ofBits 0x7FF8000000000000

/-- The zero with the sign of `y`. -/
def zeroLike (y : Float) : Float :=
  ofMagnitude (y.toBits.toNat / twoTo 63 == 1) 0

/-- The remainder of `x` by `y` that has the sign of `y`. -/
def floorRemainder (x y : Float) : Float :=
  let r := truncatedRemainder x y
  if r == 0 then zeroLike y
  else if (y < 0) != (r < 0) then r + y
  else r

/-- A double is whole if it is finite and has no fraction. Gives the integer nearest to zero for
every finite double. -/
def truncate? (x : Float) : Option Int :=
  match decode x with
  | .finite negative mantissa exponent =>
    let ratio := toRatio negative mantissa exponent
    some (ratio.1.tdiv ratio.2)
  | _ => none

end Binary

end MiniLisp
