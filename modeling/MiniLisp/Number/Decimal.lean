import MiniLisp.Number.Binary

/-!
# Decimal texts of doubles

Three ways to write a double in decimal: with the fewest digits that read back as the same
double, with a fixed number of places, and with a fixed number of significant digits. All digits
are found in exact arithmetic on the quotient that the double stands for.
-/

namespace MiniLisp

namespace Decimal

/-- The number of decimal digits of a natural number; zero has one. -/
def digitCount (n : Nat) : Nat :=
  n.repr.length

/-- `10 ^ k` as a quotient of naturals, for any integer `k`. -/
def tenPower (k : Int) : Nat × Nat :=
  (tenTo k.toNat, tenTo (-k).toNat)

/-- The exponent of the leading digit of a positive quotient. -/
def leadingExponent (num den : Nat) : Int :=
  if den ≤ num then (digitCount (num / den) : Int) - 1
  else
    let k := digitCount (den / num)
    if den ≤ num * tenTo (k - 1) then -((k : Int) - 1) else -(k : Int)

/-- Digits `d` standing for the number `d · 10 ^ exponent`. -/
structure Scaled where
  digits : Nat
  exponent : Int
deriving Repr, DecidableEq

/-- The order of `s` and a quotient. -/
def Scaled.compareRatio (s : Scaled) (num den : Nat) : Ordering :=
  let p := tenPower s.exponent
  compare (s.digits * p.1 * den) (num * p.2)

/-- The distance of `s` from a quotient, on the scale that `compareRatio` compares at. -/
def Scaled.distance (s : Scaled) (num den : Nat) : Nat :=
  let p := tenPower s.exponent
  ((s.digits * p.1 * den : Nat) - (num * p.2 : Nat) : Int).natAbs

/-- The reals that round to one double: from `low` to `high`, the ends included if `closed`. The
three quotients share the denominator `den`. -/
structure Interval where
  low : Nat
  value : Nat
  high : Nat
  den : Nat
  closed : Bool

/-- The interval of a positive double. Below a power of two the doubles lie twice as close. -/
def Interval.ofFinite (mantissa : Nat) (exponent : Int) : Interval :=
  let narrow := mantissa == twoTo 52 && Binary.minExponent < exponent
  let scale := Binary.scaleRatio 1 1 (exponent - 2)
  { low := (4 * mantissa - (if narrow then 1 else 2)) * scale.1
    value := 4 * mantissa * scale.1
    high := (4 * mantissa + 2) * scale.1
    den := scale.2
    closed := mantissa % 2 == 0 }

/-- Whether a decimal lies in the interval. -/
def Interval.contains (i : Interval) (s : Scaled) : Bool :=
  match s.compareRatio i.low i.den, s.compareRatio i.high i.den with
  | .gt, .lt => true
  | .eq, _ => i.closed
  | _, .eq => i.closed
  | _, _ => false

/-- The decimal of `count` digits nearest to the value among its two neighbours on that grid, if
one of them lies in the interval. -/
def Interval.nearest? (i : Interval) (lead : Int) (count : Nat) : Option Scaled :=
  let exponent := lead - count + 1
  let p := tenPower exponent
  let below : Scaled := ⟨i.value * p.2 / (i.den * p.1), exponent⟩
  let above : Scaled := ⟨below.digits + 1, exponent⟩
  match i.contains below, i.contains above with
  | true, true =>
    let d := below.distance i.value i.den
    let d' := above.distance i.value i.den
    some (if d < d' || (d == d' && below.digits % 2 == 0) then below else above)
  | true, false => some below
  | false, true => some above
  | false, false => none

/-- The shortest decimal in the interval, trying `count`, `count + 1`, … digits. Seventeen digits
always suffice. -/
def Interval.shortestFrom (i : Interval) (lead : Int) : (fuel count : Nat) → Scaled
  | 0, _ => ⟨0, 0⟩
  | fuel + 1, count =>
    match i.nearest? lead count with
    | some s => s
    | none => i.shortestFrom lead fuel (count + 1)

/-- The decimal with the fewest digits that reads back as a given positive double. -/
def shortest (mantissa : Nat) (exponent : Int) : Scaled :=
  let i := Interval.ofFinite mantissa exponent
  i.shortestFrom (leadingExponent i.value i.den) 17 1

/-- Drops the zeros at the end of the digits. -/
def Scaled.trim (s : Scaled) : (fuel : Nat) → Scaled
  | 0 => s
  | fuel + 1 =>
    if s.digits != 0 && s.digits % 10 == 0 then
      Scaled.trim ⟨s.digits / 10, s.exponent + 1⟩ fuel
    else s

/-- The sign in front of a number. -/
def signText (negative : Bool) : String :=
  if negative then "-" else ""

/-- Digits with a point after the first `whole` of them; zeros are put in front where there are
too few. -/
def placePoint (digits : List Char) (whole : Int) : String :=
  if whole ≤ 0 then
    "0." ++ String.ofList (List.replicate (-whole).toNat '0' ++ digits)
  else
    let n := whole.toNat
    if digits.length ≤ n then
      String.ofList (digits ++ List.replicate (n - digits.length) '0') ++ ".0"
    else String.ofList (digits.take n) ++ "." ++ String.ofList (digits.drop n)

/-- An exponent with its sign and at least two digits. -/
def exponentText (mark : String) (e : Int) : String :=
  let digits := toString e.natAbs
  let digits := if digits.length < 2 then "0" ++ digits else digits
  mark ++ (if e < 0 then "-" else "+") ++ digits

/-- How the language writes a double: the shortest digits that read back, positional from
`0.0001` up to below `10 ^ 16` and with at least one place, with an exponent otherwise. -/
def display (x : Float) : String :=
  match Binary.decode x with
  | .notANumber => "nan"
  | .infinite negative => signText negative ++ "inf"
  | .finite negative 0 _ => signText negative ++ "0.0"
  | .finite negative mantissa exponent =>
    let s := (shortest mantissa exponent).trim 17
    let digits := s.digits.repr.toList
    let lead := s.exponent + digits.length - 1
    if -4 ≤ lead && lead < 16 then signText negative ++ placePoint digits (lead + 1)
    else
      let head := String.ofList (digits.take 1)
      let tail := String.ofList (digits.drop 1)
      let mantissaText := if tail.isEmpty then head else head ++ "." ++ tail
      signText negative ++ mantissaText ++ exponentText "e" lead

/-- Digits padded with zeros in front to a width. -/
def padDigits (width n : Nat) : List Char :=
  let digits := n.repr.toList
  List.replicate (width - digits.length) '0' ++ digits

/-- A positive quotient with a fixed number of places; `point` keeps the point when there are no
places. -/
def fixedText (num den places : Nat) (point : Bool) : String :=
  let scaled := Binary.roundDiv (num * tenTo places) den
  let digits := padDigits (places + 1) scaled
  let whole := String.ofList (digits.take (digits.length - places))
  let fraction := String.ofList (digits.drop (digits.length - places))
  if places == 0 then (if point then whole ++ "." else whole) else whole ++ "." ++ fraction

/-- A quotient rounded to `count` significant digits. Zero keeps the exponent zero. -/
def significant (num den count : Nat) : Scaled :=
  if num == 0 then ⟨0, 1 - (count : Int)⟩
  else
    let exponent := leadingExponent num den - count + 1
    let p := tenPower exponent
    let digits := Binary.roundDiv (num * p.2) (den * p.1)
    if digits == tenTo count then ⟨tenTo (count - 1), exponent + 1⟩ else ⟨digits, exponent⟩

/-- The exponent of the leading digit of a decimal of `count` digits. -/
def Scaled.lead (s : Scaled) (count : Nat) : Int :=
  s.exponent + count - 1

/-- Digits in scientific notation: a point after the first one. -/
def scientificText (digits : List Char) (lead : Int) (mark : String) (point : Bool) : String :=
  let head := String.ofList (digits.take 1)
  let tail := String.ofList (digits.drop 1)
  let body := if tail.isEmpty then (if point then head ++ "." else head) else head ++ "." ++ tail
  body ++ exponentText mark lead

/-- Digits without the zeros at their end; the first digit stays. -/
def dropTrailingZeros (digits : List Char) : List Char :=
  match (digits.reverse.dropWhile (· == '0')).reverse with
  | [] => digits.take 1
  | kept => kept

/-- A quotient with `count` significant digits, positional unless the leading exponent is below
`-4` or at least `count`; zeros at the end are dropped unless `point` asks to keep them. -/
def generalText (num den count : Nat) (mark : String) (point : Bool) : String :=
  let s := significant num den count
  let lead := s.lead count
  let digits := padDigits count s.digits
  let shown := if point then digits else dropTrailingZeros digits
  if lead < -4 || (count : Int) ≤ lead then scientificText shown lead mark point
  else if lead < 0 then
    "0." ++ String.ofList (List.replicate (-lead - 1).toNat '0' ++ shown)
  else
    let n := lead.toNat + 1
    let whole := String.ofList (digits.take n)
    let fraction := String.ofList (shown.drop n)
    if fraction.isEmpty then (if point then whole ++ "." else whole)
    else whole ++ "." ++ fraction

/-- Reads decimal digits, giving their value and their number. -/
def readDigits (value count : Nat) : List Char → Nat × Nat × List Char
  | c :: cs =>
    if c.isDigit then readDigits (10 * value + (c.toNat - 48)) (count + 1) cs
    else (value, count, c :: cs)
  | [] => (value, count, [])

/-- Reads an exponent part `e±dd`, or nothing at the end of the text. -/
def readExponent : List Char → Option Int
  | [] => some 0
  | c :: cs =>
    if c == 'e' || c == 'E' then
      let (negative, cs) : Bool × List Char :=
        match cs with
        | '-' :: r => (true, r)
        | '+' :: r => (false, r)
        | r => (false, r)
      match readDigits 0 0 cs with
      | (_, 0, _) => none
      | (n, _, []) => some (if negative then -(n : Int) else n)
      | _ => none
    else none

/-- Reads a positive decimal: digits with an optional point and an optional exponent, rounded to
the nearest double, and to infinity if it is too large. -/
def readMagnitude (negative : Bool) (cs : List Char) : Option Float :=
  let (whole, wholeCount, rest) := readDigits 0 0 cs
  let (value, places, rest) : Nat × Nat × List Char :=
    match rest with
    | '.' :: r => readDigits whole 0 r
    | r => (whole, 0, r)
  if wholeCount + places == 0 then none
  else
    match readExponent rest with
    | none => none
    | some e =>
      let p := tenPower (e - places)
      some ((Binary.ofRatio negative (value * p.1) p.2).getD
        (Binary.ofMagnitude negative Binary.infinityBits))

/-- Reads a double written in decimal, `inf` and `nan` included. -/
def read (s : String) : Option Float :=
  let (negative, cs) : Bool × List Char :=
    match s.toList with
    | '-' :: r => (true, r)
    | '+' :: r => (false, r)
    | r => (false, r)
  if cs == ['i', 'n', 'f'] then some (Binary.ofMagnitude negative Binary.infinityBits)
  else if cs == ['n', 'a', 'n'] then some (Float.ofBits 0x7FF8000000000000)
  else readMagnitude negative cs

end Decimal

end MiniLisp
