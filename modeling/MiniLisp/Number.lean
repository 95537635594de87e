import MiniLisp.Error
import MiniLisp.Number.Binary

/-!
# Numbers

A number is an integer of any size or a double. Arithmetic on two integers stays exact; if one
operand is a double, the other is rounded to a double first. Comparisons are always exact.
-/

namespace MiniLisp

/-- A number of the language. -/
inductive Number where
  | int (n : Int)
  | float (x : Float)

namespace Number

/-- The double nearest to a number. -/
def toFloat : Number → Except Error Float
  | int n =>
    match Binary.ofInt n with
    | some x => .ok x
    | none => .error .numberTooLarge
  | float x => .ok x

/-- Rounds both operands to doubles, the left one first. -/
def onFloats (op : Float → Float → Except Error Float) (a b : Number) : Except Error Number :=
  match a.toFloat, b.toFloat with
  | .error e, _ => .error e
  | .ok _, .error e => .error e
  | .ok x, .ok y => (op x y).map float

/-- The sum of two numbers. -/
def add : Number → Number → Except Error Number
  | int a, int b => .ok (int (a + b))
  | a, b => onFloats (fun x y => .ok (x + y)) a b

/-- The difference of two numbers. -/
def sub : Number → Number → Except Error Number
  | int a, int b => .ok (int (a - b))
  | a, b => onFloats (fun x y => .ok (x - y)) a b

/-- The number with the other sign. -/
def neg : Number → Number
  | int n => int (-n)
  | float x => float (-x)

/-- The remainder that has the sign of the divisor. -/
def mod : Number → Number → Except Error Number
  | int a, int b => if b == 0 then .error .divisionByZero else .ok (int (a.fmod b))
  | a, b =>
    onFloats (fun x y =>
      if y == 0 then .error .divisionByZero else .ok (Binary.floorRemainder x y)) a b

/-- The square root, always a double. -/
def sqrt (a : Number) : Except Error Number :=
  match a.toFloat with
  | .error e => .error e
  | .ok x => if x < 0 then .error .negativeRoot else .ok (float x.sqrt)

/-- The order of two numbers; nothing if one of them is not a number. -/
def compare? : Number → Number → Option Ordering
  | int a, int b => some (compare a b)
  | int a, float y => Binary.compareInt a y
  | float x, int b => (Binary.compareInt b x).map Ordering.swap
  | float x, float y =>
    if x < y then some .lt else if x == y then some .eq else if y < x then some .gt else none

/-- The modulus of number hashes. -/
def hashModulus : Nat := twoTo 61 - 1

/-- A residue with its sign; `-1` is not used as a hash. -/
def signedHash (negative : Bool) (residue : Nat) : Int :=
  let h : Int := if negative then -(residue : Int) else residue
  if h == -1 then -2 else h

/-- The hash of a number: its residue modulo `2 ^ 61 - 1`, the same for equal numbers. What is not
a number has none. -/
def hash? : Number → Option Int
  | int n => some (signedHash (n < 0) (n.natAbs % hashModulus))
  | float x =>
    match Binary.decode x with
    | .notANumber => none
    | .infinite negative => some (if negative then -314159 else 314159)
    | .finite negative mantissa exponent =>
      -- `2 ^ 61` is `1` modulo `hashModulus`.
      some (signedHash negative (mantissa * twoTo (exponent.emod 61).toNat % hashModulus))

end Number

end MiniLisp
