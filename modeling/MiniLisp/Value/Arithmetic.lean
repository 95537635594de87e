import MiniLisp.Template
import MiniLisp.Value.Equality

/-!
# Arithmetic on values

Addition joins texts, symbols, tuples and lists as well as adding numbers. The remainder of a
symbol is the template it stands for, filled in.
-/

namespace MiniLisp

namespace Value

/-- The result of a numeric operation on two values. -/
def onNumbers (op : Number → Number → Except Error Number) (a b : Value) : Except Error Value :=
  match a.number?, b.number? with
  | some m, some n => (op m n).map Number.toValue
  | _, _ => .error .wrongType

/-- The sum of two numbers, or two sequences of one kind joined. -/
def add : Value → Value → Except Error Value
  | text s, text t => .ok (text (s ++ t))
  | text _, _ => .error .notText
  | symbol s, symbol t => .ok (symbol (s ++ t))
  | tuple xs, tuple ys => .ok (tuple (xs ++ ys))
  | list xs, list ys => .ok (list (xs ++ ys))
  | a, b => onNumbers Number.add a b

/-- The difference of two numbers. -/
def sub (a b : Value) : Except Error Value :=
  onNumbers Number.sub a b

/-- The number with the other sign. -/
def neg (a : Value) : Except Error Value :=
  match a.number? with
  | some n => .ok n.neg.toValue
  | Option.none => .error .wrongType

/-- The remainder of two numbers, or a filled template. -/
def mod : Value → Value → Except Error Value
  | symbol s, b => (fillTemplate s b).map symbol
  | a, b => onNumbers Number.mod a b

/-- The square root of a number. -/
def sqrt (a : Value) : Except Error Value :=
  match a.number? with
  | some n => n.sqrt.map Number.toValue
  | Option.none => .error .wrongType

/-- Combines the values of a list from the left. There must be at least one. -/
def combine (op : Value → Value → Except Error Value) : List Value → Except Error Value
  | [] => .error .operandCount
  | v :: vs => vs.foldlM op v

/-- The code of the only character of a text. -/
def charCode : Value → Except Error Value
  | text s =>
    match s.toList with
    | [c] => .ok (int c.toNat)
    | _ => .error .wrongType
  | _ => .error .notText

/-- The text of the character with a given code. A code must fit into 32 bits with its sign before
its range is looked at. Surrogates, which are no characters, give the character with the code 0. -/
def codeChar (v : Value) : Except Error Value :=
  match v with
  | int n => ofCode n
  | bool b => ofCode (if b then 1 else 0)
  | _ => .error .wrongType
where
  /-- The text of one character. -/
  ofCode (n : Int) : Except Error Value :=
    if n < -0x80000000 || 0x80000000 ≤ n then .error .numberTooLarge
    else if n < 0 || 0x110000 ≤ n then .error .invalidCodePoint
    else .ok (text (String.singleton (Char.ofNat n.toNat)))

end Value

end MiniLisp
