import MiniLisp.Value.Equality

/-!
# Order of values

Numbers are compared by size, symbols by their characters, tuples and lists by the first items
that differ. Other values have no order.
-/

namespace MiniLisp

/-- Whether one text comes before another, by code points from the left. -/
def textBefore : List Char → List Char → Bool
  | [], bs => !bs.isEmpty
  | _ :: _, [] => false
  | a :: as, b :: bs => if a == b then textBefore as bs else a.toNat < b.toNat

mutual

/-- Whether a value is less than another. -/
def Value.less : Value → Value → Except Error Bool
  | .symbol s, b =>
    match b with
    | .symbol t => .ok (textBefore s.toList t.toList)
    | _ => .error .wrongType
  | .tuple xs, b =>
    match b with
    | .tuple ys => Value.lessItems xs ys
    | _ => .error .wrongType
  | .list xs, b =>
    match b with
    | .list ys => Value.lessItems xs ys
    | _ => .error .wrongType
  | a, b =>
    match a.number?, b.number? with
    | some m, some n => .ok (m.compare? n == some .lt)
    | _, _ => .error .wrongType

/-- Whether a list of values is less than another: the first items that are not equal decide, and
a list that goes on is the greater one. -/
def Value.lessItems : List Value → List Value → Except Error Bool
  | [], ys => .ok (!ys.isEmpty)
  | x :: xs, ys =>
    match ys with
    | [] => .ok false
    | y :: ys =>
      match x.equal y with
      | .error e => .error e
      | .ok true => Value.lessItems xs ys
      | .ok false => x.less y

end

end MiniLisp
