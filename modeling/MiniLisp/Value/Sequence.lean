import MiniLisp.Error
import MiniLisp.Value

/-!
# Length, position and leaves

The operations on values that have items: symbols, texts, tuples and lists.
-/

namespace MiniLisp

namespace Value

/-- The number of items of a value. -/
def length : Value → Except Error Nat
  | v =>
    match v.items? with
    | some items => .ok items.length
    | Option.none => .error .wrongType

/-- The position that an index stands for among `n` items; negative indices count from the
end. -/
def position? (n : Nat) (i : Int) : Option Nat :=
  let k := if i < 0 then i + n else i
  if 0 ≤ k && k < n then some k.toNat else Option.none

/-- The integer that a value stands for as an index. -/
def index? : Value → Option Int
  | int n => some n
  | bool b => some (if b then 1 else 0)
  | _ => Option.none

/-- The item of a value at an index. -/
def nth (i v : Value) : Except Error Value :=
  match v.items?, i.index? with
  | some items, some k =>
    match position? items.length k with
    | some p => .ok (items.getD p .none)
    | Option.none => .error .indexOutOfRange
  | _, _ => .error .wrongType

mutual

/-- The leaves below an item, from left to right. A text is a leaf. A symbol that is not empty has
no leaves, since its characters are symbols again. -/
def leaves : Value → Except Error (List Value)
  | tuple items => leavesOf items
  | list items => leavesOf items
  | symbol s => if s.isEmpty then .ok [] else .error .endlessFlatten
  | v => .ok [v]

/-- The leaves below several items. -/
def leavesOf : List Value → Except Error (List Value)
  | [] => .ok []
  | v :: vs =>
    match v.leaves with
    | .error e => .error e
    | .ok ls =>
      match leavesOf vs with
      | .error e => .error e
      | .ok ls' => .ok (ls ++ ls')

end

end Value

end MiniLisp
