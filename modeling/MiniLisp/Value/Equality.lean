import MiniLisp.Error
import MiniLisp.Number
import MiniLisp.Value

/-!
# Equality of values

Values are compared by hash first and by content only if the hashes agree. A text hashes like the
symbol with the same characters, and the empty one like zero; comparing a text with something that
is not a text is an error. So a text and a symbol of different characters are unequal, and a text
and a symbol of the same characters cannot be compared.
-/

namespace MiniLisp

/-- The number that a value stands for in arithmetic; truth values count as one and zero. -/
def Value.number? : Value → Option Number
  | .bool b => some (.int (if b then 1 else 0))
  | .int n => some (.int n)
  | .float x => some (.float x)
  | _ => Option.none

/-- The value of a number. -/
def Number.toValue : Number → Value
  | .int n => .int n
  | .float x => .float x

/-- Whether two numbers are equal. -/
def Number.equal (a b : Number) : Bool :=
  a.compare? b == some .eq

mutual

/-- Whether a value can be a key: no list stands in it. -/
def Value.hashable : Value → Bool
  | .list _ => false
  | .tuple items => Value.allHashable items
  | _ => true

/-- Whether all values of a list can be keys. -/
def Value.allHashable : List Value → Bool
  | [] => true
  | v :: vs => v.hashable && Value.allHashable vs

end

/-- The characters of a symbol or of a text. -/
def Value.characters? : Value → Option String
  | .symbol s => some s
  | .text s => some s
  | _ => Option.none

/-- Whether two values that are not tuples have the same hash. -/
def Value.sameAtomHash (a b : Value) : Bool :=
  match a.characters?, b.characters? with
  | some s, some t => s == t
  | some s, Option.none => s.isEmpty && (b.number?.bind Number.hash?) == some 0
  | Option.none, some t => t.isEmpty && (a.number?.bind Number.hash?) == some 0
  | Option.none, Option.none =>
    match a.number?, b.number? with
    | some m, some n =>
      match m.hash?, n.hash? with
      | some h, some k => h == k
      | _, _ => false
    | _, _ =>
      match a, b with
      | .none, .none => true
      | .function f, .function g => f.same g
      | _, _ => false

mutual

/-- Whether two values have the same hash. The hashes of tuples agree if those of their items
do. -/
def Value.sameHash : Value → Value → Bool
  | .tuple xs, b =>
    match b with
    | .tuple ys => Value.sameHashes xs ys
    | _ => false
  | a, b => a.sameAtomHash b

/-- Whether two lists of values have the same hashes one by one. -/
def Value.sameHashes : List Value → List Value → Bool
  | [], ys => ys.isEmpty
  | x :: xs, ys =>
    match ys with
    | y :: ys => x.sameHash y && Value.sameHashes xs ys
    | [] => false

end

/-- Whether two values neither of which is a text or holds items are equal. -/
def Value.equalAtoms (a b : Value) : Bool :=
  match a.number?, b.number? with
  | some m, some n => m.equal n
  | _, _ =>
    match a, b with
    | .none, .none => true
    | .symbol s, .symbol t => s == t
    | .function f, .function g => f.same g
    | _, _ => false

mutual

/-- Whether two values are equal. A text can only be compared with a text. -/
def Value.equal : Value → Value → Except Error Bool
  | .text s, b =>
    match b with
    | .text t => .ok (s == t)
    | _ => .error .notText
  | .tuple xs, b =>
    match b with
    | .tuple ys => Value.equalItems xs ys
    | .text _ => .error .notText
    | _ => .ok false
  | .list xs, b =>
    match b with
    | .list ys => if xs.length == ys.length then Value.equalItems xs ys else .ok false
    | .text _ => .error .notText
    | _ => .ok false
  | a, b =>
    match b with
    | .text _ => .error .notText
    | _ => .ok (a.equalAtoms b)

/-- Whether two lists of values are equal, compared item by item from the left. -/
def Value.equalItems : List Value → List Value → Except Error Bool
  | [], ys => .ok ys.isEmpty
  | x :: xs, ys =>
    match ys with
    | [] => .ok false
    | y :: ys =>
      match x.equal y with
      | .ok true => Value.equalItems xs ys
      | r => r

end

/-- Whether a value is the key `k`: compared by content only if the hashes agree. -/
def Value.isKey (k v : Value) : Except Error Bool :=
  if v.sameHash k then v.equal k else .ok false

/-- Whether a value is among the keys `ks`. -/
def Value.isAmong (v : Value) : List Value → Except Error Bool
  | [] => .ok false
  | k :: ks =>
    match Value.isKey k v with
    | .ok false => v.isAmong ks
    | r => r

/-- The different values of a list, in the order of their first occurrence, after those of
`seen`. -/
def Value.distinct (seen : List Value) : List Value → Except Error (List Value)
  | [] => .ok seen
  | v :: vs =>
    if v.hashable then
      match v.isAmong seen with
      | .error e => .error e
      | .ok true => Value.distinct seen vs
      | .ok false => Value.distinct (seen ++ [v]) vs
    else .error .unhashable

/-- Whether all values of a list are one and the same; there must be at least one. -/
def Value.allEqual (vs : List Value) : Except Error Bool :=
  (Value.distinct [] vs).map fun seen => seen.length == 1

end MiniLisp
