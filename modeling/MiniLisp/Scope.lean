import MiniLisp.Text.Integer
import MiniLisp.Value.Display
import MiniLisp.Value.Equality

/-!
# Scopes and symbols

A scope gives values to keys, mostly to symbols. A symbol among the arguments of a call is a
quoted name, an integer, or the name of a variable, which is looked up in the scope of the call and
then in the global one. A star in front of a variable asks to put its items in its place.
-/

namespace MiniLisp

/-- Keys with their values, in the order in which the keys were first bound. -/
abbrev Scope := List (Value × Value)

namespace Scope

/-- The value of a key, if it has one. -/
def find? (s : Scope) (k : Value) : Except Error (Option Value) :=
  match s with
  | [] => .ok none
  | (k', v) :: rest =>
    match Value.isKey k' k with
    | .error e => .error e
    | .ok true => .ok (some v)
    | .ok false => Scope.find? rest k

/-- Replaces the value of a key, or adds the key at the end. A key that is there already stays as
it is. -/
def put (s : Scope) (k v : Value) : Except Error Scope :=
  match s with
  | [] => .ok [(k, v)]
  | (k', v') :: rest =>
    match Value.isKey k' k with
    | .error e => .error e
    | .ok true => .ok ((k', v) :: rest)
    | .ok false => (Scope.put rest k v).map ((k', v') :: ·)

/-- Binds a key, which must not hold a list. -/
def insert (s : Scope) (k v : Value) : Except Error Scope :=
  if k.hashable then s.put k v else .error .unhashable

/-- Binds the entries of another scope, from first to last. -/
def insertAll (s : Scope) : Scope → Except Error Scope
  | [] => .ok s
  | (k, v) :: rest =>
    match s.insert k v with
    | .error e => .error e
    | .ok s => s.insertAll rest

end Scope

/-- A variable as an argument names it: whether its items are to be put in its place, and its
name. A star on its own is a name. -/
def variableOf (s : String) : Bool × String :=
  match s.toList with
  | '*' :: c :: cs => (true, String.ofList (c :: cs))
  | _ => (false, s)

/-- The value of a variable in the scope of a call or else in the global scope. -/
def findVariable (scope globals : Scope) (name : String) (call : Call) : Except Error Value :=
  match scope.find? (.symbol name) with
  | .error e => .error e
  | .ok (some v) => .ok v
  | .ok none =>
    match globals.find? (.symbol name) with
    | .error e => .error e
    | .ok (some v) => .ok v
    | .ok none => .error (call.fail (.unknownSymbol name))

/-- What an argument of a call stands for, and whether its items are to be put in its place.
Only symbols stand for something else than themselves. -/
def lookup (scope globals : Scope) (call : Call) (arg : Value) : Except Error (Bool × Value) :=
  match arg with
  | .symbol s =>
    match s.toList with
    | '\'' :: cs => .ok (false, .symbol (String.ofList cs))
    | _ =>
      match readInteger s with
      | some n => .ok (false, .int n)
      | none =>
        let var := variableOf s
        (findVariable scope globals var.2 call).map (var.1, ·)
  | v => .ok (false, v)

/-- Looks up arguments one after the other and puts the items of starred variables in their
place. -/
def lookupAll (scope globals : Scope) (call : Call) : List Value → Except Error (List Value)
  | [] => .ok []
  | arg :: args =>
    match lookup scope globals call arg with
    | .error e => .error e
    | .ok (false, v) => (lookupAll scope globals call args).map (v :: ·)
    | .ok (true, v) =>
      match v.items? with
      | some items => (lookupAll scope globals call args).map (items ++ ·)
      | none => .error .wrongType

end MiniLisp
