import MiniLisp.Builtin

/-!
# Values, functions and calls

A program computes with `Value`s. Functions are values, and so are calls: the arguments of a call
are values, some of which are calls that still have to be run. A call remembers how far it has
got, so that a call that has begun is not begun again.
-/

namespace MiniLisp

mutual

/-- What programs compute with. A `symbol` is a bare word, a `text` is a quoted string. -/
inductive Value where
  | none
  | bool (b : Bool)
  | int (n : Int)
  | float (x : Float)
  | symbol (name : String)
  | text (content : String)
  | tuple (items : List Value)
  | list (items : List Value)
  | function (f : Function)
  | call (c : Call)

/-- A function is builtin or was defined by the program. -/
inductive Function where
  | builtin (b : Builtin)
  | user (d : Definition)

/-- A function defined by the program. Two definitions are the same function only if they have
the same `id`. The name and the parameters are values: mostly symbols, but any value can stand
there. -/
structure Definition where
  id : Nat
  name : Value
  params : List Value
  variadic : Bool
  body : Value
  captures : List (Value × Value)

/-- A call of a function. `resolved` tells that the symbols among the arguments have been looked
up, `prepared` that the function has done its work on the argument list; `body` is the body that
a definition has set aside. -/
structure Call where
  fn : Function
  args : List Value
  resolved : Bool
  prepared : Bool
  body : Value

end

instance : Inhabited Value := ⟨.none⟩

/-- A call that has not begun. -/
def Call.begin (fn : Function) (args : List Value) : Call :=
  ⟨fn, args, false, false, .none⟩

/-- The call of the value of `head`, which is looked up only when the call runs. -/
def Call.defer (head : Value) (args : List Value) : Call :=
  .begin (.builtin .deferred) (head :: args)

/-- Whether the head of a call is looked up when it runs. -/
def Call.isDeferred (c : Call) : Bool :=
  match c.fn with
  | .builtin .deferred => true
  | _ => false

namespace Definition

/-- The parameters of a variadic function include the one for the rest, which is not counted. -/
def arity (d : Definition) : Arity :=
  ⟨!d.variadic, if d.variadic then (d.params.length : Int) - 1 else d.params.length⟩

end Definition

namespace Function

/-- The number of arguments of a function. -/
def arity? : Function → Option Arity
  | builtin b => b.arity?
  | user d => some d.arity

/-- Whether the number of arguments is checked as soon as it is known. -/
def checksEarly : Function → Bool
  | builtin b => b.checksEarly
  | user _ => false

/-- Whether two functions are one and the same. -/
def same : Function → Function → Bool
  | builtin a, builtin b => a == b
  | user d, user d' => d.id == d'.id
  | _, _ => false

end Function

namespace Value

/-- Whether a value counts as true: everything but none, false, zero and what is empty. -/
def isTrue : Value → Bool
  | none => false
  | bool b => b
  | int n => n != 0
  | float x => !(x == 0)
  | symbol s => !s.isEmpty
  | text s => !s.isEmpty
  | tuple items => !items.isEmpty
  | list items => !items.isEmpty
  | function _ => true
  | call _ => true

/-- The items of a value that can be gone through: the characters of a symbol are symbols and
those of a text are texts. -/
def items? : Value → Option (List Value)
  | tuple items => some items
  | list items => some items
  | symbol s => some (s.toList.map fun c => symbol (String.singleton c))
  | text s => some (s.toList.map fun c => text (String.singleton c))
  | _ => Option.none

end Value

end MiniLisp
