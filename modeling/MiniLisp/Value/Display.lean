import MiniLisp.Error
import MiniLisp.Value
import MiniLisp.Number.Decimal
import MiniLisp.Text.Integer
import MiniLisp.Text.Quoted

/-!
# The text of a value

How values, functions and calls are written out. Inside another value a symbol is quoted; on its
own it is written as it is. Writing fails only for an integer with too many digits.
-/

namespace MiniLisp

/-- The decimal text of an integer. -/
def writeInteger (n : Int) : Except Error String :=
  match writeInteger? n with
  | some s => .ok s
  | none => .error .tooManyDigits

/-- The items of a tuple between brackets; a single item keeps its comma. -/
def tupleText : List String → String
  | [item] => "(" ++ item ++ ",)"
  | items => "(" ++ ", ".intercalate items ++ ")"

/-- The items of a list between square brackets. -/
def listText (items : List String) : String :=
  "[" ++ ", ".intercalate items ++ "]"

/-- A call as it would be typed: the head and the arguments between brackets. -/
def callText (head : String) (args : List String) : String :=
  "(" ++ head ++ (if args.isEmpty then "" else " ") ++ " ".intercalate args ++ ")"

/-- A text value, marked as one. -/
def markedText (content : String) : String :=
  "StringVar<\"" ++ content ++ "\">"

/-- The printed form of a function, by its home and the name of its kind of call. -/
def functionText (home className : String) : String :=
  "<class '" ++ home ++ "." ++ className ++ "'>"

mutual

/-- The text of a value; `bare` leaves a symbol unquoted. -/
def Value.write (bare : Bool) : Value → Except Error String
  | .none => .ok "None"
  | .bool b => .ok (if b then "True" else "False")
  | .int n => writeInteger n
  | .float x => .ok (Decimal.display x)
  | .symbol s => .ok (if bare then s else quoteText s)
  | .text s => .ok (markedText s)
  | .tuple items => (Value.writeAll items).map tupleText
  | .list items => (Value.writeAll items).map listText
  | .function f => Function.write f
  | .call c => Call.write c

/-- The quoted texts of several values, up to the first that cannot be written. -/
def Value.writeAll : List Value → Except Error (List String)
  | [] => .ok []
  | v :: vs =>
    match v.write false, Value.writeAll vs with
    | .error e, _ => .error e
    | .ok _, .error e => .error e
    | .ok s, .ok ss => .ok (s :: ss)

/-- The printed form of a function. -/
def Function.write : Function → Except Error String
  | .builtin b => .ok (functionText b.home b.className)
  | .user d => d.writeName.map fun name => functionText "abc" ("UserCall_" ++ name)

/-- The name of a defined function, unquoted. -/
def Definition.writeName : Definition → Except Error String
  | ⟨_, name, _, _, _, _⟩ => name.write true

/-- The name a call of a function is written with. -/
def Function.writeName : Function → Except Error String
  | .builtin b => .ok b.name
  | .user d => d.writeName

/-- The arguments of a deferred call, the head first and unquoted. -/
def Value.writeDeferred : List Value → Except Error String
  | [] => .ok (callText "" [])
  | head :: args =>
    match head.write true, Value.writeAll args with
    | .error e, _ => .error e
    | .ok _, .error e => .error e
    | .ok s, .ok ss => .ok (callText s ss)

/-- A call as it would be typed. -/
def Call.write : Call → Except Error String
  | ⟨.builtin .deferred, args, _, _, _⟩ => Value.writeDeferred args
  | ⟨fn, args, _, _, _⟩ =>
    match fn.writeName, Value.writeAll args with
    | .error e, _ => .error e
    | .ok _, .error e => .error e
    | .ok s, .ok ss => .ok (callText s ss)

end

/-- The name of the kind of call that a function makes. -/
def Function.className : Function → Except Error String
  | .builtin b => .ok b.className
  | .user d => d.writeName.map ("UserCall_" ++ ·)

/-- The text of a value on its own. -/
def Value.display (v : Value) : Except Error String :=
  v.write true

/-- The text of a value as it stands inside another one. -/
def Value.quoted (v : Value) : Except Error String :=
  v.write false

/-- The text of a value as `print` writes it: a text without its mark. -/
def Value.printed : Value → Except Error String
  | .text s => .ok s
  | v => v.display

/-- The kind of a value, as an error message names it. -/
def Value.kind : Value → Except Error String
  | .none => .ok "<class 'NoneType'>"
  | .bool _ => .ok "<class 'bool'>"
  | .int _ => .ok "<class 'int'>"
  | .float _ => .ok "<class 'float'>"
  | .symbol _ => .ok "<class 'str'>"
  | .text _ => .ok "<class 'calls.StringVar'>"
  | .tuple _ => .ok "<class 'tuple'>"
  | .list _ => .ok "<class 'list'>"
  | .function _ => .ok "<class 'abc.ABCMeta'>"
  | .call c => c.fn.write

/-- Fails with an error that quotes a call. -/
def Call.fail (c : Call) (cause : String → Error) : Error :=
  match c.write with
  | .ok s => cause s
  | .error e => e

end MiniLisp
