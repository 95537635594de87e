import MiniLisp.Eval.Arguments
import MiniLisp.Value.Arithmetic
import MiniLisp.Value.Order
import MiniLisp.Value.Sequence

/-!
# Applying a function

What a function does with its evaluated arguments. Only printing and defining change the world:
the text written so far, the global scope, and the number of functions made.
-/

namespace MiniLisp

/-- What a running program can change. -/
structure World where
  /-- The functions and values that every call can see. -/
  globals : Scope
  /-- The text written so far. -/
  output : String := ""
  /-- How many blocks have been started. -/
  executes : Nat := 0
  /-- How many functions have been made; the next one gets this number. -/
  made : Nat := 0

/-- The global scope that a program starts with. -/
def builtinScope (script : Bool) : Scope :=
  (Builtin.named script).map fun b => (.symbol b.name, .function (.builtin b))

/-- The world that a program starts in. -/
def World.start (script : Bool) : World :=
  { globals := builtinScope script }

namespace World

/-- Adds to the text written. -/
def write (w : World) (s : String) : World :=
  { w with output := w.output ++ s }

/-- Writes values with spaces between them. What comes before a value that cannot be written is
written all the same. -/
def writeValues (w : World) : List Value → World × Except Error Unit
  | [] => (w, .ok ())
  | v :: vs =>
    match v.printed with
    | .error e => (w, .error e)
    | .ok s =>
      match vs with
      | [] => (w.write s, .ok ())
      | vs => (w.write (s ++ " ")).writeValues vs

/-- Writes a line of values. -/
def print (w : World) (vs : List Value) : World × Except Error Value :=
  match w.writeValues vs with
  | (w, .error e) => (w, .error e)
  | (w, .ok ()) => (w.write "\n", .ok .none)

/-- Makes a function and binds its name in the global scope. The name must be writable and must
not hold the zero character. -/
def define (w : World) (name : Value) (params : List Value) (variadic : Bool) (body : Value)
    (captures : Scope) : World × Except Error Value :=
  match name.display with
  | .error e => (w, .error e)
  | .ok s =>
    if s.toList.contains (Char.ofNat 0) then (w, .error .invalidName)
    else
      let f : Value := .function (.user ⟨w.made, name, params, variadic, body, captures⟩)
      match w.globals.insert name f with
      | .error e => (w, .error e)
      | .ok globals => ({ w with globals := globals, made := w.made + 1 }, .ok f)

end World

/-- The values that variables have now, for a function that captures them. -/
def capture (scope globals : Scope) (call : Call) (captures : Scope) :
    List Value → Except Error Scope
  | [] => .ok captures
  | name :: names =>
    match lookup scope globals call name with
    | .error e => .error e
    | .ok (expand, v) =>
      match captures.insert name v with
      | .error e => .error e
      | .ok captures =>
        if expand then .error .captureExpanded else capture scope globals call captures names

namespace Call

/-- Defines a function from its evaluated name and parameters. -/
def applyDefine (c : Call) (w : World) (captures : Scope) :
    List Value → World × Except Error Value
  | [] => (w, .error .missingItem)
  | name :: params => w.define (bindingName name) params (hasRest c.args) c.body captures

/-- Makes an anonymous function that captures variables. -/
def applyLambda (c : Call) (w : World) (scope : Scope) : List Value → World × Except Error Value
  | [] => (w, .error .missingItem)
  | names :: params =>
    match names.items? with
    | none => (w, .error .wrongType)
    | some names =>
      match capture scope w.globals c [] names with
      | .error e => (w, .error e)
      | .ok captures => c.applyDefine w captures (.symbol "" :: params)

/-- The leaves of the operand of `flatten`; a text gives its characters. -/
def applyFlatten (c : Call) (v : Value) : Except Error Value :=
  match v.items? with
  | none => .error (c.fail .flattenNonList)
  | some items => (Value.leavesOf items).map Value.tuple

/-- The last argument, which the call was evaluated for. -/
def lastArg (args : List Value) : Except Error Value :=
  match args.getLast? with
  | some v => .ok v
  | none => .error .missingItem

/-- Applies a function of one operand. -/
def unary (op : Value → Except Error Value) : List Value → Except Error Value
  | [a] => op a
  | _ => .error .operandCount

/-- Applies a function of two operands. -/
def binary (op : Value → Value → Except Error Value) : List Value → Except Error Value
  | [a, b] => op a b
  | _ => .error .operandCount

/-- The difference of several numbers, or the number with the other sign. -/
def applyDifference : List Value → Except Error Value
  | [a] => a.neg
  | args => Value.combine Value.sub args

/-- What a builtin makes of its evaluated arguments, if it does not change the world. -/
def applyPure (c : Call) (b : Builtin) (args : List Value) : Except Error Value :=
  match b with
  | .negation => unary (fun a => .ok (.bool (!a.isTrue))) args
  | .equality => (Value.allEqual args).map .bool
  | .lessThan => binary (fun a b => (a.less b).map .bool) args
  | .nothing => .ok .none
  | .truth => .ok (.bool true)
  | .charToInt => unary Value.charCode args
  | .intToChar => unary Value.codeChar args
  | .choice => if c.args.length < 2 * args.length then lastArg args else .ok .none
  | .branch => if 1 < args.length then lastArg args else .ok .none
  | .remainder => binary Value.mod args
  | .sum => Value.combine Value.add args
  | .difference => applyDifference args
  | .squareRoot => unary Value.sqrt args
  | .length => unary (fun a => a.length.map fun n => .int n) args
  | .nth => binary Value.nth args
  | .flatten => unary c.applyFlatten args
  | .load _ => .ok .none
  | _ => lastArg args

/-- Applies the function of a call to its evaluated arguments. -/
def apply (c : Call) (w : World) (scope : Scope) (args : List Value) :
    World × Except Error Value :=
  match c.fn with
  | .builtin .print => w.print args
  | .builtin .define => c.applyDefine w [] args
  | .builtin .lambda => c.applyLambda w scope args
  | .builtin b => (w, c.applyPure b args)
  | .user _ => (w, lastArg args)

end Call

end MiniLisp
