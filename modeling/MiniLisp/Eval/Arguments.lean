import MiniLisp.Reader

/-!
# The arguments of a call

What happens to the arguments of a call before and while they are evaluated: looking up symbols,
ordering, checking their number, and the moment when the function does its work on them.
-/

namespace MiniLisp

/-- Every other item of a list, beginning with the first. -/
def everyOther {α : Type} : List α → List α
  | [] => []
  | [a] => [a]
  | a :: _ :: rest => a :: everyOther rest

/-- The items of a list in pairs. An item without a partner is an error that comes after the
pairs before it. -/
def inPairs {α : Type} : List α → List (α × α) × Option Error
  | [] => ([], none)
  | [_] => ([], some .missingItem)
  | a :: b :: rest =>
    let (pairs, e) := inPairs rest
    ((a, b) :: pairs, e)

namespace Call

/-- Looks up the arguments of a call. -/
def lookupArgs (c : Call) (scope globals : Scope) : Except Error (List Value) :=
  lookupAll scope globals c c.args

/-- The order in which arguments are evaluated: the conditions of `cond` come before its
actions. -/
def sortArgs (c : Call) (args : List Value) : List Value :=
  match c.fn with
  | .builtin .choice => everyOther args ++ everyOther args.tail
  | _ => args

/-- Whether the function can do its work on the arguments once the argument at `i` has been
evaluated; `-1` stands for the time before the first. -/
def canPrepare (c : Call) (args : List Value) (i : Int) : Bool :=
  match c.fn with
  | .builtin .choice => 2 * (i + 1) == args.length
  | .builtin .branch => i == 0
  | .builtin .binding => i == (args.length : Int) - 2
  | .builtin .undefined => (args.length : Int) - 1 ≤ i
  | .builtin .deferred => i == (c.args.length : Int) - 1
  | .builtin _ => true
  | .user _ => (args.length : Int) - 1 ≤ i

/-- The name of the function in an error message; a deferred call goes by its head. -/
def writeName (c : Call) : Except Error String :=
  match c.fn, c.args with
  | .builtin .deferred, head :: _ => head.display
  | fn, _ => fn.writeName

/-- Checks a number of arguments against the arity of the function. -/
def checkCount (c : Call) (n : Nat) : Except Error Unit :=
  match c.fn.arity? with
  | none => .error .noDefinition
  | some a =>
    if a.accepts n then .ok ()
    else
      match c.writeName with
      | .error e => .error e
      | .ok name => .error (.argumentCount (!a.exact) a.count name n)

/-- Checks the number of arguments. The arguments of a defined function are followed by its
body. -/
def validate (c : Call) (args : List Value) : Except Error Unit :=
  match c.fn with
  | .builtin .choice =>
    if args.length < 2 then .error (c.fail .condTooFew)
    else if args.length % 2 == 1 then .error (c.fail .condUnpaired)
    else .ok ()
  | .builtin .binding =>
    if args.length < 3 then .error (c.fail .letTooFew)
    else if args.length % 2 == 0 then .error (c.fail .letUnpaired)
    else .ok ()
  | .user _ => c.checkCount (args.length - 1)
  | .builtin .undefined => .error .noDefinition
  | _ => c.checkCount args.length

end Call

/-- A call whose function has done its work on the arguments: the arguments and the scope to go on
with, and the file to run first, if any. -/
structure Prepared where
  call : Call
  args : List Value
  scope : Scope
  load : Option String := none

namespace Call

/-- The conditions of `cond` and the action of the first that is true. `args` holds all conditions
and then all actions. -/
def chooseAction (args : List Value) : List Value :=
  let conditions := args.take (args.length / 2)
  let actions := args.drop (args.length / 2)
  match (conditions.zip actions).find? (·.1.isTrue) with
  | some (_, action) => conditions ++ [action]
  | none => conditions

/-- The condition of `if` and the branch it selects, if there is one. -/
def chooseBranch : List Value → Except Error (List Value)
  | [] => .error .missingItem
  | [condition] => if condition.isTrue then .error .missingItem else .ok [condition]
  | [condition, yes, no] => .ok [condition, if condition.isTrue then yes else no]
  | condition :: yes :: _ => .ok (if condition.isTrue then [condition, yes] else [condition])

/-- The name that a value binds: a text stands for the symbol with its characters. -/
def bindingName : Value → Value
  | .text s => .symbol s
  | v => v

/-- Binds names to values given in turn. -/
def bindNames (scope : Scope) : List Value → Except Error Scope
  | [] => .ok scope
  | [_] => .error .missingItem
  | k :: v :: rest =>
    match scope.insert (bindingName k) v with
    | .error e => .error e
    | .ok scope => bindNames scope rest

/-- The name of the rest of the arguments inside a function. -/
def restName : Value := .symbol "*"

/-- Binds the parameters of a function to arguments. `i` is the position of the next parameter.
Where an argument is missing, none is added to the arguments and their number is checked. -/
def bindParams (c : Call) (scope : Scope) (args : List Value) (i : Nat) :
    List Value → Except Error (Scope × List Value)
  | [] => .ok (scope, args)
  | param :: params =>
    match param.equal restName with
    | .error e => .error e
    | .ok true => (scope.insert restName (.tuple (args.drop i))).map (·, args)
    | .ok false =>
      match args[i]? with
      | some v =>
        match scope.insert param v with
        | .error e => .error e
        | .ok scope => c.bindParams scope args (i + 1) params
      | none =>
        match c.validate (args ++ [.none]) with
        | .error e => .error e
        | .ok () => c.bindParams scope (args ++ [.none]) (i + 1) params

/-- The scope in which the body of a function starts, before its parameters are bound: what the
function captured, and an empty rest if it takes one. -/
def startScope (d : Definition) : Except Error Scope :=
  if d.variadic then Scope.insert d.captures restName (.tuple []) else .ok d.captures

/-- Prepares the call of a defined function: the body becomes its last argument, to be evaluated
in a scope of its own. -/
def prepareUser (c : Call) (d : Definition) (args : List Value) : Except Error Prepared :=
  match startScope d with
  | .error e => .error e
  | .ok scope =>
    match c.bindParams scope args 0 d.params with
    | .error e => .error e
    | .ok (scope, args) => .ok ⟨c, args ++ [d.body], scope, none⟩

/-- The function that the evaluated head of a deferred call stands for. A symbol is looked up. -/
def headFunction (c : Call) (scope globals : Scope) (head : Value) : Except Error Function :=
  match head with
  | .function fn => .ok fn
  | head =>
    match lookup scope globals c head with
    | .error e => .error e
    | .ok (_, .function fn) => .ok fn
    | .ok (_, v) =>
      let named := bindingName v
      match (c.args.headD .none).display, named.kind, named.display, c.write with
      | .ok name, .ok kind, .ok shown, .ok call => .error (.notFunction name kind shown call)
      | _, _, _, _ => .error .tooManyDigits

/-- Prepares a deferred call: the call of the function that its head stands for becomes its last
argument. -/
def prepareDeferred (c : Call) (scope globals : Scope) (args : List Value) :
    Except Error Prepared :=
  match args with
  | [] => .error .missingItem
  | head :: args =>
    match c.headFunction scope globals head with
    | .error e => .error e
    | .ok fn =>
      match fn.begin args with
      | .error e => .error e
      | .ok real => .ok ⟨c, args ++ [.call real], scope, none⟩

/-- Sets the body of a definition aside, so that it is not evaluated. -/
def prepareDefinition (c : Call) (scope : Scope) (args : List Value) : Except Error Prepared :=
  match args.getLast? with
  | none => .error .missingItem
  | some body => .ok ⟨{ c with body := body }, args.dropLast, scope, none⟩

/-- The work of a function on the arguments of its call. -/
def prepare (c : Call) (scope globals : Scope) (args : List Value) : Except Error Prepared :=
  match c.fn with
  | .builtin .choice => .ok ⟨c, chooseAction args, scope, none⟩
  | .builtin .branch => (chooseBranch args).map (⟨c, ·, scope, none⟩)
  | .builtin .binding => (bindNames scope args.dropLast).map (⟨c, args, ·, none⟩)
  | .builtin .define => c.prepareDefinition scope args
  | .builtin .lambda => c.prepareDefinition scope args
  | .builtin .deferred => c.prepareDeferred scope globals args
  | .builtin .undefined => .error .noDefinition
  | .builtin (.load _) =>
    match args with
    | [] => .error .missingItem
    | .text path :: _ => .ok ⟨c, [], scope, some path⟩
    | _ => .error .notText
  | .builtin _ => .ok ⟨c, args, scope, none⟩
  | .user d => c.prepareUser d args

end Call

end MiniLisp
