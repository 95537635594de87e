/-!
# Builtin functions

The functions every program starts with, the names they are called by, and the number of
arguments they take.
-/

namespace MiniLisp

/-- The builtin functions. -/
inductive Builtin where
  | negation
  | equality
  | lessThan
  | nothing
  | truth
  | charToInt
  | intToChar
  | choice
  | branch
  | remainder
  | sum
  | difference
  | squareRoot
  | print
  | binding
  | length
  | nth
  | flatten
  | define
  | lambda
  /-- Runs a file. `script` tells whether it runs as a script, which its printed form shows. -/
  | load (script : Bool)
  /-- The function of the empty name, which has no definition. -/
  | undefined
  /-- A call whose head is looked up when it runs; the head is its first argument. -/
  | deferred
deriving Repr, DecidableEq

/-- How many arguments a function takes: exactly `count`, or at least `count`. -/
structure Arity where
  exact : Bool
  count : Int
deriving Repr, DecidableEq

/-- Whether a number of arguments is accepted. -/
def Arity.accepts (a : Arity) (n : Nat) : Bool :=
  if a.exact then (n : Int) == a.count else a.count ≤ n

namespace Builtin

/-- The name a builtin is called by. -/
def name : Builtin → String
  | negation => "not"
  | equality => "eq"
  | lessThan => "<"
  | nothing => "none"
  | truth => "true"
  | charToInt => "chartoint"
  | intToChar => "inttochar"
  | choice => "cond"
  | branch => "if"
  | remainder => "%"
  | sum => "+"
  | difference => "-"
  | squareRoot => "sqrt"
  | print => "print"
  | binding => "let"
  | length => "len"
  | nth => "nth"
  | flatten => "flatten"
  | define => "defun"
  | lambda => "lambda"
  | load _ => "import"
  | undefined => ""
  | deferred => ""

/-- The name of the kind of call that a builtin makes. -/
def className : Builtin → String
  | negation => "NotCall"
  | equality => "EqualCall"
  | lessThan => "LessThanCall"
  | nothing => "NoneCall"
  | truth => "TrueCall"
  | charToInt => "CharToIntCall"
  | intToChar => "IntToCharCall"
  | choice => "CondCall"
  | branch => "IfCall"
  | remainder => "ModulusCall"
  | sum => "PlusCall"
  | difference => "MinusCall"
  | squareRoot => "SquareRootCall"
  | print => "PrintCall"
  | binding => "LetCall"
  | length => "LenCall"
  | nth => "NthCall"
  | flatten => "FlattenCall"
  | define => "DefineFunctionCall"
  | lambda => "LambdaFunctionCall"
  | load _ => "ImportCall"
  | undefined => "BaseUserCall"
  | deferred => "MaybeFunctionCall"

/-- Where the kind of call of a builtin has its home, as its printed form shows. -/
def home : Builtin → String
  | load script => if script then "__main__" else "main"
  | _ => "calls"

/-- The number of arguments of a builtin; the undefined function has none. -/
def arity? : Builtin → Option Arity
  | negation => some ⟨true, 1⟩
  | equality => some ⟨false, 2⟩
  | lessThan => some ⟨true, 2⟩
  | nothing => some ⟨false, 0⟩
  | truth => some ⟨false, 0⟩
  | charToInt => some ⟨true, 1⟩
  | intToChar => some ⟨true, 1⟩
  | choice => some ⟨false, 2⟩
  | branch => some ⟨false, 2⟩
  | remainder => some ⟨true, 2⟩
  | sum => some ⟨false, 1⟩
  | difference => some ⟨false, 1⟩
  | squareRoot => some ⟨true, 1⟩
  | print => some ⟨false, 0⟩
  | binding => some ⟨true, 3⟩
  | length => some ⟨true, 1⟩
  | nth => some ⟨true, 2⟩
  | flatten => some ⟨true, 1⟩
  | define => some ⟨false, 2⟩
  | lambda => some ⟨false, 2⟩
  | load _ => some ⟨true, 1⟩
  | undefined => none
  | deferred => some ⟨false, 1⟩

/-- Builtins that look at their arguments before these are evaluated, so that the number of
arguments is checked as soon as it is known. -/
def checksEarly : Builtin → Bool
  | choice | branch | binding | define | lambda | load _ => true
  | _ => false

/-- The builtins a program can name. -/
def named (script : Bool) : List Builtin :=
  [negation, equality, lessThan, nothing, truth, charToInt, intToChar, choice, branch, remainder,
   sum, difference, squareRoot, print, binding, length, nth, flatten, define, lambda,
   load script, undefined]

end Builtin

end MiniLisp
