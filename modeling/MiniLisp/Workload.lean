import MiniLisp.Eval.Machine
import MiniLisp.Library

/-!
# Workloads

Programs of a chosen size, each of which exercises one part of the language: nested arithmetic,
conditions, the library, long texts, variadic functions, failing programs, and the operations
that reading and running are made of. `Workload.run` runs a workload of a given size and tells
what came out of it.
-/

namespace MiniLisp

/-- The kinds of workload. -/
inductive Workload where
  | nestedArithmetic
  | conditions
  | libraryCalls
  | manyBlocks
  | nestedLists
  | failures
  | directCalls
  | longText
  | variadicCalls
  | blockCounts
deriving Repr, DecidableEq

namespace Workload

/-- The workload of a name. -/
def ofName? : String → Option Workload
  | "nested_arithmetic" => some nestedArithmetic
  | "cond_if_blocks" => some conditions
  | "lib_small_calls" => some libraryCalls
  | "parse_wide" => some manyBlocks
  | "flatten_nested" => some nestedLists
  | "error_paths" => some failures
  | "execute_direct" => some directCalls
  | "string_program" => some longText
  | "lambda_variadic" => some variadicCalls
  | "tests_module" => some blockCounts
  | _ => none

/-! ## Programs -/

/-- Runs a program that can import the library. -/
def evaluate (fuel : Nat) (program : String) : Outcome :=
  runText (.ofList [(Library.path, Library.source)]) fuel (World.start false) program.toList

/-- The sum of some expressions. A sum of no expressions fails when it is run. -/
def sumOf (terms : List String) : String :=
  "(+ " ++ " ".intercalate terms ++ ")"

/-- A term whose value is one more than the remainder of `i` by seven, as a double. -/
def arithmeticTerm (i : Nat) : String :=
  s!"(- (+ (sqrt 4) (% {i} 7)) 1)"

/-- A multiple of three is doubled and raised by a step of one to four. Of the other numbers, a
multiple of five becomes the step, and the rest stay. -/
def conditionTerm (i : Nat) : String :=
  let step := i % 4 + 1
  s!"(cond (eq (% {i} 3) 0) (+ {i} {i} {step}) (true) (if (eq (% {i} 5) 0) (+ {step}) (+ {i})))"

/-- Folds a list with a number from one to six, asks whether the number is below four and whether
it is even, and takes its root. -/
def libraryTerm (i : Nat) : String :=
  let k := i % 6 + 1
  s!"(+ (accumulate + (list 1 2 3 {k}) 0) (not (>= {k} 4)) (eq (% {k} 2) 0) (sqrt {k}))"

/-- A short block of its own. -/
def smallBlock (i : Nat) : String :=
  s!"(+ {i % 97} 1)"

/-- Adds up three times a number from one to seven, three times one from one to five, the remainder
of the first by three, and the remainder of `i` by three. -/
def variadicTerm (i : Nat) : String :=
  let x := i % 7 + 1
  let y := i % 5 + 1
  s!"(total (total {x} {x} {x}) (total {y} {y} {y}) (% {x} 3) {i % 3})"

/-- The sum of variadic calls of a nameless function. -/
def variadicProgram (n : Nat) : String :=
  "(defun 'list '* (+ *))(let 'total (lambda (list) '* (+ **)) "
    ++ sumOf ((List.range n).map variadicTerm) ++ ")"

/-- The letter at a place of the alphabet that is repeated without end, as a text. -/
def letterText (i : Nat) : String :=
  "\"" ++ String.singleton (Char.ofNat (97 + i % 26)) ++ "\""

/-- Joins letters to one text, writes about it, and adds the code of its first letter to its length
twice over. -/
def letterProgram (n : Nat) : String :=
  let joined := sumOf ((List.range n).map letterText)
  s!"(let 's {joined} (print (nth 0 s) (len s) (eq (nth 0 s) (nth -1 s))))" ++
    s!"(let 's {joined} (+ (chartoint (nth 0 s)) (len s) (len s)))"

/-- Programs that stop with an error while they run. -/
def stoppingPrograms : List String :=
  ["(+)", "(not 1 2)", "(+ nowhere)"]

/-- Programs that cannot be read, in turn. -/
def unreadableProgram (i : Nat) : String :=
  if i % 3 = 0 then "+ 1 2)" else "(+ 1 2"

/-- Programs with calls inside calls, functions and recursion. -/
def countedPrograms : List String :=
  ["(+ 1 (- 1 ( + 2)))",
   "(let 'f (+ 1) (- f))",
   "(cond (+ 1 (+ 1)) (+ 2) (none) (true (none)))",
   "(defun 'f (+ 0))(f)",
   "(let 'f (defun 'f 'x (if (eq x 0) (true) (f (- x 1)))) (f 5))"]

/-! ## What comes out -/

/-- The value of a list of texts. -/
def symbols (names : List String) : Value :=
  .list (names.map Value.symbol)

/-- How often a program starts a block. -/
def blocksStarted (fuel : Nat) (program : String) : Value :=
  .int (evaluate fuel program).world.executes

/-- The first `n` items of a list that is repeated without end. -/
def cycle {α : Type} (items : List α) (n : Nat) : List α :=
  (List.range n).filterMap fun i => items[i % items.length]?

/-- The label of a failure, if there is one. -/
def labelOfFailure {α : Type} (label : Error → String) : Except Error α → List String
  | .ok _ => []
  | .error e => [label e]

/-- A result without the case of running out of fuel. -/
def toExcept : Result → Except Error Value
  | .value v => .ok v
  | .failed e => .error e
  | .outOfFuel => .ok .none

/-- The labels of programs that stop, of programs that cannot be read, of a call that does not end
and of a text that is asked for a part by something else than a number. -/
def failureLabels (fuel n : Nat) : List String :=
  (cycle stoppingPrograms n).flatMap (fun program =>
      labelOfFailure (fun _ => "RuntimeError") (toExcept (evaluate fuel program).result))
    ++ (List.range n).flatMap (fun i =>
      labelOfFailure (fun e => String.ofList (e.message.toList.take 4))
        (toExcept (evaluate fuel (unreadableProgram i)).result))
    ++ labelOfFailure (fun _ => "unterm") (readCall (builtinScope false) "(+ 1".toList)
    ++ labelOfFailure (fun _ => "slice") (Value.nth (.tuple [.int 0, .int 1]) (.text "slice"))

/-- The number of leaves of a nested list, and what can be asked of a text. -/
def listFacts (n : Nat) : Except Error Value := do
  let item : Value := .list [.int 1, .list [.int 2, .list [.text "three"]]]
  let leaves ← Value.leaves (.list (List.replicate n item))
  let hello : Value := .text "hello"
  let joined ← hello.add (.text "world")
  return .tuple [.int leaves.length, .symbol (← joined.display), ← Value.nth (.int 0) hello,
    .bool (← hello.equal (.text "hello")), .int (← hello.length)]

/-- The value of a wide difference, and what the operations that reading and running are made of
answer for small calls and texts. -/
def callFacts (fuel n : Nat) : Except Error Value := do
  let w := World.start false
  let call (head : String) (args : List Value) : Except Error Call :=
    makeCall w.globals (.symbol head) args
  let root ← call "sqrt" [.int 1]
  let wide ← call "-" ([.int 3, .call root] ++ List.replicate n (.int 1))
  let difference ← toExcept (execute (.ofList []) fuel w [] wide).result
  let unknown ← call "foo" [.symbol "1", .symbol "2"]
  let sum ← call "+" [.symbol "a"]
  let binding ← call "let" [.symbol "'a", .int 1, .call sum]
  let load ← call "import" [.text "x"]
  let (expands, seven) ← lookup [] w.globals sum (.int 7)
  let pairs := (inPairs [1, 2, 3, 4]).1
  let (token, after) ← readTokenAt "abcd" 0
  return .tuple [difference, .symbol (← unknown.write), .symbol (← binding.write),
    .symbol (← unknown.fn.className), .symbol (← sum.fn.className),
    .tuple [.bool expands, seven], .bool sum.prepared, .bool (binding.canPrepare binding.args 1),
    .list (pairs.map fun (a, b) => .tuple [.int a, .int b]), .tuple [token, .int after],
    .symbol (← load.write),
    .symbol (String.ofList (Source.normalise "( a  b ) # c\n( d )".toList))]

/-- How a computation that may fail ends. -/
def ofExcept : Except Error Value → Result
  | .ok v => .value v
  | .error e => .failed e

/-- Adds to the value of an outcome what was made of its world. -/
def andAlso (o : Outcome) (besides : World → Value) : Result :=
  match o.result with
  | .value v => .value (.tuple [v, besides o.world])
  | r => r

/-- Runs a workload. A size below zero counts as zero, but for `blockCounts`, which runs at least
one program unless the size is below zero. -/
def run (workload : Workload) (fuel : Nat) (size : Int) : Result :=
  let n := size.toNat
  match workload with
  | nestedArithmetic => (evaluate fuel (sumOf ((List.range' 1 n).map arithmeticTerm))).result
  | conditions => (evaluate fuel (sumOf ((List.range n).map conditionTerm))).result
  | libraryCalls =>
    (evaluate fuel ("(import \"" ++ Library.path ++ "\")"
      ++ sumOf ((List.range n).map libraryTerm))).result
  | manyBlocks =>
    andAlso (evaluate fuel (String.join ((List.range n).map smallBlock))) fun w =>
      .int w.globals.length
  | nestedLists => ofExcept (listFacts n)
  | failures => .value (symbols (failureLabels fuel n))
  | directCalls => ofExcept (callFacts fuel n)
  | longText => andAlso (evaluate fuel (letterProgram n)) fun w => .symbol w.output
  | variadicCalls => (evaluate fuel (variadicProgram n)).result
  | blockCounts =>
    let count := if size < 0 then 0 else max 1 n
    .value (.list ((cycle countedPrograms count).map (blocksStarted fuel)))

end Workload

end MiniLisp
