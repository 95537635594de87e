import MiniLisp.Eval.Machine

/-!
# The command line

The program takes the path of one file, runs the file as a script and writes the value of its last
block. Options other than help are refused, and so is a second path.
-/

namespace MiniLisp

namespace CommandLine

/-- What the arguments of the command line ask for. -/
inductive Request where
  | run (path : String)
  /-- No path was given. -/
  | missingPath
  | help
  /-- The arguments make no sense. -/
  | refuse
deriving Repr, DecidableEq

/-- What one argument is. -/
inductive Argument where
  | path
  | help
  /-- Help with a value, which it does not take. -/
  | badHelp
  | unknownOption
deriving Repr, DecidableEq

/-- A negative number, with or without a point, is not an option. -/
def looksNegative : List Char → Bool
  | '-' :: cs =>
    match cs.dropWhile isDigit with
    | [] => !cs.isEmpty
    | '.' :: rest => !rest.isEmpty && rest.all isDigit
    | _ => false
  | _ => false
where
  /-- A decimal digit of any script. -/
  isDigit (c : Char) : Bool := (digitValue? c).isSome

/-- The long name of the help option. -/
def longHelp : List Char := "--help".toList

/-- Reads an argument that begins with two dashes. Long options can be cut short. -/
def readLong (cs : List Char) : Argument :=
  let name := cs.takeWhile (· != '=')
  if name.isPrefixOf longHelp && 2 < name.length then
    if name.length == cs.length then .help else .badHelp
  else if cs.contains ' ' then .path
  else .unknownOption

/-- Reads an argument on its own. What is joined to a short option does not matter, unless it is
given as a value. -/
def readArgument (s : String) : Argument :=
  match s.toList with
  | '-' :: '-' :: cs => readLong ('-' :: '-' :: cs)
  | '-' :: 'h' :: cs =>
    match cs.dropWhile (· == 'h') with
    | '=' :: _ => .badHelp
    | '-' :: _ => .badHelp
    | _ => .help
  | ['-'] => .path
  | '-' :: cs =>
    if looksNegative ('-' :: cs) || cs.contains ' ' then .path else .unknownOption
  | _ => .path

/-- The request of a path and of what is left over. -/
def requestOf (path? : Option String) (leftOver : Bool) : Request :=
  if leftOver then .refuse
  else
    match path? with
    | some path => .run path
    | none => .missingPath

/-- Reads arguments from left to right. Help is given as soon as it is asked for; what is not
understood counts at the end. Two dashes on their own end the options, and the path as well if
there is one. -/
def readFrom (path? : Option String) (leftOver : Bool) : List String → Request
  | [] => requestOf path? leftOver
  | s :: rest =>
    if s == "--" then
      match path?, rest with
      | none, path :: rest => requestOf (some path) (leftOver || !rest.isEmpty)
      | path?, rest => requestOf path? (leftOver || !rest.isEmpty)
    else
      match readArgument s with
      | .help => .help
      | .badHelp => .refuse
      | .unknownOption => readFrom path? true rest
      | .path =>
        match path? with
        | none => readFrom (some s) leftOver rest
        | some path => readFrom (some path) true rest

/-- Reads the arguments of the command line. -/
def read (args : List String) : Request :=
  readFrom none false args

/-- How the program ends. -/
inductive Status where
  | exit (code : Nat)
  | failed (e : Error)
  /-- No path was given. -/
  | missingPath

/-- The text written and how the program ends. -/
structure Report where
  output : String
  status : Status

/-- What the program says when no path is given. -/
def missingPathMessage : String := "Filename is required if not running tests."

/-- What the program writes when help is asked for. -/
def helpText : String :=
  "usage: main.py [-h] [filename]\n\nLispALike interpreter\n\npositional arguments:\n" ++
  "  filename    File to interpret. (optional)\n\noptions:\n" ++
  "  -h, --help  show this help message and exit\n"

/-- Runs a file as a script and writes the value of its last block. -/
def runScript (files : Files) (fuel : Nat) (path : String) : Report :=
  match files.read? path with
  | none => ⟨"", .failed (.fileNotFound path)⟩
  | some text =>
    match runText files fuel (World.start true) text with
    | ⟨w, .value v⟩ =>
      match v.display with
      | .ok s => ⟨w.output ++ s ++ "\n", .exit 0⟩
      | .error e => ⟨w.output, .failed e⟩
    | ⟨w, .failed e⟩ => ⟨w.output, .failed e⟩
    | ⟨w, .outOfFuel⟩ => ⟨w.output, .exit 1⟩

/-- Runs the program with some arguments. -/
def run (files : Files) (fuel : Nat) (args : List String) : Report :=
  match read args with
  | .run path => runScript files fuel path
  | .missingPath => ⟨"", .missingPath⟩
  | .help => ⟨helpText, .exit 0⟩
  | .refuse => ⟨"", .exit 2⟩

end CommandLine

end MiniLisp
