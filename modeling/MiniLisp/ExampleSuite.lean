import MiniLisp.CommandLine
import MiniLisp.Library

/-!
# The example suite

Runs every example of a directory as a script and compares what it writes with what is expected.
The suite stops at the first example that fails to run.
-/

namespace MiniLisp

namespace ExampleSuite

/-- The files of the example directory, by their names in it. -/
abbrev Directory := List (String × String)

/-- The ending of the files that hold what is expected. -/
def expectedEnding : String := ".expected"

/-- A file name without its last extension. -/
def stem (name : String) : String :=
  let cs := name.toList
  match cs.reverse.dropWhile (· != '.') with
  | _ :: rest => String.ofList rest.reverse
  | [] => name

/-- A file that is neither hidden nor an expected output. -/
def isExample (name : String) : Bool :=
  !expectedEnding.toList.isSuffixOf name.toList && name.toList.head? != some '.'

/-- The names of the examples in order. Files with the same stem each count. -/
def examples (dir : Directory) : List String :=
  ((dir.map (·.1)).filter isExample).map stem |>.mergeSort fun a b => !textBefore b.toList a.toList

/-- The files that there are, by their shortest paths. -/
def entries (dir : Directory) : List (String × String) :=
  (Library.path, Library.source) :: dir.map fun (name, text) => ("examples/" ++ name, text)

/-- The shortest path of the file that a path leads to, given by its parts. The path starts in the
directory `place`, or above the directories of the library and the examples. -/
def follow (place : Option String) : List String → Option String
  | [] => none
  | [name] =>
    if ["", ".", ".."].contains name then none
    else
      match place with
      | none => some name
      | some directory => some (directory ++ "/" ++ name)
  | part :: rest =>
    if part == "" || part == "." then follow place rest
    else
      match place with
      | none => if ["lib", "examples"].contains part then follow (some part) rest else none
      | some _ => if part == ".." then follow none rest else none

/-- The shortest path of the file that a relative path leads to. -/
def shortestPath? (path : String) : Option String :=
  match path.splitOn "/" with
  | "" :: _ => none
  | parts => follow none parts

/-- The files that an example can import. -/
def files (dir : Directory) : Files :=
  ⟨fun path => (shortestPath? path).bind fun shortest => (entries dir).lookup shortest⟩

/-- The text written and how the suite ends; `none` if an example failed to run. -/
structure Report where
  output : String
  exit : Option Nat

/-- Whether an example writes exactly what is expected. -/
def passes (dir : Directory) (name output : String) : Bool :=
  match dir.lookup (name ++ expectedEnding) with
  | some expected => String.ofList (unifyLineEnds output.toList) == expected
  | none => false

/-- Runs examples one after the other, after the text `output` was written; `code` is the exit
code so far. -/
def runFrom (dir : Directory) (fuel : Nat) (output : String) (code : Nat) :
    List String → Report
  | [] => ⟨output, some code⟩
  | name :: names =>
    let output := output ++ "Running " ++ name ++ ".ls ... "
    match CommandLine.runScript (files dir) fuel ("examples/" ++ name ++ ".ls") with
    | ⟨written, .exit 0⟩ =>
      if passes dir name written then runFrom dir fuel (output ++ "passed.\n") code names
      else runFrom dir fuel (output ++ "failed.\n") 1 names
    | _ => ⟨output, none⟩

/-- Runs all examples of a directory. -/
def run (dir : Directory) (fuel : Nat) : Report :=
  runFrom dir fuel "" 0 (examples dir)

end ExampleSuite

end MiniLisp
