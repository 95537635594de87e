import MiniLisp.CommandLine

/-!
# The program

The outer layer: it reads files from the disk, writes what the command line has to say, and ends
with its exit code.
-/

namespace MiniLisp

/-- The text of a file on the disk, if it can be read. -/
def readIfPresent (path : String) : IO (Option String) := do
  try
    return some (← IO.FS.readFile path)
  catch _ =>
    return none

/-- Runs the command line on the files read so far. When a run asks for one more file that is on
the disk, the file is read and the run is made again. -/
partial def runReading (entries : List (String × String)) (args : List String) :
    IO CommandLine.Report := do
  let report := CommandLine.run (.ofList entries) ampleFuel args
  match report.status with
  | .failed (.fileNotFound path) =>
    match ← readIfPresent path with
    | some text => runReading ((path, text) :: entries) args
    | none => return report
  | _ => return report

end MiniLisp

/-- Runs the file named on the command line. -/
def main (args : List String) : IO UInt32 := do
  let report ← MiniLisp.runReading [] args
  IO.print report.output
  match report.status with
  | .exit code => return code.toUInt32
  | .failed e =>
    IO.eprintln e.message
    return 1
  | .missingPath =>
    IO.eprintln MiniLisp.CommandLine.missingPathMessage
    return 1
