import MiniLisp.Eval.Apply
import MiniLisp.Source

/-!
# Running programs

A call is run with an explicit stack. The machine goes through the arguments of a call from left
to right and puts the call aside whenever an argument is itself a call; a finished call leaves its
result in the place of the argument it was. Running a file that a program imports starts a new
machine on its blocks.

`step` makes one step. `drive` and `runBlocks` repeat it as often as `fuel` allows; running out of
fuel is an outcome of its own.
-/

namespace MiniLisp

/-- The files that a program can import. -/
structure Files where
  /-- What the file at a path holds. -/
  contents? : String → Option String

namespace Files

/-- Files that are found by exactly the paths they are listed with; the first entry counts. -/
def ofList (entries : List (String × String)) : Files :=
  ⟨fun path => entries.lookup path⟩

/-- The text of a file, every line end written as a line feed. -/
def read? (files : Files) (path : String) : Option (List Char) :=
  (files.contents? path).map fun s => unifyLineEnds s.toList

end Files

/-- A call that is being run: its arguments so far, the position of the argument that is looked
at, and the scope of its symbols. -/
structure Frame where
  call : Call
  args : List Value
  index : Nat
  scope : Scope

namespace Frame

/-- Begins to run a call inside another one. A call that has been begun before goes on from the
arguments `args` of the call around it. -/
def enter (c : Call) (args : List Value) (scope : Scope) : Frame :=
  ⟨c, args, 0, scope⟩

/-- Looks up the arguments of a call that has not begun, and checks their number if that is to be
done early. -/
def resolve (f : Frame) (globals : Scope) : Except Error Frame :=
  if f.call.resolved then .ok f
  else
    match f.call.lookupArgs f.scope globals with
    | .error e => .error e
    | .ok args =>
      let args := f.call.sortArgs args
      let begun := { f with args := args, call := { f.call with resolved := true } }
      if f.call.fn.checksEarly then (f.call.validate args).map fun _ => begun else .ok begun

/-- Whether the function of the call is to do its work now. -/
def isReady (f : Frame) (i : Int) : Bool :=
  f.call.canPrepare f.args i && !f.call.prepared

/-- The frame after the function has done its work. -/
def continueWith (f : Frame) (p : Prepared) : Frame :=
  { f with call := { p.call with prepared := true }, args := p.args, scope := p.scope }

/-- Marks an argument as run in the call that a deferred call has built from its arguments. The
built call is the last argument; it holds the arguments before it. A call is a value and not an
object that two lists of arguments share, so this is the only copy that is marked. It differs from
sharing where the finished call is deferred itself and has a call behind a star: the copy of that
inner call has no mark and begins anew, while a shared one would be entered again without end. -/
def markDone (args : List Value) (i : Nat) (finished : Call) : List Value :=
  match args.getLast? with
  | some (.call built) =>
    if i + 1 < args.length then
      args.dropLast ++ [.call { built with args := built.args.set i (.call finished) }]
    else args
  | _ => args

/-- Puts the result of a finished call in the place of the argument it was. -/
def resume (f : Frame) (finished : Call) (result : Value) : Frame :=
  let args := f.args.set f.index result
  if f.call.isDeferred && f.call.prepared then
    { f with args := markDone args f.index finished }
  else { f with args := args }

/-- Checks the number of arguments, unless that was done early. -/
def checkLate (f : Frame) : Except Error Unit :=
  if f.call.fn.checksEarly then .ok () else f.call.validate f.args

end Frame

/-- A state of the machine: the call that is run and the calls around it, the innermost first. -/
inductive State where
  /-- About to begin or to take up a call. -/
  | enter (f : Frame) (stack : List Frame)
  /-- Going through the arguments of a call. -/
  | scan (f : Frame) (stack : List Frame)

/-- What one step of the machine leads to. -/
inductive Step where
  | next (w : World) (s : State)
  /-- The text of a file is to be run before the machine goes on. -/
  | load (w : World) (text : List Char) (s : State)
  | halt (w : World) (result : Except Error Value)

/-- Lets the function of a call do its work on the arguments. -/
def Frame.prepare (files : Files) (w : World) (f : Frame) (stack : List Frame) : Step :=
  match f.call.prepare f.scope w.globals f.args with
  | .error e => .halt w (.error e)
  | .ok p =>
    match p.load with
    | none => .next w (.scan (f.continueWith p) stack)
    | some path =>
      match files.read? path with
      | none => .halt w (.error (.fileNotFound path))
      | some text => .load w text (.scan (f.continueWith p) stack)

/-- Applies the function of a call whose arguments have all been evaluated. -/
def Frame.finish (w : World) (f : Frame) (stack : List Frame) : Step :=
  match f.checkLate with
  | .error e => .halt w (.error e)
  | .ok () =>
    match f.call.apply w f.scope f.args with
    | (w, .error e) => .halt w (.error e)
    | (w, .ok v) =>
      match stack with
      | [] => .halt w (.ok v)
      | outer :: stack => .next w (.enter (outer.resume f.call v) stack)

/-- One step of the machine. -/
def step (files : Files) (w : World) : State → Step
  | .enter f stack =>
    match f.resolve w.globals with
    | .error e => .halt w (.error e)
    | .ok f => if f.isReady (-1) then f.prepare files w stack else .next w (.scan f stack)
  | .scan f stack =>
    match f.args[f.index]? with
    | some (.call c) => .next w (.enter (.enter c f.args f.scope) (f :: stack))
    | some _ =>
      if f.isReady f.index then f.prepare files w stack
      else .next w (.scan { f with index := f.index + 1 } stack)
    | none => f.finish w stack

/-- How running ends. -/
inductive Result where
  | value (v : Value)
  | failed (e : Error)
  | outOfFuel

/-- The world after running, and how it ended. -/
structure Outcome where
  world : World
  result : Result

/-- The outcome of a halted machine. -/
def Outcome.ofExcept (w : World) : Except Error Value → Outcome
  | .ok v => ⟨w, .value v⟩
  | .error e => ⟨w, .failed e⟩

/-- The state in which a call begins in a scope. -/
def State.start (c : Call) (scope : Scope) : State :=
  .enter (.enter c [] scope) []

/-- The world in which one more block has been started. -/
def World.startBlock (w : World) : World :=
  { w with executes := w.executes + 1 }

mutual

/-- Runs the machine until it halts. -/
def drive (files : Files) : (fuel : Nat) → World → State → Outcome
  | 0, w, _ => ⟨w, .outOfFuel⟩
  | fuel + 1, w, s =>
    match step files w s with
    | .next w s => drive files fuel w s
    | .halt w r => Outcome.ofExcept w r
    | .load w text s =>
      match runBlocks files fuel w .none (Source.normalise text) with
      | ⟨w, .value _⟩ => drive files fuel w s
      | o => o

/-- Runs the blocks of a normalised text one after the other. The value of the last one counts;
`last` is the value if there is none. -/
def runBlocks (files : Files) : (fuel : Nat) → World → (last : Value) → List Char → Outcome
  | 0, w, _, _ => ⟨w, .outOfFuel⟩
  | _ + 1, w, last, [] => ⟨w, .value last⟩
  | fuel + 1, w, _, c :: cs =>
    match readCall w.globals (c :: cs) with
    | .error e => ⟨w, .failed e⟩
    | .ok (call, rest) =>
      match drive files fuel w.startBlock (.start call []) with
      | ⟨w, .value v⟩ => runBlocks files fuel w v rest
      | o => o

end

/-- Runs a program text in a world. -/
def runText (files : Files) (fuel : Nat) (w : World) (text : List Char) : Outcome :=
  runBlocks files fuel w .none (Source.normalise text)

/-- Runs one call in a scope. -/
def execute (files : Files) (fuel : Nat) (w : World) (scope : Scope) (c : Call) : Outcome :=
  drive files fuel w.startBlock (.start c scope)

/-- Fuel for more steps than any computer makes. -/
def ampleFuel : Nat := tenTo 18

/-- Lets the function of a call do its work on some arguments, outside of any run. -/
def Call.prepareAlone (c : Call) (files : Files) (fuel : Nat) (w : World) (scope : Scope)
    (args : List Value) : World × Except Error Prepared :=
  match c.prepare scope w.globals args with
  | .error e => (w, .error e)
  | .ok p =>
    match p.load with
    | none => (w, .ok p)
    | some path =>
      match files.read? path with
      | none => (w, .error (.fileNotFound path))
      | some text =>
        match runText files fuel w text with
        | ⟨w, .value _⟩ => (w, .ok p)
        | ⟨w, .failed e⟩ => (w, .error e)
        | ⟨w, .outOfFuel⟩ => (w, .ok p)

end MiniLisp
