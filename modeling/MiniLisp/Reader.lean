import MiniLisp.Scope

/-!
# Reading calls

Reads a call from a text. An item of a call is a bare symbol, a text between double quotes, or a
call. The head of a call is looked up among the global functions; a call whose head is not there
is deferred until it runs.

Calls are read however deep they are nested. A limit on the depth of the recursion is not modelled,
neither here nor where values are compared, written or flattened.
-/

namespace MiniLisp

/-- The position of the parameter that stands for the rest of the arguments. A text before it
cannot be compared with it. -/
def restPosition? : List Value → Except Error (Option Nat)
  | [] => .ok none
  | .text _ :: _ => .error .notText
  | .symbol s :: args =>
    if s == "'*" then .ok (some 0)
    else (restPosition? args).map (·.map (· + 1))
  | _ :: args => (restPosition? args).map (·.map (· + 1))

/-- Whether the arguments of a definition have the rest parameter. -/
def hasRest (args : List Value) : Bool :=
  match restPosition? args with
  | .ok (some _) => true
  | _ => false

/-- Begins a call of a definition. The rest parameter must be the last one, right before the
body. -/
def beginDefinition (fn : Function) (args : List Value) : Except Error Call :=
  match restPosition? args with
  | .error e => .error e
  | .ok none => .ok (.begin fn args)
  | .ok (some i) => if i + 2 == args.length then .ok (.begin fn args) else .error .restNotLast

/-- Begins a call of a function. -/
def Function.begin (fn : Function) (args : List Value) : Except Error Call :=
  match fn with
  | .builtin .define => beginDefinition fn args
  | .builtin .lambda => beginDefinition fn args
  | .builtin .deferred => if args.isEmpty then .error .missingItem else .ok (.begin fn args)
  | _ => .ok (.begin fn args)

/-- The call of `head` with some arguments: of the global function of that name, or deferred if
there is none. -/
def makeCall (globals : Scope) (head : Value) (args : List Value) : Except Error Call :=
  match globals.find? head with
  | .error e => .error e
  | .ok none => .ok (.defer head args)
  | .ok (some (.function fn)) => fn.begin args
  | .ok (some _) => .error .wrongType

/-- An item read from a text, and the number of characters it takes. -/
structure Token where
  value : Value
  width : Nat

/-- Reads a symbol or a quoted text. A text goes up to the next double quote, which belongs to it
even where it is missing. -/
def Token.read : List Char → Token
  | '"' :: cs =>
    let content := cs.takeWhile (· != '"')
    ⟨.text (String.ofList content), content.length + 2⟩
  | cs =>
    let name := cs.takeWhile (!isDelimiter ·)
    ⟨.symbol (String.ofList name), name.length⟩

/-- A token that does not begin with a delimiter takes at least one character. -/
theorem Token.read_width_pos {c : Char} {cs : List Char} (h : isDelimiter c = false) :
    0 < (Token.read (c :: cs)).width := by
  unfold Token.read
  split
  · simp
  · rename_i heq
    simp [h]

/-- The error for a text that ends inside a call with these items. -/
def unterminated : List Value → Error
  | [] => .unfinished
  | head :: _ =>
    match head.display with
    | .ok s => .unterminated s
    | .error e => e

/-- What an error inside a call means for the call around it: where no call was read, what is taken
for one has a wrong kind. -/
def Error.fromInside : Error → Error
  | .unfinished => .wrongType
  | e => e

/-- The call with these items. -/
def closeCall (globals : Scope) : List Value → Except Error Call
  | [] => .error .emptyCall
  | head :: args => makeCall globals head args

/-- Reads the items of a call up to its closing bracket, after the items `parts`. Gives the call
and the text behind it, which is shorter than the text before. -/
def readItems (globals : Scope) (parts : List Value) (cs : List Char) :
    Except Error (Call × { rest : List Char // rest.length < cs.length }) :=
  match cs with
  | [] => .error (unterminated parts)
  | c :: cs =>
    if c == '(' then
      match readItems globals [] cs with
      | .error e => .error e.fromInside
      | .ok (inner, rest) =>
        match readItems globals (parts ++ [.call inner]) rest.1 with
        | .error e => .error e
        | .ok (call, rest') =>
          .ok (call, ⟨rest'.1, Nat.lt_succ_of_lt (Nat.lt_trans rest'.2 rest.2)⟩)
    else if c == ')' then
      match closeCall globals parts with
      | .error e => .error e
      | .ok call => .ok (call, ⟨cs, Nat.lt_succ_self _⟩)
    else if isSeparator c then
      match readItems globals parts cs with
      | .error e => .error e
      | .ok (call, rest) => .ok (call, ⟨rest.1, Nat.lt_succ_of_lt rest.2⟩)
    else
      let token := Token.read (c :: cs)
      match readItems globals (parts ++ [token.value]) (cs.drop (token.width - 1)) with
      | .error e => .error e
      | .ok (call, rest) =>
        .ok (call, ⟨rest.1, by
          have h := rest.2
          simp only [List.length_cons, List.length_drop] at h ⊢
          omega⟩)
termination_by cs.length
decreasing_by
  all_goals simp only [List.length_cons, List.length_drop]
  · omega
  · have := rest.2; omega
  · omega
  · omega

/-- Reads one call at the start of a text. -/
def readCall (globals : Scope) : List Char → Except Error (Call × List Char)
  | [] => .error .pastEnd
  | c :: cs =>
    if c == '(' then (readItems globals [] cs).map fun r => (r.1, r.2.1)
    else .error .missingOpen

/-- The text from a position on. A negative position counts from the end, and the text then goes
on from its start. -/
def textFrom (cs : List Char) (i : Int) : Option (List Char) :=
  if 0 ≤ i then
    if i < cs.length then some (cs.drop i.toNat) else none
  else if -(cs.length : Int) ≤ i then some (cs.drop (cs.length - i.natAbs) ++ cs)
  else none

/-- Reads a symbol or a quoted text at a position, and gives the position behind it. -/
def readTokenAt (s : String) (i : Int) : Except Error (Value × Int) :=
  match textFrom s.toList i with
  | none => .error .pastEnd
  | some cs =>
    let token := Token.read cs
    .ok (token.value, i + token.width)

/-- Reads a call at a position, and gives the position behind it. -/
def readCallAt (globals : Scope) (s : String) (i : Int) : Except Error (Call × Int) :=
  match textFrom s.toList i with
  | none => .error .pastEnd
  | some cs => (readCall globals cs).map fun r => (r.1, i + (cs.length - r.2.length : Nat))

end MiniLisp
