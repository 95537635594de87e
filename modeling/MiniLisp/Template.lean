import MiniLisp.Value.Display
import MiniLisp.Value.Equality

/-!
# Templates

A symbol on the left of the remainder operator is a template: `%` introduces a field, which says
how the next argument is written. A tuple on the right holds the arguments; any other value is the
only one. All arguments must be used, unless the value on the right could be looked up by name.
-/

namespace MiniLisp

namespace Template

/-- The flags of a field. -/
structure Flags where
  left : Bool := false
  sign : Bool := false
  blank : Bool := false
  alternate : Bool := false
  zero : Bool := false
deriving Repr, DecidableEq

/-- How one argument is written. -/
structure Field where
  flags : Flags
  width : Option Nat
  precision : Option Nat
  conversion : Char
deriving Repr, DecidableEq

/-- The arguments that are still to be used. -/
abbrev Args := List Value

/-- Takes the next argument. -/
def next : Args → Except Error (Value × Args)
  | v :: vs => .ok (v, vs)
  | [] => .error .wrongType

/-- Reads the flags at the start of a field. -/
def readFlags (flags : Flags) : List Char → Flags × List Char
  | '-' :: cs => readFlags { flags with left := true } cs
  | '+' :: cs => readFlags { flags with sign := true } cs
  | ' ' :: cs => readFlags { flags with blank := true } cs
  | '#' :: cs => readFlags { flags with alternate := true } cs
  | '0' :: cs => readFlags { flags with zero := true } cs
  | cs => (flags, cs)

/-- The integer that a value gives for a width or a precision. -/
def sizeArgument (v : Value) : Except Error Int :=
  match v with
  | .int n => .ok n
  | .bool b => .ok (if b then 1 else 0)
  | _ => .error .wrongType

/-- Reads the digits of a size that must stay below `limit`. -/
def readSize (limit value : Nat) : List Char → Except Error (Nat × List Char)
  | c :: cs =>
    if c.isDigit then
      let n := 10 * value + (c.toNat - 48)
      if limit < n then .error .invalidTemplate else readSize limit n cs
    else .ok (value, c :: cs)
  | [] => .ok (value, [])

/-- The largest width and the largest precision. -/
def maxWidth : Nat := twoTo 63 - 1

@[inherit_doc maxWidth]
def maxPrecision : Nat := twoTo 31 - 1

/-- Reads the width of a field: digits, or a star that takes it from the arguments. A negative
width asks for the left side. -/
def readWidth (flags : Flags) (args : Args) (cs : List Char) :
    Except Error (Flags × Option Nat × Args × List Char) :=
  match cs with
  | '*' :: cs => do
    let (v, args) ← next args
    let n ← sizeArgument v
    if maxWidth < n.natAbs then throw .numberTooLarge
    let flags := if n < 0 then { flags with left := true } else flags
    return (flags, some n.natAbs, args, cs)
  | c :: _ =>
    if c.isDigit then do
      let (n, cs) ← readSize maxWidth 0 cs
      return (flags, some n, args, cs)
    else .ok (flags, none, args, cs)
  | [] => .ok (flags, none, args, cs)

/-- Reads the precision of a field after a point: digits, or a star that takes it from the
arguments. Nothing, or a negative number, stands for zero. -/
def readPrecision (args : Args) (cs : List Char) :
    Except Error (Option Nat × Args × List Char) :=
  match cs with
  | '.' :: '*' :: cs => do
    let (v, args) ← next args
    let n ← sizeArgument v
    if maxPrecision < n.natAbs then throw .numberTooLarge
    return (some n.toNat, args, cs)
  | '.' :: cs => do
    let (n, cs) ← readSize maxPrecision 0 cs
    return (some n, args, cs)
  | cs => .ok (none, args, cs)

/-- Length marks have no meaning and are left out. -/
def skipLength : List Char → List Char
  | 'h' :: cs => cs
  | 'l' :: cs => cs
  | 'L' :: cs => cs
  | cs => cs

/-- Skips a name between brackets, `depth` of which are open. -/
def skipName (depth : Nat) : List Char → Option (List Char)
  | [] => none
  | c :: cs =>
    if c == ')' then
      match depth with
      | 0 => some cs
      | d + 1 => skipName d cs
    else if c == '(' then skipName (depth + 1) cs
    else skipName depth cs

/-- Whether a value could be looked up by name: texts and lists have items at keys. -/
def hasKeys : Value → Bool
  | .text _ => true
  | .list _ => true
  | _ => false

/-- A field that names its argument always fails: no value has names. An unclosed name is
malformed, if names are allowed at all. -/
def namedField (keyed : Bool) (cs : List Char) : Error :=
  if keyed && (skipName 0 cs).isNone then .invalidTemplate else .wrongType

/-- Reads a field after its `%`. -/
def readField (keyed : Bool) (args : Args) (cs : List Char) :
    Except Error (Field × Args × List Char) :=
  match cs with
  | '(' :: cs => .error (namedField keyed cs)
  | cs => do
    let (flags, cs) := readFlags {} cs
    let (flags, width, args, cs) ← readWidth flags args cs
    let (precision, args, cs) ← readPrecision args cs
    match skipLength cs with
    | [] => throw .invalidTemplate
    | c :: cs => return (⟨flags, width, precision, c⟩, args, cs)

/-- Pads a body to the width of a field. `sign` stands before the zeros and after the blanks. -/
def Field.pad (f : Field) (numeric : Bool) (sign lead body : List Char) : List Char :=
  let size := sign.length + lead.length + body.length
  let missing := f.width.getD 0 - size
  if f.flags.left then sign ++ lead ++ body ++ List.replicate missing ' '
  else if numeric && f.flags.zero then sign ++ lead ++ List.replicate missing '0' ++ body
  else List.replicate missing ' ' ++ sign ++ lead ++ body

/-- The sign of a number in a field. -/
def Field.signOf (f : Field) (negative : Bool) : List Char :=
  if negative then ['-']
  else if f.flags.sign then ['+']
  else if f.flags.blank then [' ']
  else []

/-- A text in a field; the precision is the most characters to keep. -/
def Field.plain (f : Field) (s : String) : List Char :=
  let cs := s.toList
  let kept :=
    match f.precision with
    | some n => cs.take n
    | none => cs
  f.pad false [] [] kept

/-- The integer a value gives to an integer field. Doubles are cut to integers for decimal
fields. -/
def integerArgument (decimal : Bool) (v : Value) : Except Error Int :=
  match v with
  | .int n => .ok n
  | .bool b => .ok (if b then 1 else 0)
  | .float x =>
    if decimal then
      match Binary.truncate? x with
      | some n => .ok n
      | none => .error (if x == x then .numberTooLarge else .notANumber)
    else .error .wrongType
  | _ => .error .wrongType

/-- An integer in a field: the precision is the least number of digits. -/
def Field.integer (f : Field) (n : Int) : Except Error (List Char) := do
  let magnitude ←
    match f.conversion with
    | 'o' => pure (Nat.toDigits 8 n.natAbs)
    | 'x' => pure (Nat.toDigits 16 n.natAbs)
    | 'X' => pure ((Nat.toDigits 16 n.natAbs).map Char.toUpper)
    | _ => (writeInteger n.natAbs).map String.toList
  let digits := List.replicate (f.precision.getD 0 - magnitude.length) '0' ++ magnitude
  let lead :=
    if f.flags.alternate && (f.conversion == 'o' || f.conversion == 'x' || f.conversion == 'X')
    then ['0', f.conversion] else []
  return f.pad true (f.signOf (n < 0)) lead digits

/-- A double in a field, with six places unless a precision is given. -/
def Field.float (f : Field) (x : Float) : List Char :=
  let upper := f.conversion.isUpper
  let places := f.precision.getD 6
  let mark := if upper then "E" else "e"
  let keepPoint := f.flags.alternate
  let (negative, body) : Bool × String :=
    match Binary.decode x with
    | .notANumber => (false, if upper then "NAN" else "nan")
    | .infinite negative => (negative, if upper then "INF" else "inf")
    | .finite negative mantissa exponent =>
      let ratio := Binary.scaleRatio mantissa 1 exponent
      let body :=
        match f.conversion.toLower with
        | 'f' => Decimal.fixedText ratio.1 ratio.2 places keepPoint
        | 'e' =>
          let s := Decimal.significant ratio.1 ratio.2 (places + 1)
          Decimal.scientificText (Decimal.padDigits (places + 1) s.digits) (s.lead (places + 1))
            mark keepPoint
        | _ => Decimal.generalText ratio.1 ratio.2 (max places 1) mark keepPoint
      (negative, body)
  f.pad true (f.signOf negative) [] body.toList

/-- The character a value gives to a character field. -/
def characterArgument (v : Value) : Except Error Char :=
  match v with
  | .symbol s =>
    match s.toList with
    | [c] => .ok c
    | _ => .error .wrongType
  | .int n =>
    if 0 ≤ n && n < 0x110000 then .ok (Char.ofNat n.toNat) else .error .numberTooLarge
  | .bool b => .ok (Char.ofNat (if b then 1 else 0))
  | _ => .error .wrongType

/-- Writes an argument in a field. -/
def Field.write (f : Field) (v : Value) : Except Error (List Char) :=
  match f.conversion with
  | 's' => v.display.map f.plain
  | 'r' => v.quoted.map f.plain
  | 'a' => v.quoted.map fun s => f.plain (asciiOf s)
  | 'd' | 'i' | 'u' => (integerArgument true v).bind f.integer
  | 'o' | 'x' | 'X' => (integerArgument false v).bind f.integer
  | 'e' | 'E' | 'f' | 'F' | 'g' | 'G' =>
    match v.number? with
    | some n => n.toFloat.map f.float
    | none => .error .wrongType
  | 'c' => (characterArgument v).map fun c => f.pad false [] [] [c]
  | _ => .error .invalidTemplate
where
  /-- Escapes what is not ASCII. -/
  asciiOf (s : String) : String :=
    String.ofList (s.toList.flatMap fun c => if c.toNat < 0x80 then [c] else escapeCode c)

/-- Fills a template; `fuel` bounds the number of fields. Gives the text and the arguments that
are left. -/
def fill (keyed : Bool) : (fuel : Nat) → Args → List Char → Except Error (List Char × Args)
  | 0, args, _ => .ok ([], args)
  | fuel + 1, args, cs =>
    let plain := cs.takeWhile (· != '%')
    match cs.dropWhile (· != '%') with
    | [] => .ok (plain, args)
    | _ :: '%' :: rest => do
      let (text, args) ← fill keyed fuel args rest
      return (plain ++ '%' :: text, args)
    | _ :: rest => do
      let (field, args, rest) ← readField keyed args rest
      let (v, args) ← next args
      let written ← field.write v
      let (text, args) ← fill keyed fuel args rest
      return (plain ++ written ++ text, args)

end Template

/-- Fills the template `s` with the arguments that `v` holds. -/
def fillTemplate (s : String) (v : Value) : Except Error String := do
  let args :=
    match v with
    | .tuple items => items
    | v => [v]
  let keyed := Template.hasKeys v
  let (text, left) ← Template.fill keyed (s.length + 1) args s.toList
  if left.isEmpty || keyed then return String.ofList text else throw .wrongType

end MiniLisp
