/-!
# What can go wrong

One constructor for each cause of failure. `Error.message` gives the wording; the constructors
that carry texts hold the parts of the message that depend on the program.
-/

namespace MiniLisp

/-- The causes for which reading or running a program fails. -/
inductive Error where
  /-- A call was expected and something else than an opening bracket was found. -/
  | missingOpen
  /-- The text ends inside a call whose first item is `head`. -/
  | unterminated (head : String)
  /-- The text ends inside a call that has no items yet, and so there is no call. -/
  | unfinished
  /-- A call without any item. -/
  | emptyCall
  /-- A position outside the text. -/
  | pastEnd
  /-- A symbol without a value, met while running `call`. -/
  | unknownSymbol (name call : String)
  /-- The head of a call is not a function but something of another kind. -/
  | notFunction (head kind shown call : String)
  /-- A function was given a wrong number of arguments. -/
  | argumentCount (atLeast : Bool) (expected : Int) (name : String) (got : Nat)
  | condTooFew (call : String)
  | condUnpaired (call : String)
  | letTooFew (call : String)
  | letUnpaired (call : String)
  /-- The rest parameter is not the last one. -/
  | restNotLast
  | flattenNonList (call : String)
  /-- An operand of a kind that the operation does not take. -/
  | wrongType
  /-- A value that cannot be compared by its hash. -/
  | unhashable
  /-- A builtin was applied to a wrong number of operands. -/
  | operandCount
  /-- A text was needed, to be read or to be compared with a text. -/
  | notText
  /-- A function that was never given a definition. -/
  | noDefinition
  /-- A number with too many digits to be written. -/
  | tooManyDigits
  | negativeRoot
  /-- An integer was asked of a double that is not a number. -/
  | notANumber
  | invalidCodePoint
  /-- A function name with a character that names may not hold. -/
  | invalidName
  | invalidTemplate
  /-- A number too large for the kind of number that is needed. -/
  | numberTooLarge
  | divisionByZero
  | indexOutOfRange
  /-- An item that should be there is missing. -/
  | missingItem
  /-- Flattening never ends on a symbol, because its characters are symbols again. -/
  | endlessFlatten
  /-- The name of a captured variable asks for its expansion. -/
  | captureExpanded
  | fileNotFound (path : String)
  /-- A name that the global table does not have. -/
  | unboundName (name : String)
deriving Repr, DecidableEq

/-- What `cond` should look like. -/
def condShape : String := "(cond <condition> <action> ...)"

/-- What `let` should look like. -/
def letShape : String := "(let <name> <value> ... (body))"

/-- The wording of an error. -/
def Error.message : Error → String
  | missingOpen => "Call must begin with \"(\"."
  | unterminated head => "Unterminated call to function \"" ++ head ++ "\""
  | unfinished => "Unterminated call."
  | emptyCall => "A call needs a function."
  | pastEnd => "Position outside the text."
  | unknownSymbol name call =>
    "Reference to unknown symbol \"" ++ name ++ "\" in \"" ++ call ++ "\"."
  | notFunction head kind shown call =>
    "\"" ++ head ++ "\" is not a function, it is " ++ kind ++ " (" ++ shown ++ "). (in \""
      ++ call ++ "\")"
  | argumentCount atLeast expected name got =>
    "Expected " ++ (if atLeast then "at least " else "") ++ toString expected ++ " argument"
      ++ (if expected = 1 then "" else "s") ++ " for function \"" ++ name ++ "\", got "
      ++ toString got ++ "."
  | condTooFew call =>
    "cond \"" ++ call ++ "\" requires at least 2 arguments. Expected " ++ condShape
  | condUnpaired call =>
    "Wrong number arguments for cond \"" ++ call ++ "\". Expected " ++ condShape
  | letTooFew call => "Too few arguments for let \"" ++ call ++ "\". Expected " ++ letShape
  | letUnpaired call => "Wrong number arguments for let \"" ++ call ++ "\". Expected " ++ letShape
  | restNotLast => "\"'*\" must be the last parameter if present."
  | flattenNonList call => "Flatten \"" ++ call ++ "\" not called with a list."
  | wrongType => "Operand of a wrong kind."
  | unhashable => "A list cannot be compared by its hash."
  | operandCount => "Wrong number of operands."
  | notText => "Not a text."
  | noDefinition => "The function has no definition."
  | tooManyDigits => "The number has too many digits."
  | negativeRoot => "Square root of a negative number."
  | notANumber => "Not a number."
  | invalidCodePoint => "Not the code of a character."
  | invalidName => "A function name may not hold this character."
  | invalidTemplate => "Malformed template."
  | numberTooLarge => "Number too large."
  | divisionByZero => "Division by zero."
  | indexOutOfRange => "Index out of range."
  | missingItem => "Missing item."
  | endlessFlatten => "Flattening does not end."
  | captureExpanded => "A captured variable cannot be expanded."
  | fileNotFound path => "No such file: " ++ path
  | unboundName name => "No such name: " ++ name

end MiniLisp
