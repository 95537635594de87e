import MiniLisp.Number.Power
import MiniLisp.Text.Blank

/-!
# Integers written in decimal

Reads an integer from a text: an optional sign, then decimal digits of any script, with single
underscores allowed between them, and blanks allowed around the whole. A number of more than
4300 digits is neither read nor written.
-/

namespace MiniLisp

/-- The most digits a number may have when it is read or written. -/
def maxDigits : Nat := 4300

/-- The first magnitude with too many digits to be written. -/
def digitLimit : Nat := tenTo maxDigits

/-- The code points of the zeros of every script with decimal digits; the nine other digits
follow each of them. -/
def scriptZeros : List Nat :=
  [0x30, 0x660, 0x6F0, 0x7C0, 0x966, 0x9E6, 0xA66, 0xAE6, 0xB66, 0xBE6, 0xC66, 0xCE6, 0xD66,
   0xDE6, 0xE50, 0xED0, 0xF20, 0x1040, 0x1090, 0x17E0, 0x1810, 0x1946, 0x19D0, 0x1A80, 0x1A90,
   0x1B50, 0x1BB0, 0x1C40, 0x1C50, 0xA620, 0xA8D0, 0xA900, 0xA9D0, 0xA9F0, 0xAA50, 0xABF0,
   0xFF10, 0x104A0, 0x10D30, 0x11066, 0x110F0, 0x11136, 0x111D0, 0x112F0, 0x11450, 0x114D0,
   0x11650, 0x116C0, 0x11730, 0x118E0, 0x11950, 0x11C50, 0x11D50, 0x11DA0, 0x16A60, 0x16AC0,
   0x16B50, 0x1D7CE, 0x1D7D8, 0x1D7E2, 0x1D7EC, 0x1D7F6, 0x1E140, 0x1E2F0, 0x1E950, 0x1FBF0]

/-- The value of a decimal digit of any script. -/
def digitValue? (c : Char) : Option Nat :=
  (scriptZeros.find? fun z => z ≤ c.toNat && c.toNat < z + 10).map (c.toNat - ·)

/-- Blanks allowed around an integer: the separators and the wide blanks. -/
def isIntegerBlank (c : Char) : Bool :=
  isSeparator c || isWideBlank c

/-- Reads digits with single underscores between them. `afterDigit` tells whether the character
before was a digit; `value` and `count` are the number read so far and its digits. -/
def readDigits (afterDigit : Bool) (value count : Nat) : List Char → Option (Nat × Nat)
  | [] => if afterDigit then some (value, count) else none
  | c :: cs =>
    if c == '_' then
      if afterDigit then readDigits false value count cs else none
    else
      match digitValue? c with
      | some d => readDigits true (10 * value + d) (count + 1) cs
      | none => none

/-- Reads a natural number of at most `maxDigits` digits. -/
def readNatural (cs : List Char) : Option Nat :=
  match readDigits false 0 0 cs with
  | some (value, count) => if count ≤ maxDigits then some value else none
  | none => none

/-- Drops the blanks at both ends. -/
def trimIntegerBlanks (cs : List Char) : List Char :=
  ((cs.dropWhile isIntegerBlank).reverse.dropWhile isIntegerBlank).reverse

/-- Reads an integer, or nothing if the text is not one. -/
def readInteger (s : String) : Option Int :=
  match trimIntegerBlanks s.toList with
  | '-' :: cs => (readNatural cs).map fun n => -(n : Int)
  | '+' :: cs => (readNatural cs).map fun n => (n : Int)
  | cs => (readNatural cs).map fun n => (n : Int)

/-- The decimal text of an integer, if it has few enough digits. -/
def writeInteger? (n : Int) : Option String :=
  if n.natAbs < digitLimit then some (toString n) else none

end MiniLisp
