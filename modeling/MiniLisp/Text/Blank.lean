/-!
# Blanks, brackets and line ends

The two classes of blank characters the language knows: the six that separate the items of a
call, and the larger Unicode class that is squeezed out of a program text before it is read.
-/

namespace MiniLisp

/-- The six ASCII characters that separate the items of a call. -/
def isSeparator (c : Char) : Bool :=
  c == ' ' || c == '\t' || c == '\n' || c == '\r' || c == '\x0b' || c == '\x0c'

/-- The code points of the blank characters above ASCII. -/
def wideBlanks : List Nat :=
  [0x85, 0xA0, 0x1680, 0x2000, 0x2001, 0x2002, 0x2003, 0x2004, 0x2005, 0x2006, 0x2007, 0x2008,
   0x2009, 0x200A, 0x2028, 0x2029, 0x202F, 0x205F, 0x3000]

/-- A blank above ASCII. -/
def isWideBlank (c : Char) : Bool :=
  wideBlanks.contains c.toNat

/-- Any blank: a separator, one of the four ASCII information separators, or a wide blank. -/
def isBlank (c : Char) : Bool :=
  isSeparator c || (0x1C ≤ c.toNat && c.toNat ≤ 0x1F) || isWideBlank c

/-- An opening or a closing bracket. -/
def isBracket (c : Char) : Bool :=
  c == '(' || c == ')'

/-- A bare symbol ends before one of these. -/
def isDelimiter (c : Char) : Bool :=
  isBracket c || isSeparator c

/-- Separators are blanks. -/
theorem isBlank_of_isSeparator {c : Char} (h : isSeparator c = true) : isBlank c = true := by
  simp [isBlank, h]

/-- Brackets are not blank. -/
theorem isBlank_eq_false_of_isBracket {c : Char} (h : isBracket c = true) : isBlank c = false := by
  simp only [isBracket, Bool.or_eq_true, beq_iff_eq] at h
  rcases h with rfl | rfl <;> decide

/-- Writes every line end as one line feed: a carriage return counts as a line end, alone or
before a line feed. -/
def unifyLineEnds : List Char → List Char
  | [] => []
  | '\r' :: '\n' :: cs => '\n' :: unifyLineEnds cs
  | '\r' :: cs => '\n' :: unifyLineEnds cs
  | c :: cs => c :: unifyLineEnds cs

end MiniLisp
