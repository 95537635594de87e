import MiniLisp.Text.Blank

/-!
# Program texts

Before it is read a program text is brought to a normal form: comments are taken out, each up to
and including the end of its line, every run of blanks becomes one space, and no space is left next
to a bracket.
-/

namespace MiniLisp

namespace Source

/-- Takes out the comments; `inside` tells whether the text begins inside one. -/
def dropComments (inside : Bool) : List Char → List Char
  | [] => []
  | c :: cs =>
    if inside then dropComments (c != '\n') cs
    else if c == '#' then dropComments true cs
    else c :: dropComments false cs

/-- Writes every run of blanks as one space; `after` tells whether a blank came before. -/
def squeezeBlanks (after : Bool) : List Char → List Char
  | [] => []
  | c :: cs =>
    if isBlank c then
      if after then squeezeBlanks true cs else ' ' :: squeezeBlanks true cs
    else c :: squeezeBlanks false cs

/-- Whether a text begins with a bracket. -/
def startsWithBracket : List Char → Bool
  | [] => false
  | c :: _ => isBracket c

/-- Takes out the spaces next to brackets; `after` tells whether a bracket came before. Runs of
spaces have been squeezed already. -/
def tightenBrackets (after : Bool) : List Char → List Char
  | [] => []
  | c :: cs =>
    if c == ' ' && (after || startsWithBracket cs) then tightenBrackets false cs
    else c :: tightenBrackets (isBracket c) cs

/-- The normal form of a program text. -/
def normalise (cs : List Char) : List Char :=
  tightenBrackets false (squeezeBlanks false (dropComments false cs))

end Source

end MiniLisp
