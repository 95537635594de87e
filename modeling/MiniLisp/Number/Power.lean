/-!
# Powers of two and of ten

The scales that numbers are written and stored in.
-/

namespace MiniLisp

/-- The power of two with a given exponent. -/
def twoTo (n : Nat) : Nat := Nat.pow 2 n

/-- The power of ten with a given exponent. -/
def tenTo (n : Nat) : Nat := Nat.pow 10 n

end MiniLisp
