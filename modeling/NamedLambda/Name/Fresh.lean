/-
NamedLambda/Name/Fresh.lean

Fresh names.  A fresh variant of a name keeps its stem, which is the name without its trailing
digits, and takes the least positive number that makes it differ from every name to be avoided.

One of the first `n + 1` numbers always serves when `n` names are to be avoided, so the search ends
after at most `n` failures.
-/
import NamedLambda.Name.Set

namespace NamedLambda

namespace Name

/-- A name without the ASCII digits it ends with. -/
def stem (x : Name) : Name :=
  String.ofList (x.toList.reverse.dropWhile Char.isDigit).reverse

/-- A stem followed by a number in decimal digits. -/
def numbered (stem : Name) (k : Nat) : Name :=
  stem ++ k.repr

/-- The first number from `k` on that makes `stem` a name outside `avoid`, or the number after the
given count of attempts if all of them fail. -/
def freeNumberFrom (stem : Name) (avoid : NameSet) : (attempts k : Nat) → Nat
  | 0, k => k
  | attempts + 1, k =>
      if numbered stem k ∈ avoid then freeNumberFrom stem avoid attempts (k + 1) else k

/-- The variant of `x` with the least positive number that is not in `avoid`. -/
def fresh (x : Name) (avoid : NameSet) : Name :=
  numbered x.stem (freeNumberFrom x.stem avoid avoid.size 1)

end Name

end NamedLambda
