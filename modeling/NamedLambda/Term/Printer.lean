/-
NamedLambda/Term/Printer.lean

The written forms of a term.  `toSource` is the canonical one: application associates to the left,
the body of an abstraction extends as far as it can, and a pair of parentheses stands only where
the term would read differently without it, that is around an abstraction that is applied and
around an argument that is not a variable.
-/
import NamedLambda.Term.Basic

namespace NamedLambda

namespace Term

/-- A text in parentheses. -/
def parenthesized (s : String) : String :=
  "(" ++ s ++ ")"

/-- The canonical form of a term, with the given sign for abstraction. -/
def render (lambda : String) : Term → String
  | var x => x
  | abs x b => lambda ++ x ++ "." ++ b.render lambda
  | app f a =>
      (if f.isAbs then parenthesized (f.render lambda) else f.render lambda) ++ " " ++
        (if a.isVar then a.render lambda else parenthesized (a.render lambda))

/-- The canonical form of a term, abstractions written with a backslash. -/
def toSource : Term → String :=
  render "\\"

/-- The canonical form of a term, abstractions written with the letter λ. -/
def toGreek : Term → String :=
  render "λ"

end Term

end NamedLambda
