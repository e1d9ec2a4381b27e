/-
NamedLambda/Church/Encoding.lean

Church numerals and booleans, the combinators on them, and the way back from a term to the number
or the truth value that it encodes.  The decoders only look at the shape of a term, whatever its
bound variables are called; they do not reduce it.
-/
import NamedLambda.Term.Basic

namespace NamedLambda

namespace Church

/-! ### Encoding -/

/-- `f` applied `n` times to `x`. -/
def iterate (f x : Term) : Nat → Term
  | 0 => x
  | n + 1 => .app f (iterate f x n)

/-- The numeral of `n`: the function that applies its argument `n` times. -/
def numeral (n : Nat) : Term :=
  .abs "f" (.abs "x" (iterate (.var "f") (.var "x") n))

/-- The boolean of `p`: the choice of the first or the second of two arguments. -/
def boolean (p : Bool) : Term :=
  .abs "t" (.abs "f" (.var (if p then "t" else "f")))

/-! ### Decoding -/

/-- The two kinds of encoded value. -/
inductive Kind where
  | number
  | truth
deriving DecidableEq, Repr

/-- What a term of a kind looks like. -/
def Kind.form : Kind → String
  | number => "\\f.\\x.f (f ... (f x))"
  | truth => "\\t.\\f.t or \\t.\\f.f"

/-- The message for a term that is not of the wanted kind. -/
def Kind.message (k : Kind) : String :=
  "Expected a term of the form " ++ k.form

/-- How often `f` is applied to `x`.  If both are the same name, `f` is not in sight, and only `x`
itself will do. -/
def countApplications (f x : Name) : Term → Option Nat
  | .var y => if y = x then some 0 else none
  | .app (.var g) a =>
      if f ≠ x ∧ g = f then (countApplications f x a).map (· + 1) else none
  | _ => none

/-- The number whose numeral a term is. -/
def decodeNumeral : Term → Option Nat
  | .abs f (.abs x body) => countApplications f x body
  | _ => none

/-- The truth value whose boolean a term is.  If both parameters have the same name, the inner one
is meant. -/
def decodeBoolean : Term → Option Bool
  | .abs t (.abs f (.var v)) =>
      if v = f then some false
      else if v = t then some true
      else none
  | _ => none

/-! ### Combinators -/

/-- The function that swaps the two arguments of a boolean. -/
def negation : Term :=
  .abs "p" (.abs "a" (.abs "b" (.app (.app (.var "p") (.var "b")) (.var "a"))))

/-- The combinators on encoded values. -/
inductive Combinator where
  | succ
  | add
  | mul
  | not
  | and
  | or
  | xor
deriving DecidableEq, Repr

namespace Combinator

/-- The term of a combinator. -/
def term : Combinator → Term
  | succ =>
      .abs "n" (.abs "f" (.abs "x"
        (.app (.var "f") (.app (.app (.var "n") (.var "f")) (.var "x")))))
  | add =>
      .abs "m" (.abs "n" (.abs "f" (.abs "x"
        (.app (.app (.var "m") (.var "f")) (.app (.app (.var "n") (.var "f")) (.var "x"))))))
  | mul => .abs "m" (.abs "n" (.abs "f" (.app (.var "m") (.app (.var "n") (.var "f")))))
  | not => negation
  | and => .abs "p" (.abs "q" (.app (.app (.var "p") (.var "q")) (.var "p")))
  | or => .abs "p" (.abs "q" (.app (.app (.var "p") (.var "p")) (.var "q")))
  | xor => .abs "p" (.abs "q" (.app (.app (.var "p") (.app negation (.var "q"))) (.var "q")))

/-- The name of a combinator. -/
def name : Combinator → String
  | succ => "succ"
  | add => "add"
  | mul => "mul"
  | not => "not"
  | and => "and"
  | or => "or"
  | xor => "xor"

/-- All combinators. -/
def all : List Combinator :=
  [succ, add, mul, not, and, or, xor]

/-- The combinator with the given name. -/
def ofName? (s : String) : Option Combinator :=
  all.find? (·.name == s)

/-- A combinator applied to one term. -/
def unary (c : Combinator) (t : Term) : Term :=
  .app c.term t

/-- A combinator applied to two terms. -/
def binary (c : Combinator) (t u : Term) : Term :=
  .app (.app c.term t) u

end Combinator

end Church

end NamedLambda
