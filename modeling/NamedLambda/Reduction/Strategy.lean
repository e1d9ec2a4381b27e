/-
NamedLambda/Reduction/Strategy.lean

Reduction strategies.  A strategy looks for a redex in some region of the term and contracts the
first that it finds; where there is none, the term is in the stopping form of the strategy.

There are two orders of search.  `outermostStep` tries a node before its parts, `innermostStep` the
parts before the node, and both go from the operator to the argument.  Whether the search enters
the bodies of abstractions, and for the first order whether it enters arguments, is a parameter of
the search.  The head spine is searched in two passes: only when the whole head is normal do the
arguments have their turn, from left to right.
-/
import NamedLambda.Term.Substitution

namespace NamedLambda

namespace Term

/-! ### The searches -/

/-- Contract the first redex when a node comes before its parts.  The search enters bodies if
`bodies` says so, and arguments if `arguments` does. -/
def outermostStep (bodies arguments : Bool) : Term → Option Term
  | var _ => none
  | abs x b => if bodies then (b.outermostStep bodies arguments).map (abs x) else none
  | app f a =>
      match contract (app f a) with
      | some u => some u
      | none =>
          match f.outermostStep bodies arguments with
          | some f' => some (app f' a)
          | none => if arguments then (a.outermostStep bodies arguments).map (app f) else none

/-- Contract the first redex when a node comes after its parts.  The search enters arguments, and
bodies if `bodies` says so. -/
def innermostStep (bodies : Bool) : Term → Option Term
  | var _ => none
  | abs x b => if bodies then (b.innermostStep bodies).map (abs x) else none
  | app f a =>
      match f.innermostStep bodies with
      | some f' => some (app f' a)
      | none =>
          match a.innermostStep bodies with
          | some a' => some (app f a')
          | none => contract (app f a)

/-- Contract the redex at the head, under any abstractions that lead to it. -/
def headStep : Term → Option Term :=
  outermostStep true false

/-- Contract a redex in the leftmost argument of the spine that has one, in each argument the head
first. -/
def argumentStep : Term → Option Term
  | var _ => none
  | abs x b => b.argumentStep.map (abs x)
  | app f a =>
      match f.argumentStep with
      | some f' => some (app f' a)
      | none =>
          match a.headStep with
          | some a' => some (app f a')
          | none => a.argumentStep.map (app f)

/-- Contract the head redex, or else a redex in an argument. -/
def spineStep (t : Term) : Option Term :=
  match t.headStep with
  | some u => some u
  | none => t.argumentStep

end Term

/-! ### The strategies -/

/-- A reduction strategy.  The deep strategies go on where the shallow ones stop: into the bodies
of abstractions, or for the head spine into the arguments. -/
inductive Strategy where
  /-- The operator, the argument, then the redex; bodies are left alone. -/
  | callByValue
  /-- The redex, then the operator; bodies and arguments are left alone. -/
  | callByName
  /-- The redex, the operator, then the argument. -/
  | normalOrder (deep : Bool)
  /-- The operator, the argument, then the redex. -/
  | applicativeOrder (deep : Bool)
  /-- The head redex, also under abstractions. -/
  | headSpine (deep : Bool)
deriving DecidableEq, Repr

namespace Strategy

/-- One step of reduction; none if the term is in the stopping form. -/
def step : Strategy → Term → Option Term
  | callByValue => Term.innermostStep false
  | callByName => Term.outermostStep false false
  | normalOrder deep => Term.outermostStep deep true
  | applicativeOrder deep => Term.innermostStep deep
  | headSpine false => Term.headStep
  | headSpine true => Term.spineStep

/-- The name of a strategy. -/
def name : Strategy → String
  | callByValue => "call-by-value"
  | callByName => "call-by-name"
  | normalOrder false => "normal order"
  | normalOrder true => "normal order (deep)"
  | applicativeOrder false => "applicative order"
  | applicativeOrder true => "applicative order (deep)"
  | headSpine false => "head spine"
  | headSpine true => "head spine (deep)"

/-- The short name of a strategy, an exclamation mark for a deep one. -/
def shortName : Strategy → String
  | callByValue => "cbv"
  | callByName => "cbn"
  | normalOrder false => "no"
  | normalOrder true => "no!"
  | applicativeOrder false => "ao"
  | applicativeOrder true => "ao!"
  | headSpine false => "hs"
  | headSpine true => "hs!"

/-- All strategies. -/
def all : List Strategy :=
  [callByValue, callByName, normalOrder false, normalOrder true, applicativeOrder false,
   applicativeOrder true, headSpine false, headSpine true]

/-- The strategy with the given short name. -/
def ofShortName? (s : String) : Option Strategy :=
  all.find? (·.shortName == s)

/-- What the first `n` requests for a further step give: the term after the step, or none once the
stopping form is reached. -/
def steps (s : Strategy) : Nat → Term → List (Option Term)
  | 0, _ => []
  | n + 1, t =>
      match s.step t with
      | some u => some u :: s.steps n u
      | none => List.replicate (n + 1) none

end Strategy

end NamedLambda
