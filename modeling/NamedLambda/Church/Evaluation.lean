/-
NamedLambda/Church/Evaluation.lean

The number or the truth value of a term: its normal form, decoded.
-/
import NamedLambda.Church.Encoding
import NamedLambda.Reduction.Bounded

namespace NamedLambda

/-- Why a term has no result. -/
inductive EvaluationError where
  /-- Reduction was given up. -/
  | divergence (e : Divergence)
  /-- The normal form encodes nothing of the wanted kind. -/
  | shape (k : Church.Kind)
deriving DecidableEq, Repr

/-- The message for a term without a result. -/
def EvaluationError.message : EvaluationError → String
  | divergence e => e.message
  | shape k => k.message

namespace Term

/-- The normal form of a term, found by normal order. -/
def normalForm (budget : Nat) (t : Term) : Except Divergence Term :=
  (Strategy.normalOrder true).reduce budget t

/-- The number whose numeral the normal form of a term is. -/
def toNumber (budget : Nat) (t : Term) : Except EvaluationError Nat :=
  match t.normalForm budget with
  | .error e => .error (.divergence e)
  | .ok u =>
      match Church.decodeNumeral u with
      | some n => .ok n
      | none => .error (.shape .number)

/-- The truth value whose boolean the normal form of a term is. -/
def toBool (budget : Nat) (t : Term) : Except EvaluationError Bool :=
  match t.normalForm budget with
  | .error e => .error (.divergence e)
  | .ok u =>
      match Church.decodeBoolean u with
      | some p => .ok p
      | none => .error (.shape .truth)

end Term

end NamedLambda
