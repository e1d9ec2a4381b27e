/-
NamedLambda/Source/Automaton.lean

Readers of source text as automata, and the loop in which all of them run.

The text is cut into tokens, and the automaton goes from state to state token by token.  The first
token for which it has no state to go to is the place where reading stops; the state before it says
what the error is.
-/
import NamedLambda.Source.Lexer

namespace NamedLambda

/-- A reader that goes from state to state item by item. -/
structure Automaton (ι σ α : Type) where
  /-- The state before the first item. -/
  initial : σ
  /-- The state after one more item. -/
  step : σ → ι → Option σ
  /-- What has been read, if the text can end here. -/
  finish : σ → Option α
  /-- The error at a token that cannot come next, or at the end if the text cannot end here. -/
  unexpected : Option Token → Span → σ → Unexpected Token

namespace Automaton

variable {ι κ σ α : Type}

/-- The automaton that reads the item `f k` where it meets `k`. -/
def comap (f : κ → ι) (A : Automaton ι σ α) : Automaton κ σ α where
  initial := A.initial
  step s k := A.step s (f k)
  finish := A.finish
  unexpected := A.unexpected

/-- Read on to the end of the tokens, at which `stop` is the number of characters of the source. -/
def run (A : Automaton (Located Token) σ α) (stop : Nat) (s : σ) :
    List (Located Token) → Except (Unexpected Token) α
  | [] =>
      match A.finish s with
      | some a => .ok a
      | none => .error (A.unexpected none ⟨stop, stop + 1⟩ s)
  | token :: tokens =>
      match A.step s token with
      | some s' => A.run stop s' tokens
      | none => .error (A.unexpected (some token.value) token.span s)

/-- What a source text writes. -/
def read (A : Automaton (Located Token) σ α) (source : String) : Except SourceError α :=
  match Token.lex source with
  | .error e => .error (.lexical e)
  | .ok tokens => (A.run source.length A.initial tokens).mapError .grammatical

end Automaton

end NamedLambda
