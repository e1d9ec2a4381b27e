/-
NamedLambda/Source/TermReader.lean

Reading a term, token by token:

    term ::= λ ident . term | atom atom*          atom ::= ident | ( term )

A reader is a deterministic pushdown automaton.  A state is a place in one of these rules, which the
docstrings of `TermReader` mark with a bullet, and the stack holds the rules that are left open
around it: abstractions whose body is being read, and parentheses.  An abstraction is closed
together with the parenthesis around it or by the end of the term, so its body extends as far as it
can.  A token for which `step` has no rule begins no continuation of what was read, which is why the
first such token is the place of the error.

The rules leave a choice between two forms at a term and at an atom, and after an atom between
another one and what ends the application.  All the alternatives fail at the same token then, and
what they expected there is united (`TermReader.expected`).  An identifier has no text of its own
and is never listed.
-/
import NamedLambda.Source.Automaton
import NamedLambda.Term.Basic

namespace NamedLambda

/-- Something still open to the left of the token being read. -/
inductive Frame where
  /-- An abstraction whose body is being read. -/
  | binder (x : Name)
  /-- A parenthesis, which the given term, if there is one, is applied to. -/
  | group (operator : Option Term)
deriving DecidableEq, Repr

/-- Where a reader is, and what is open around it. -/
inductive TermReader where
  /-- Before a term, `• term`, and so before either form of it: the text begins here, or an opening
  parenthesis or the dot of an abstraction has been read. -/
  | start (stack : List Frame)
  /-- In an abstraction before its parameter, `λ • ident . term`. -/
  | parameter (stack : List Frame)
  /-- In an abstraction after its parameter `x`, `λ ident • . term`. -/
  | dot (x : Name) (stack : List Frame)
  /-- In an application after any of its atoms, `atom atom* •`.  What has been read of it is `t`. -/
  | applying (t : Term) (stack : List Frame)
deriving DecidableEq, Repr

namespace TermReader

/-- The reader after a closing parenthesis, given the term before it. -/
def close : Term → List Frame → Option TermReader
  | _, [] => none
  | t, .binder x :: stack => close (.abs x t) stack
  | t, .group none :: stack => some (applying t stack)
  | t, .group (some f) :: stack => some (applying (.app f t) stack)

/-- The reader after one more token. -/
def step : TermReader → Token → Option TermReader
  | start stack, .ident x => some (applying (.var x) stack)
  | start stack, .openParen => some (start (.group none :: stack))
  | start stack, .lambda => some (parameter stack)
  | parameter stack, .ident x => some (dot x stack)
  | dot x stack, .dot => some (start (.binder x :: stack))
  | applying f stack, .ident x => some (applying (.app f (.var x)) stack)
  | applying f stack, .openParen => some (start (.group (some f) :: stack))
  | applying t stack, .closeParen => close t stack
  | _, _ => none

/-- A term with the open abstractions closed around it; none if a parenthesis is open. -/
def complete : Term → List Frame → Option Term
  | t, [] => some t
  | t, .binder x :: stack => complete (.abs x t) stack
  | _, .group _ :: _ => none

/-- The whole term, if one has been read. -/
def finish : TermReader → Option Term
  | applying t stack => complete t stack
  | _ => none

/-- What can come next other than an identifier, where `follow` can come after a whole term. -/
def expected (follow : List (Option Token)) : TermReader → List (Option Token)
  -- The sign of an abstraction, or the first atom of an application.
  | start _ => [some .openParen, some .lambda]
  -- Nothing but an identifier.
  | parameter _ => []
  | dot _ _ => [some .dot]
  -- Another atom, or else what comes after the application: with all open abstractions it is the
  -- whole term or it fills the innermost parenthesis.
  | applying t stack =>
      match complete t stack with
      | some _ => some .openParen :: follow
      | none => [some .openParen, some .closeParen]

/-- The reader of terms, which asks for tokens and not for their places. -/
def automaton : Automaton Token TermReader Term where
  initial := start []
  step := step
  finish := finish
  unexpected found span r := ⟨found, r.expected [none], span⟩

end TermReader

/-- The term that a source text writes. -/
def parseTerm (source : String) : Except SourceError Term :=
  (TermReader.automaton.comap Located.value).read source

end NamedLambda
