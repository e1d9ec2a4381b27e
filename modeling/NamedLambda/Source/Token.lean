/-
NamedLambda/Source/Token.lean

The tokens of source text, the names that can be written there, and places in it.

An identifier is an alphabetic character and then any number of alphabetic characters, numbers and
underscores.  The letter λ is reserved for abstractions and stands in no identifier.
-/
import NamedLambda.Name.Set
import NamedLambda.Text.Alphabetic
import NamedLambda.Text.Classes

namespace NamedLambda

/-! ### Identifiers -/

/-- Whether an identifier can begin with `c`. -/
def isIdentifierStart (c : Char) : Bool :=
  isAlphabetic c && c ≠ 'λ'

/-- Whether `c` can stand in an identifier after its first character. -/
def isIdentifierContinue (c : Char) : Bool :=
  (isAlphabetic c || isNumeric c || c == '_') && c ≠ 'λ'

/-- Whether a name can be written in source text. -/
def Name.isIdentifier (x : Name) : Bool :=
  match x.toList with
  | [] => false
  | c :: cs => isIdentifierStart c && cs.all isIdentifierContinue

/-! ### Tokens -/

/-- A token. -/
inductive Token where
  | openParen
  | closeParen
  | lambda
  | dot
  | equals
  | semicolon
  | ident (x : Name)
deriving DecidableEq, Repr, Inhabited

namespace Token

/-- The text of a token.  Both signs for abstraction are shown as a backslash. -/
def text : Token → String
  | openParen => "("
  | closeParen => ")"
  | lambda => "\\"
  | dot => "."
  | equals => "="
  | semicolon => ";"
  | ident x => x

/-- The token that one character makes on its own. -/
def ofChar? : Char → Option Token
  | '(' => some openParen
  | ')' => some closeParen
  | '\\' => some lambda
  | 'λ' => some lambda
  | '.' => some dot
  | '=' => some equals
  | ';' => some semicolon
  | _ => none

end Token

/-! ### Places -/

/-- The characters of a source text from number `start` up to, and without, number `stop`. -/
structure Span where
  start : Nat
  stop : Nat
deriving DecidableEq, Repr, Inhabited

/-- A value with its place in the source. -/
structure Located (α : Type) where
  value : α
  span : Span
deriving DecidableEq, Repr, Inhabited

end NamedLambda
