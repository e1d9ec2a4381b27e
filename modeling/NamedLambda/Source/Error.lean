/-
NamedLambda/Source/Error.lean

What is wrong with a source text, and how it is reported.

An `Unexpected` item records what was met and what could have stood in its place; lexing meets
characters, and the readers of terms and commands meet tokens.  A `Report` is the message with its
place, which is all that a user sees.
-/
import NamedLambda.Source.Token

namespace NamedLambda

/-- An item that cannot stand where it was met.  Among items, `none` is the end of the input. -/
structure Unexpected (ι : Type) where
  /-- The item that was met. -/
  found : Option ι
  /-- The items that could have stood there, in the order of their texts; identifiers, of which
  there are too many, are left out. -/
  expected : List (Option ι)
  /-- The place of the item that was met. -/
  span : Span
deriving DecidableEq, Repr

namespace Unexpected

/-- The text of an item, given the texts of those that are not the end of the input. -/
def itemText {ι : Type} (text : ι → String) : Option ι → String
  | some i => text i
  | none => "end of the input"

/-- The message for an unexpected item.  Where nothing but an identifier can stand, it says so. -/
def message {ι : Type} (text : ι → String) (e : Unexpected ι) : String :=
  let expected :=
    if e.expected.isEmpty then "identifier"
    else ", ".intercalate (e.expected.map (itemText text))
  "Unexpected " ++ itemText text e.found ++ ", expected " ++ expected

end Unexpected

/-! ### Reports -/

/-- A message about a place in the source. -/
structure Report where
  message : String
  span : Span
deriving DecidableEq, Repr

namespace Report

/-- Where the trouble starts. -/
def position (r : Report) : Nat :=
  r.span.start

/-- The report on one line. -/
def display (r : Report) : String :=
  r.message ++ " at position " ++ r.position.repr

/-- The first of several reports; where there is none, nothing but failure is known. -/
def first : List Report → Report
  | r :: _ => r
  | [] => ⟨"Unparsable input", ⟨0, 0⟩⟩

end Report

/-! ### Errors -/

/-- Why a source text was refused. -/
inductive SourceError where
  /-- A character that begins no token, or a missing first token. -/
  | lexical (e : Unexpected Char)
  /-- A token that cannot follow those before it. -/
  | grammatical (e : Unexpected Token)
deriving DecidableEq, Repr

/-- The report on a refused source text. -/
def SourceError.report : SourceError → Report
  | lexical e => ⟨e.message Char.toString, e.span⟩
  | grammatical e => ⟨e.message Token.text, e.span⟩

end NamedLambda
