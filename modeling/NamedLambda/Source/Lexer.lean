/-
NamedLambda/Source/Lexer.lean

From characters to tokens.  Blanks separate tokens and are dropped; an identifier takes in every
character that can continue it.

A text that opens with a blank must hold a token: of blanks alone only the empty text is accepted.
For the same reason the end of the input is not among what was expected when no token follows the
opening blanks.
-/
import NamedLambda.Source.Error

namespace NamedLambda

namespace Token

/-- The signs that begin a token, the end of the input among them if the text may end. -/
def starts (mayEnd : Bool) : List (Option Char) :=
  ['(', ')', '.', ';', '=', '\\'].map some ++ (if mayEnd then [none] else []) ++ [some 'λ']

/-- The tokens of the characters from `pos` on.  `mayEnd` says whether the text may end before
another token. -/
def lexFrom (mayEnd : Bool) (pos : Nat) :
    List Char → Except (Unexpected Char) (List (Located Token))
  | [] =>
      if mayEnd then .ok []
      else .error ⟨none, starts mayEnd, ⟨pos, pos⟩⟩
  | c :: cs =>
      if isBlank c then lexFrom mayEnd (pos + 1) cs
      else match ofChar? c with
        | some t => (⟨t, ⟨pos, pos + 1⟩⟩ :: ·) <$> lexFrom true (pos + 1) cs
        | none =>
            if isIdentifierStart c then
              let tail := cs.takeWhile isIdentifierContinue
              let stop := pos + 1 + tail.length
              (⟨ident (String.ofList (c :: tail)), ⟨pos, stop⟩⟩ :: ·) <$>
                lexFrom true stop (cs.dropWhile isIdentifierContinue)
            else .error ⟨some c, starts mayEnd, ⟨pos, pos + 1⟩⟩
termination_by cs => cs.length
decreasing_by
  · simp
  · simp
  · have := (List.dropWhile_sublist isIdentifierContinue (l := cs)).length_le
    simp only [List.length_cons]; omega

/-- Whether a text opens with a blank. -/
def opensBlank : List Char → Bool
  | c :: _ => isBlank c
  | [] => false

/-- The tokens of a source text. -/
def lex (source : String) : Except (Unexpected Char) (List (Located Token)) :=
  lexFrom (!opensBlank source.toList) 0 source.toList

end Token

end NamedLambda
