/-
NamedLambda/Proofs/Source/RoundTrip.lean

A printed term is read back as it was.

The printer, the lexer and the reader are tied together by the tokens of a term.  The text of a term
spells them, whatever sign stands for abstraction (`spells_render`), and the grammar derives the
term from them (`derives_tokens`).
-/
import NamedLambda.Proofs.Source.Acceptance
import NamedLambda.Proofs.Source.Lexer
import NamedLambda.Term.Printer

namespace NamedLambda

namespace Term

open Token (Spells)

/-! ### The tokens of a term -/

/-- Tokens in parentheses. -/
def grouped (ts : List Token) : List Token :=
  .openParen :: (ts ++ [.closeParen])

/-- The tokens of the canonical form of a term. -/
def tokens : Term → List Token
  | var x => [.ident x]
  | abs x b => .lambda :: .ident x :: .dot :: b.tokens
  | app f a =>
      (if f.isAbs then grouped f.tokens else f.tokens) ++
        (if a.isVar then a.tokens else grouped a.tokens)

/-- A term is derived from its tokens.  If it is no abstraction it can be applied as it stands, and
if it is a variable it can be an argument as well. -/
theorem derives_tokens (t : Term) :
    Derives .term t.tokens t ∧ (t.isAbs = false → Derives .application t.tokens t) := by
  induction t with
  | var x =>
      have h : Derives .application [.ident x] (var x) := .single (.ident x)
      exact ⟨.application h, fun _ => h⟩
  | abs x b ih => exact ⟨.abstraction ih.1, fun h => by cases h⟩
  | app f a ihf iha =>
      have hf : Derives .application (if f.isAbs then grouped f.tokens else f.tokens) f := by
        split
        · exact .single (.group ihf.1)
        · next hf => exact ihf.2 (Bool.not_eq_true _ ▸ hf)
      -- Every argument but a variable is put in parentheses, which make an atom of any term.
      have ha : Derives .atom (if a.isVar then a.tokens else grouped a.tokens) a := by
        cases a with
        | var x => exact .ident x
        | abs x b => exact .group iha.1
        | app g c => exact .group iha.1
      have h : Derives .application (app f a).tokens (app f a) := .juxtaposed hf ha
      exact ⟨.application h, fun _ => h⟩

/-! ### The text of a term -/

/-- All names of a term, of variables and of binders, can be written. -/
def Writable : Term → Prop
  | var x => x.isIdentifier
  | abs x b => x.isIdentifier ∧ b.Writable
  | app f a => f.Writable ∧ a.Writable

theorem spells_parenthesized {s : String} {ts : List Token} (h : Spells s.toList ts) :
    Spells (parenthesized s).toList (grouped ts) := by
  have hclose : Spells [')'] [Token.closeParen] := .sign rfl .nil
  have h' : Spells (s.toList ++ [')']) (ts ++ [.closeParen]) :=
    h.append (Token.continues_of_sign rfl []) hclose
  have htext : (parenthesized s).toList = '(' :: (s.toList ++ [')']) := by
    simp [parenthesized]
  rw [htext]
  exact .sign rfl h'

/-- The text of a term spells its tokens. -/
theorem spells_render {lambda : String} {c : Char} (hlambda : lambda.toList = [c])
    (hc : Token.ofChar? c = some .lambda) {t : Term} (ht : t.Writable) :
    Spells (t.render lambda).toList t.tokens := by
  induction t with
  | var x => exact .ident_self ht
  | abs x b ih =>
      have hdot : Spells ('.' :: (b.render lambda).toList) (.dot :: b.tokens) :=
        .sign rfl (ih ht.2)
      have hident : Spells (x.toList ++ '.' :: (b.render lambda).toList)
          (.ident x :: .dot :: b.tokens) :=
        .ident ht.1 (Token.continues_of_sign rfl _) hdot
      have htext : ((abs x b).render lambda).toList =
          c :: (x.toList ++ '.' :: (b.render lambda).toList) := by
        simp [render, hlambda]
      rw [htext]
      exact .sign hc hident
  | app f a ihf iha =>
      have hf : Spells
          (if f.isAbs then parenthesized (f.render lambda) else f.render lambda).toList
          (if f.isAbs then grouped f.tokens else f.tokens) := by
        split
        · exact spells_parenthesized (ihf ht.1)
        · exact ihf ht.1
      have ha : Spells
          (if a.isVar then a.render lambda else parenthesized (a.render lambda)).toList
          (if a.isVar then a.tokens else grouped a.tokens) := by
        split
        · exact iha ht.2
        · exact spells_parenthesized (iha ht.2)
      have hblank : isBlank ' ' = true := by decide
      have htext : ((app f a).render lambda).toList =
          (if f.isAbs then parenthesized (f.render lambda) else f.render lambda).toList ++
            ' ' ::
              (if a.isVar then a.render lambda else parenthesized (a.render lambda)).toList := by
        simp [render]
      rw [htext]
      exact hf.append (Token.continues_of_blank hblank _) (.blank hblank ha)

/-! ### Reading it back -/

/-- The reader follows the lexer: what is spelled and derived is the result of parsing. -/
theorem parseTerm_of_spells {source : String} {ts : List Token} {t : Term}
    (hs : Spells source.toList ts) (hd : Derives .term ts t) : parseTerm source = .ok t := by
  obtain ⟨ls, hls, rfl⟩ := Token.lex_of_spells hs hd.ne_nil
  exact parseTerm_eq_ok_iff.2 ⟨ls, hls, hd⟩

/-- **Printing a term and reading the text gives the term again**, in both forms of the text, if all
names of the term can be written. -/
theorem parseTerm_render {t : Term} (ht : t.Writable) :
    parseTerm t.toSource = .ok t ∧ parseTerm t.toGreek = .ok t := by
  obtain ⟨hd, -⟩ := derives_tokens t
  constructor
  · exact parseTerm_of_spells (spells_render rfl rfl ht) hd
  · exact parseTerm_of_spells (spells_render rfl rfl ht) hd

/-- Parentheses around an operator and two arguments, an abstraction in each of them. -/
theorem parseTerm_render_nested :
    let t := app (app (abs "x" (var "x")) (abs "y_1" (app (var "f") (var "y_1"))))
      (app (var "é2") (abs "z" (var "z")))
    t.Writable ∧ parseTerm t.toSource = .ok t ∧ parseTerm t.toGreek = .ok t := by
  intro t
  have ht : t.Writable := by
    simp only [t, Writable]
    decide +kernel
  exact ⟨ht, parseTerm_render ht⟩

end Term

end NamedLambda
