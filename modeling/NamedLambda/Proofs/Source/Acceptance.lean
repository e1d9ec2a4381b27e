/-
NamedLambda/Proofs/Source/Acceptance.lean

What texts are accepted: those whose tokens the grammar derives a term, or a list of commands, from.
-/
import Mathlib.Data.List.Basic
import NamedLambda.Proofs.Source.CommandReader

namespace NamedLambda

theorem parseTerm_eq_ok_iff {source : String} {t : Term} :
    parseTerm source = .ok t ↔
      ∃ ls, Token.lex source = .ok ls ∧ Derives .term (ls.map Located.value) t := by
  simp only [parseTerm, Automaton.read_eq_ok_iff, Automaton.accepts_comap_iff,
    TermReader.accepts_iff_derives]

theorem parseCommands_eq_ok_iff {source : String} {cs : List Command} :
    parseCommands source = .ok cs ↔
      ∃ ls, Token.lex source = .ok ls ∧ DerivesCommands (ls.map Located.value) cs := by
  simp only [parseCommands, Automaton.read_eq_ok_iff, CommandReader.accepts_iff_derives]

/-- **Exactly what the grammar derives is accepted.**  A text that is cut into the tokens `ls` is
parsed to a term if and only if the grammar derives that term from them, and to commands if and only
if it derives these.  No list of tokens stands for two terms or for two lists of commands. -/
theorem parse_eq_ok_iff_derives {source : String} {ls : List (Located Token)}
    (h : Token.lex source = .ok ls) :
    (∀ t, parseTerm source = .ok t ↔ Derives .term (ls.map Located.value) t) ∧
      (∀ cs, parseCommands source = .ok cs ↔ DerivesCommands (ls.map Located.value) cs) ∧
      ∀ ts : List Token,
        (∀ t u, Derives .term ts t → Derives .term ts u → t = u) ∧
          ∀ cs ds, DerivesCommands ts cs → DerivesCommands ts ds → cs = ds := by
  refine ⟨?_, ?_, ?_⟩
  · intro t
    rw [parseTerm, Automaton.read_eq_ok_iff_accepts h, Automaton.accepts_comap_iff,
      TermReader.accepts_iff_derives]
  · intro cs
    rw [parseCommands, Automaton.read_eq_ok_iff_accepts h, CommandReader.accepts_iff_derives]
  · intro ts
    exact ⟨fun _ _ => Derives.unique, fun _ _ => DerivesCommands.unique⟩

/-- A definition, a term that uses it, and a last semicolon are two commands and no term. -/
theorem parse_definition_and_use :
    let source := "k = \\x.x; k y;"
    let ls : List (Located Token) :=
      [⟨.ident "k", ⟨0, 1⟩⟩, ⟨.equals, ⟨2, 3⟩⟩, ⟨.lambda, ⟨4, 5⟩⟩, ⟨.ident "x", ⟨5, 6⟩⟩,
        ⟨.dot, ⟨6, 7⟩⟩, ⟨.ident "x", ⟨7, 8⟩⟩, ⟨.semicolon, ⟨8, 9⟩⟩, ⟨.ident "k", ⟨10, 11⟩⟩,
        ⟨.ident "y", ⟨12, 13⟩⟩, ⟨.semicolon, ⟨13, 14⟩⟩]
    Token.lex source = .ok ls ∧
      DerivesCommands (ls.map Located.value)
        [.define "k" (.abs "x" (.var "x")), .evaluate (.app (.var "k") (.var "y"))] ∧
      ∀ t, ¬ Derives .term (ls.map Located.value) t := by
  intro source ls
  have hlex : Token.lex source = .ok ls := by decide +kernel
  have hparse : parseCommands source =
      .ok [.define "k" (.abs "x" (.var "x")), .evaluate (.app (.var "k") (.var "y"))] :=
    (Automaton.read_eq_ok_iff_accepts hlex).2 ⟨_, rfl, rfl⟩
  obtain ⟨hterm, hcommands, -⟩ := parse_eq_ok_iff_derives hlex
  refine ⟨hlex, (hcommands _).1 hparse, ?_⟩
  intro t ht
  -- The reader of terms stops at the equals sign.
  obtain ⟨r, hfeed, -⟩ := (Automaton.read_eq_ok_iff_accepts hlex).1 ((hterm t).2 ht)
  cases hfeed

end NamedLambda
