/-
NamedLambda/Proofs/Source/BlankExchange.lean

It makes no difference to a source text which of the blanks it has.

A map on characters that changes blanks only, and these into blanks, keeps every test that a reader
makes: a blank is passed over whichever it is, and all other characters stay (`ExchangesBlanks`).
So the changed text has the same tokens at the same places, or the same error (`lex_map`), and
whatever is read from its tokens is read as before.  Trimming takes away blanks of any kind, too, so
it may come before the change or after it (`trim_map`).

Main facts: `parseTerm_map`, `parseCommands_map` and `readBudget_map`.
-/
import Mathlib.Data.List.TakeWhile
import NamedLambda.Proofs.Source.Lexer
import NamedLambda.Session.BudgetText
import NamedLambda.Source.CommandReader

namespace NamedLambda

theorem not_continue_of_blank {c : Char} (h : isBlank c = true) :
    isIdentifierContinue c = false :=
  Token.continues_of_blank h []

theorem not_isDigit_of_blank {c : Char} (h : isBlank c = true) : c.isDigit = false := by
  rw [← Bool.not_eq_true]
  intro hdigit
  have hcontinue := isIdentifierContinue_of_isDigit hdigit
  rw [not_continue_of_blank h] at hcontinue
  cases hcontinue

/-- The map `g` puts blanks for blanks and changes nothing else. -/
structure ExchangesBlanks (g : Char → Char) : Prop where
  blank : ∀ c, isBlank c = true → isBlank (g c) = true
  other : ∀ c, isBlank c = false → g c = c

namespace ExchangesBlanks

variable {g : Char → Char} (hg : ExchangesBlanks g)

include hg

/-! ### Characters -/

theorem isBlank_map (c : Char) : isBlank (g c) = isBlank c := by
  rcases hc : isBlank c with - | -
  · rw [hg.other c hc, hc]
  · exact hg.blank c hc

theorem isIdentifierContinue_map (c : Char) :
    isIdentifierContinue (g c) = isIdentifierContinue c := by
  rcases hc : isBlank c with - | -
  · rw [hg.other c hc]
  · rw [not_continue_of_blank hc, not_continue_of_blank (hg.blank c hc)]

theorem dropWhile_isBlank_map (cs : List Char) :
    (cs.map g).dropWhile isBlank = (cs.dropWhile isBlank).map g := by
  have hcomp : isBlank ∘ g = isBlank := funext hg.isBlank_map
  rw [List.dropWhile_map, hcomp]

theorem isIdentifierContinue_comp : isIdentifierContinue ∘ g = isIdentifierContinue :=
  funext hg.isIdentifierContinue_map

theorem dropWhile_identifier_map (cs : List Char) :
    (cs.map g).dropWhile isIdentifierContinue = (cs.dropWhile isIdentifierContinue).map g := by
  rw [List.dropWhile_map, hg.isIdentifierContinue_comp]

/-- The characters of an identifier stay. -/
theorem takeWhile_identifier_map (cs : List Char) :
    (cs.map g).takeWhile isIdentifierContinue = cs.takeWhile isIdentifierContinue := by
  have hstay : ∀ c ∈ cs.takeWhile isIdentifierContinue, g c = id c := fun c hc =>
    hg.other c (not_isBlank_of_continue (List.mem_takeWhile_imp hc))
  rw [List.takeWhile_map, hg.isIdentifierContinue_comp, List.map_congr_left hstay, List.map_id]

/-! ### Tokens -/

theorem lexFrom_map (mayEnd : Bool) (pos : Nat) (cs : List Char) :
    Token.lexFrom mayEnd pos (cs.map g) = Token.lexFrom mayEnd pos cs := by
  fun_induction Token.lexFrom mayEnd pos cs with
  | case1 pos => rw [List.map_nil, Token.lexFrom, if_pos rfl]
  | case2 mayEnd pos hend => rw [List.map_nil, Token.lexFrom, if_neg hend]
  | case3 mayEnd pos c cs hc ih =>
      rw [List.map_cons, Token.lexFrom, if_pos (hg.blank c hc), ih]
  | case4 mayEnd pos c cs hc t ht ih =>
      rw [List.map_cons, hg.other c (by simpa using hc), Token.lexFrom, if_neg hc, ht]
      simp only [ih]
  | case5 mayEnd pos c cs hc ht hstart tail stop ih =>
      rw [List.map_cons, hg.other c (by simpa using hc), Token.lexFrom, if_neg hc, ht]
      simp only [if_pos hstart, hg.takeWhile_identifier_map, hg.dropWhile_identifier_map]
      rw [ih]
  | case6 mayEnd pos c cs hc ht hstart =>
      rw [List.map_cons, hg.other c (by simpa using hc), Token.lexFrom, if_neg hc, ht]
      simp only [if_neg hstart]

/-- The changed text has the same tokens at the same places, or the same error. -/
theorem lex_map (s : String) : Token.lex (s.map g) = Token.lex s := by
  have hopens : Token.opensBlank (s.toList.map g) = Token.opensBlank s.toList := by
    rcases s.toList with - | ⟨c, cs⟩
    · rfl
    · exact hg.isBlank_map c
  rw [Token.lex, Token.lex, String.toList_map, hopens, hg.lexFrom_map]

/-! ### What is read from tokens -/

theorem read_map {σ α : Type} (A : Automaton (Located Token) σ α) (s : String) :
    A.read (s.map g) = A.read s := by
  rw [Automaton.read, Automaton.read, hg.lex_map, String.length_map]

theorem parseTerm_map (s : String) : parseTerm (s.map g) = parseTerm s :=
  hg.read_map (TermReader.automaton.comap Located.value) s

theorem parseCommands_map (s : String) : parseCommands (s.map g) = parseCommands s :=
  hg.read_map CommandReader.automaton s

/-! ### Trimmed texts -/

theorem trim_map (s : String) : trim (s.map g) = (trim s).map g := by
  rw [← String.toList_inj]
  simp only [trim, trimEnd, trimStart, String.toList_map, String.toList_ofList,
    hg.dropWhile_isBlank_map, ← List.map_reverse]

theorem readDigits_map (n : Nat) (cs : List Char) : readDigits n (cs.map g) = readDigits n cs := by
  induction cs generalizing n with
  | nil => rfl
  | cons c cs ih =>
      rw [List.map_cons, readDigits, readDigits]
      rcases hc : isBlank c with - | -
      · rw [hg.other c hc]
        simp only [ih]
      · have hdigit : c.isDigit = false := not_isDigit_of_blank hc
        have hdigit' : (g c).isDigit = false := not_isDigit_of_blank (hg.blank c hc)
        simp only [hdigit, hdigit', Bool.false_eq_true, if_false]

/-- Only what was no blank before can be a given character that is none. -/
theorem map_eq_iff {c d : Char} (hd : isBlank d = false) : g c = d ↔ c = d := by
  rcases hc : isBlank c with - | -
  · rw [hg.other c hc]
  · have hc' := hg.blank c hc
    constructor
    · rintro rfl
      rw [hd] at hc'
      cases hc'
    · rintro rfl
      rw [hd] at hc
      cases hc

theorem readBudget_map (s : String) : readBudget (s.map g) = readBudget s := by
  by_cases hsigned : ∃ c cs, s.toList = '+' :: c :: cs
  · obtain ⟨c, cs, hs⟩ := hsigned
    have hplus : g '+' = '+' := hg.other '+' (by decide)
    have hs' : (s.map g).toList = '+' :: (c :: cs).map g := by
      rw [String.toList_map, hs, List.map_cons, hplus]
    rw [readBudget, readBudget, hs, hs']
    exact hg.readDigits_map 0 (c :: cs)
  · have hunsigned : ∀ c cs, s.toList = '+' :: c :: cs → False := fun c cs h =>
      hsigned ⟨c, cs, h⟩
    have hunsigned' : ∀ c cs, (s.map g).toList = '+' :: c :: cs → False := by
      intro c cs h
      rw [String.toList_map] at h
      obtain ⟨a, l, hs, ha, hl⟩ := List.map_eq_cons_iff.1 h
      obtain ⟨b, l', rfl, -, -⟩ := List.map_eq_cons_iff.1 hl
      exact hunsigned b l' (((hg.map_eq_iff (by decide)).1 ha) ▸ hs)
    rw [readBudget, readBudget]
    split
    · next c cs h => exact (hunsigned' c cs h).elim
    · rw [String.toList_map, hg.readDigits_map]

end ExchangesBlanks

end NamedLambda
