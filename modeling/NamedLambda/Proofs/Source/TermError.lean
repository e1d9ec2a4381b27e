/-
NamedLambda/Proofs/Source/TermError.lean

The report on a text that is no term.

The reader of terms stops at the first impossible token, so what it reports is about this token or,
if the text is only incomplete, about the end of the input.  The list of what could have stood there
instead is read off the state of the reader.  It is complete because a state shows all that matters
of the tokens before it: whether a parenthesis is open decides between a closing one and the end
(`close_isSome_iff`), and nothing else about what is open makes a difference.

Main result: `parseTerm_refusal_exact`.
-/
import NamedLambda.Proofs.Source.Acceptance
import NamedLambda.Proofs.Source.ViablePrefix

namespace NamedLambda

namespace TermReader

/-! ### What a reader expects -/

/-- What can follow is what the reader does not refuse. -/
theorem canFollow_iff_admits {ts : List Token} {r : TermReader}
    (h : automaton.feed (start []) ts = some r) (item : Option Token) :
    CanFollow IsTerm ts item ↔ automaton.Admits r item := by
  obtain ⟨ls, rfl⟩ := exists_located ts
  rw [← Automaton.feed_comap] at h
  cases item with
  | none => exact recognizes.canFollow_iff h none
  | some token => exact recognizes.canFollow_iff h (some ⟨token, default⟩)

/-- A parenthesis can be closed exactly if the term cannot end. -/
theorem close_isSome_iff (t : Term) (stack : List Frame) :
    (close t stack).isSome ↔ complete t stack = none := by
  induction stack generalizing t with
  | nil => simp [close, complete]
  | cons frame stack ih =>
      cases frame with
      | binder x => exact ih (.abs x t)
      | group operator => simp [close_group, complete]

/-- The expected items are those that are admitted, identifiers apart. -/
theorem mem_expected_iff (r : TermReader) (item : Option Token) :
    item ∈ r.expected [none] ↔
      (∀ x, item ≠ some (.ident x)) ∧ automaton.Admits r item := by
  cases r with
  | start _ | parameter _ | dot _ _ =>
      rcases item with - | token
      · simp [expected, Automaton.Admits, automaton, finish]
      · cases token <;> simp [expected, Automaton.Admits, automaton, step]
  | applying t stack =>
      have hclose := close_isSome_iff t stack
      rcases hc : complete t stack with - | u
      · rw [hc] at hclose
        rcases item with - | token
        · simp [expected, Automaton.Admits, automaton, finish, hc]
        · cases token <;> simp [expected, Automaton.Admits, automaton, step, hc, hclose]
      · rw [hc] at hclose
        rcases item with - | token
        · simp [expected, Automaton.Admits, automaton, finish, hc]
        · cases token <;> simp_all [expected, Automaton.Admits, automaton, step]

/-- The expected items are in the order of their texts, each of them once. -/
theorem pairwise_expected (r : TermReader) :
    (r.expected [none]).Pairwise fun i j =>
      Unexpected.itemText Token.text i < Unexpected.itemText Token.text j := by
  cases r with
  | start stack => rw [expected]; decide
  | parameter stack => exact .nil
  | dot x stack => rw [expected]; decide
  | applying t stack =>
      rw [expected]
      rcases complete t stack with - | u
      · show List.Pairwise _ [some Token.openParen, some Token.closeParen]
        decide
      · show List.Pairwise _ [some Token.openParen, none]
        decide

end TermReader

/-! ### The report -/

open Unexpected in
/-- **The report on a text that is no term is exact.**  It is about item number `k`, where token `k`
is the first impossible one, or the end of the input if all the tokens are the beginning of a term.
This item is named as the one that was found, and its place is the place of the report.  What was
expected is every item but identifiers that can follow the tokens before it, in the order of the
texts and each one once; where there is none it is an identifier. -/
theorem parseTerm_refusal_exact {source : String} {ls : List (Located Token)}
    (hlex : Token.lex source = .ok ls) (hreject : ∀ t, parseTerm source ≠ .ok t) :
    ∃ (k : Nat) (expected : List (Option Token)),
      let ts := ls.map Located.value
      let span := itemSpan source.length ls k
      let error := SourceError.grammatical ⟨ts[k]?, expected, span⟩
      FirstImpossible IsTerm ts k ∧
        (∀ item, item ∈ expected ↔
          (∀ x, item ≠ some (.ident x)) ∧ CanFollow IsTerm (ts.take k) item) ∧
        expected.Pairwise (fun i j => itemText Token.text i < itemText Token.text j) ∧
        parseTerm source = .error error ∧
        error.report.span = span ∧ error.report.position = span.start ∧
        error.report.message =
          "Unexpected " ++ itemText Token.text ts[k]? ++ ", expected " ++
            if expected = [] then "identifier"
            else ", ".intercalate (expected.map (itemText Token.text)) := by
  obtain ⟨e, hrun, hparse⟩ := Automaton.exists_error_of_rejected hlex hreject
  obtain ⟨k, r, hfirst, hfeed, rfl⟩ := TermReader.recognizes.exists_refusal hrun
  rw [Automaton.feed_comap, List.map_take] at hfeed
  refine ⟨k, r.expected [none], hfirst, ?_, r.pairwise_expected, hparse, rfl, rfl, ?_⟩
  · intro item
    rw [TermReader.mem_expected_iff, TermReader.canFollow_iff_admits hfeed]
  · simp only [SourceError.report, message, List.isEmpty_iff]

/-- An equals sign inside a parenthesis is the first impossible token.  A closing parenthesis can
stand in its place, for it closes the abstraction as well, but the text cannot end there. -/
theorem parseTerm_refusal_exact_in_parenthesis :
    let source := "(\\x.(y) = z"
    let ls : List (Located Token) :=
      [⟨.openParen, ⟨0, 1⟩⟩, ⟨.lambda, ⟨1, 2⟩⟩, ⟨.ident "x", ⟨2, 3⟩⟩, ⟨.dot, ⟨3, 4⟩⟩,
        ⟨.openParen, ⟨4, 5⟩⟩, ⟨.ident "y", ⟨5, 6⟩⟩, ⟨.closeParen, ⟨6, 7⟩⟩, ⟨.equals, ⟨8, 9⟩⟩,
        ⟨.ident "z", ⟨10, 11⟩⟩]
    let ts := ls.map Located.value
    Token.lex source = .ok ls ∧ (∀ t, parseTerm source ≠ .ok t) ∧
      ∃ k error, FirstImpossible IsTerm ts k ∧ ts[k]? = some .equals ∧
        CanFollow IsTerm (ts.take k) (some .closeParen) ∧ ¬ CanFollow IsTerm (ts.take k) none ∧
        parseTerm source = .error error ∧ error.report.position = 8 ∧
        error.report.message = "Unexpected =, expected (, )" := by
  intro source ls ts
  have hlex : Token.lex source = .ok ls := by decide +kernel
  have hparse : parseTerm source =
      .error (.grammatical ⟨some .equals, [some .openParen, some .closeParen], ⟨8, 9⟩⟩) := by
    rw [parseTerm, Automaton.read_of_lex hlex]
    rfl
  have hreject : ∀ t, parseTerm source ≠ .ok t := by
    intro t ht
    rw [hparse] at ht
    cases ht
  obtain ⟨k, expected, hfirst, hmem, -, herror, -, -, -⟩ := parseTerm_refusal_exact hlex hreject
  rw [hparse] at herror
  simp only [Except.error.injEq, SourceError.grammatical.injEq, Unexpected.mk.injEq] at herror
  obtain ⟨hfound, rfl, -⟩ := herror
  refine ⟨hlex, hreject, k, _, hfirst, hfound.symm, ((hmem _).1 (by simp)).2, ?_, hparse, rfl,
    by decide +kernel⟩
  intro hend
  have hnone := (hmem none).2 ⟨by simp, hend⟩
  simp at hnone

end NamedLambda
