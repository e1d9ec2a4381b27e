/-
NamedLambda/Proofs/Source/Parentheses.lean

The printer writes as few parentheses as possible.

Without one of its pairs a text may be read in many ways.  An operator may swallow the rest of its
spine, the atoms of an argument may join the spine around it, or the text may be refused.  What all
of these have in common is that the grammar counts: from a phrase with `n` opening parentheses it
derives no term that needs more than `n` pairs in a phrase of this kind (`Derives.pairs_le_count`).
The printer writes exactly the pairs that are needed (`count_tokens`), and how many these are does
not depend on bound names (`pairs_congr`).  So no text with fewer of them is read as the same term,
and a text with one pair less is such a text.

Main result: `toSource_parentheses_minimal`.
-/
import NamedLambda.Proofs.Source.Layout
import NamedLambda.Proofs.Source.RoundTrip
import NamedLambda.Proofs.Term.Beta

namespace NamedLambda

/-! ### The pairs that a term needs -/

namespace Term

/-- The number of pairs of parentheses in the canonical form of a term: one for each operator that
is an abstraction, and one for each argument that is not a variable. -/
def pairs : Term → Nat
  | var _ => 0
  | abs _ b => b.pairs
  | app f a => (f.pairs + if f.isAbs then 1 else 0) + (a.pairs + if a.isVar then 0 else 1)

end Term

/-- The number of pairs that a term needs in a phrase of the given kind. -/
def Category.pairs : Category → Term → Nat
  | term, t => t.pairs
  | application, t => t.pairs + if t.isAbs then 1 else 0
  | atom, t => t.pairs + if t.isVar then 0 else 1

theorem Category.pairs_term_le_application (t : Term) : term.pairs t ≤ application.pairs t :=
  Nat.le_add_right ..

theorem Category.pairs_application_le_atom (t : Term) : application.pairs t ≤ atom.pairs t := by
  cases t with
  | var x => exact Nat.le_refl 0
  | abs x b => exact Nat.le_refl (b.pairs + 1)
  | app f a => exact Nat.le_add_right ..

theorem Category.pairs_atom_le (t : Term) : atom.pairs t ≤ t.pairs + 1 := by
  cases t with
  | var x => exact Nat.le_succ 0
  | abs x b => exact Nat.le_refl _
  | app f a => exact Nat.le_refl _

theorem Term.count_grouped (ts : List Token) :
    (grouped ts).count .openParen = ts.count .openParen + 1 := by
  simp [grouped]

/-- **No phrase is read as a term that needs more parentheses than the phrase has.** -/
theorem Derives.pairs_le_count {c : Category} {ts : List Token} {t : Term} (h : Derives c ts t) :
    c.pairs t ≤ ts.count .openParen := by
  induction h with
  | @abstraction x ts b _ ih => simpa [Category.pairs, Term.pairs] using ih
  | application _ ih => exact Nat.le_trans (Category.pairs_term_le_application _) ih
  | single _ ih => exact Nat.le_trans (Category.pairs_application_le_atom _) ih
  | @juxtaposed ts us f a _ _ ihf iha =>
      have hparts : Category.application.pairs f + Category.atom.pairs a ≤
          ts.count .openParen + us.count .openParen := Nat.add_le_add ihf iha
      rw [List.count_append]
      exact hparts
  | ident x => exact Nat.zero_le _
  | @group ts t _ ih =>
      show _ ≤ (Term.grouped ts).count .openParen
      rw [Term.count_grouped]
      exact Nat.le_trans (Category.pairs_atom_le t) (Nat.succ_le_succ ih)

namespace Term

/-! ### The pairs that are printed -/

/-- The printer writes the pairs that are needed and no others. -/
theorem count_tokens (t : Term) : t.tokens.count .openParen = t.pairs := by
  induction t with
  | var x => simp [tokens, pairs]
  | abs x b ih => simp [tokens, pairs, ih]
  | app f a ihf iha =>
      rw [tokens, pairs, List.count_append]
      congr 1
      · split
        · rw [count_grouped, ihf]
        · rw [ihf, Nat.add_zero]
      · split
        · rw [iha, Nat.add_zero]
        · rw [count_grouped, iha]

end Term

/-! ### Pairs without names -/

namespace Nameless

/-- Whether a term is a variable. -/
def isVar : Nameless → Bool
  | bound _ => true
  | free _ => true
  | _ => false

/-- The number of operators that are abstractions and of arguments that are not variables. -/
def pairs : Nameless → Nat
  | bound _ => 0
  | free _ => 0
  | abs b => b.pairs
  | app f a => (f.pairs + if f.isAbs then 1 else 0) + (a.pairs + if a.isVar then 0 else 1)

end Nameless

namespace Term

theorem isAbs_denote (t : Term) {ρ : Valuation} (hρ : ρ.Atomic) :
    (t.denote ρ).isAbs = t.isAbs := by
  cases t with
  | var x => exact hρ.apply_eq (fun _ => rfl) (fun _ => rfl) x
  | abs x b => rfl
  | app f a => rfl

theorem isVar_denote (t : Term) {ρ : Valuation} (hρ : ρ.Atomic) :
    (t.denote ρ).isVar = t.isVar := by
  cases t with
  | var x => exact hρ.apply_eq (fun _ => rfl) (fun _ => rfl) x
  | abs x b => rfl
  | app f a => rfl

theorem pairs_denote (t : Term) {ρ : Valuation} (hρ : ρ.Atomic) :
    (t.denote ρ).pairs = t.pairs := by
  induction t generalizing ρ with
  | var x => exact hρ.apply_eq (fun _ => rfl) (fun _ => rfl) x
  | abs x b ih => exact ih (hρ.bind x)
  | app f a ihf iha =>
      rw [denote, Nameless.pairs, pairs, ihf hρ, iha hρ, isAbs_denote f hρ, isVar_denote a hρ]

/-- The names of bound variables have no part in it. -/
theorem pairs_congr {t u : Term} (h : t.alphaEq u) : t.pairs = u.pairs := by
  rw [← pairs_denote t Valuation.atomic_free, ← pairs_denote u Valuation.atomic_free,
    ← nameless_eq_denote, ← nameless_eq_denote, alphaEq_iff.1 h]

end Term

/-! ### Parentheses in a text -/

theorem Token.eq_openParen_iff_of_ofChar? {c : Char} {t : Token} (h : ofChar? c = some t) :
    t = .openParen ↔ c = '(' := by
  unfold ofChar? at h
  split at h <;> cases h <;> simp_all

/-- The opening parentheses of a text are tokens, and nothing else is such a token. -/
theorem Token.Spells.count_openParen {cs : List Char} {ts : List Token} (h : Spells cs ts) :
    ts.count .openParen = cs.count '(' := by
  induction h with
  | nil => rfl
  | @blank c cs ts hc _ ih =>
      have hne : c ≠ '(' := by
        rintro rfl
        cases hc
      rw [List.count_cons_of_ne hne, ih]
  | @sign c t cs ts hc _ ih =>
      rw [List.count_cons, List.count_cons, ih]
      simp only [beq_iff_eq, eq_openParen_iff_of_ofChar? hc]
  | @ident x cs ts hx _ _ ih =>
      have hnone : '(' ∉ x.toList := by
        intro h
        cases ofChar?_of_continue (Name.isIdentifierContinue_of_mem hx h)
      rw [List.count_append, List.count_eq_zero_of_not_mem hnone, Nat.zero_add, ← ih]
      exact List.count_cons_of_ne (by simp)

namespace Term

theorem count_toSource {t : Term} (ht : t.Writable) : t.toSource.toList.count '(' = t.pairs := by
  have hspells : Token.Spells t.toSource.toList t.tokens := spells_render rfl rfl ht
  rw [← hspells.count_openParen, count_tokens]

/-- A text that is read as a term has the pairs that the term needs. -/
theorem pairs_le_of_parseTerm {source : String} {t : Term} (h : parseTerm source = .ok t) :
    t.pairs ≤ source.toList.count '(' := by
  obtain ⟨ls, hls, hderives⟩ := parseTerm_eq_ok_iff.1 h
  rw [← (Token.spells_of_lex hls).count_openParen]
  exact hderives.pairs_le_count

/-- **The parentheses of the canonical form are minimal.**  No text that is read as the same term,
up to bound names, has fewer of them.  So when an opening parenthesis and a closing one after it are
taken out of the canonical form, be they a matching pair or not, the text is refused or read as
another term. -/
theorem toSource_parentheses_minimal {t : Term} (ht : t.Writable) :
    (∀ source u, parseTerm source = .ok u → u.alphaEq t →
        t.toSource.toList.count '(' ≤ source.toList.count '(') ∧
      ∀ before inside after,
        t.toSource.toList = before ++ '(' :: (inside ++ ')' :: after) →
          ∀ u, parseTerm (String.ofList (before ++ inside ++ after)) = .ok u → ¬ u.alphaEq t := by
  have hminimal : ∀ source u, parseTerm source = .ok u → u.alphaEq t →
      t.toSource.toList.count '(' ≤ source.toList.count '(' := by
    intro source u hu hut
    rw [count_toSource ht, ← pairs_congr hut]
    exact pairs_le_of_parseTerm hu
  refine ⟨hminimal, ?_⟩
  intro before inside after htext u hu hut
  have hfewer : (before ++ inside ++ after).count '(' + 1 = t.toSource.toList.count '(' := by
    have hclose : (')' :: after).count '(' = after.count '(' :=
      List.count_cons_of_ne (by decide)
    rw [htext]
    simp only [List.count_append, List.count_cons_self, hclose]
    omega
  have hle := hminimal _ u hu hut
  rw [String.toList_ofList] at hle
  omega

/-- Without the first pair the abstraction takes in the whole spine. -/
theorem toSource_parentheses_minimal_operator :
    let t := app (app (abs "x" (var "x")) (var "y")) (abs "z" (var "z"))
    let u := abs "x" (app (app (var "x") (var "y")) (abs "z" (var "z")))
    t.Writable ∧ t.toSource = "(\\x.x) y (\\z.z)" ∧
      parseTerm "\\x.x y (\\z.z)" = .ok u ∧ ¬ u.alphaEq t := by
  intro t u
  have ht : t.Writable := by
    simp only [t, Writable]
    decide +kernel
  have htext : t.toSource.toList =
      [] ++ '(' :: (['\\', 'x', '.', 'x'] ++ ')' :: " y (\\z.z)".toList) := by decide +kernel
  have hparse : parseTerm "\\x.x y (\\z.z)" = .ok u := by cbv
  obtain ⟨-, hpair⟩ := toSource_parentheses_minimal ht
  exact ⟨ht, by decide +kernel, hparse, hpair [] _ _ htext u hparse⟩

end Term

end NamedLambda
