/-
NamedLambda/Proofs/Church/Encoding.lean

Encodings of values by terms.

The nameless form of a numeral or a boolean is known, and the decoders give a value for that form
only.  This, and that the terms of values are normal, is all that is needed of the encodings later
on; `Encoding` keeps it together with the encoder and the decoder, so that what is proved of
evaluation holds of numbers and truth values alike.

Main facts: `Nameless.decodeNumeral_eq_some_iff` and `Nameless.decodeBoolean_eq_some_iff`.
-/
import NamedLambda.Proofs.Church.Decoding
import NamedLambda.Proofs.Term.Beta

namespace NamedLambda

/-! ### Encodings without names -/

namespace Nameless

/-- `f` applied `n` times to `x`. -/
def iterate (f x : Nameless) : Nat → Nameless
  | 0 => x
  | n + 1 => app f (iterate f x n)

/-- The nameless form of a numeral. -/
def numeral (n : Nat) : Nameless :=
  abs (abs (iterate (bound 1) (bound 0) n))

/-- The nameless form of a boolean. -/
def boolean (p : Bool) : Nameless :=
  abs (abs (bound (if p then 1 else 0)))

theorem countApplications_eq_some_iff {t : Nameless} {n : Nat} :
    t.countApplications = some n ↔ t = iterate (bound 1) (bound 0) n := by
  fun_induction countApplications t generalizing n with
  | case1 => cases n <;> simp [iterate]
  | case2 a ih =>
      cases n with
      | zero => simp [iterate]
      | succ n => simp [iterate, ih]
  | case3 t h₀ h₁ =>
      -- No iterate of index 1 has another shape.
      cases n with
      | zero => simpa [iterate] using h₀
      | succ n => simpa [iterate] using h₁ _

/-- A nameless term is decoded to a number exactly if it is the numeral of it. -/
theorem decodeNumeral_eq_some_iff {t : Nameless} {n : Nat} :
    t.decodeNumeral = some n ↔ t = numeral n := by
  unfold decodeNumeral
  split
  · next body => simp [countApplications_eq_some_iff, numeral]
  · next h =>
      simp only [reduceCtorEq, false_iff]
      exact h _

/-- A nameless term is decoded to a truth value exactly if it is the boolean of it. -/
theorem decodeBoolean_eq_some_iff {t : Nameless} {p : Bool} :
    t.decodeBoolean = some p ↔ t = boolean p := by
  unfold decodeBoolean
  split
  · cases p <;> simp [boolean]
  · cases p <;> simp [boolean]
  · next h₀ h₁ =>
      simp only [reduceCtorEq, false_iff]
      cases p with
      | false => exact h₀
      | true => exact h₁

theorem normal_iterate (i : Nat) {x : Nameless} (hx : x.Normal) (n : Nat) :
    (iterate (bound i) x n).Normal := by
  induction n with
  | zero => exact hx
  | succ n ih => exact normal_app_iff.2 ⟨rfl, normal_bound i, ih⟩

theorem normal_numeral (n : Nat) : (numeral n).Normal :=
  normal_abs_iff.2 (normal_abs_iff.2 (normal_iterate 1 (normal_bound 0) n))

theorem normal_boolean (p : Bool) : (boolean p).Normal :=
  normal_abs_iff.2 (normal_abs_iff.2 (normal_bound _))

end Nameless

namespace Church

open Term
open Nameless (bound free)

/-! ### Nameless forms -/

theorem denote_iterate (f x : Term) (ρ : Valuation) (n : Nat) :
    (iterate f x n).denote ρ = Nameless.iterate (f.denote ρ) (x.denote ρ) n := by
  induction n with
  | zero => rfl
  | succ n ih => rw [iterate, denote, ih, Nameless.iterate]

theorem nameless_numeral (n : Nat) : (numeral n).nameless = Nameless.numeral n := by
  have hbody := denote_iterate (var "f") (var "x") (parameters "f" "x") n
  rw [nameless_eq_denote]
  exact congrArg (fun b => Nameless.abs (Nameless.abs b)) hbody

theorem nameless_boolean (p : Bool) : (boolean p).nameless = Nameless.boolean p := by
  cases p <;> rfl

@[simp] theorem shift_numeral (n : Nat) : (Nameless.numeral n).shift = Nameless.numeral n := by
  rw [← nameless_numeral]
  exact (closedUnder_nameless _).rename_of_closed Nat.succ

@[simp] theorem shift_boolean (p : Bool) : (Nameless.boolean p).shift = Nameless.boolean p := by
  rw [← nameless_boolean]
  exact (closedUnder_nameless _).rename_of_closed Nat.succ

/-! ### Combinators applied to terms -/

/-- The operand of a combinator may be reduced first. -/
theorem Combinator.reduces_unary (c : Combinator) {t : Term} {v r : Nameless}
    (ht : Nameless.Reduces t.nameless v) (h : Nameless.Reduces (.app c.term.nameless v) r) :
    Nameless.Reduces (c.unary t).nameless r :=
  (Nameless.Reduces.app .refl ht).trans h

/-- Both operands of a combinator may be reduced first. -/
theorem Combinator.reduces_binary (c : Combinator) {t u : Term} {v w r : Nameless}
    (ht : Nameless.Reduces t.nameless v) (hu : Nameless.Reduces u.nameless w)
    (h : Nameless.Reduces (.app (.app c.term.nameless v) w) r) :
    Nameless.Reduces (c.binary t u).nameless r :=
  ((Nameless.Reduces.app .refl ht).app hu).trans h

/-! ### Encodings -/

/-- An encoding of values by terms.  The term of a value is normal, and a term is decoded to a value
exactly if it is the term of that value, up to bound names. -/
structure Encoding (α : Type) where
  encode : α → Term
  decode : Term → Option α
  /-- What a normal form has to be to be decoded. -/
  kind : Kind
  normal_encode (a : α) : (encode a).Normal
  decode_eq_some_iff {t : Term} {a : α} : decode t = some a ↔ t.alphaEq (encode a)

/-- Numbers as numerals. -/
def numbers : Encoding Nat where
  encode := numeral
  decode := decodeNumeral
  kind := .number
  normal_encode n := by
    rw [← normal_nameless_iff, nameless_numeral]
    exact Nameless.normal_numeral n
  decode_eq_some_iff := by
    intro t n
    rw [← decodeNumeral_nameless, Nameless.decodeNumeral_eq_some_iff, alphaEq_iff,
      nameless_numeral]

/-- Truth values as booleans. -/
def truths : Encoding Bool where
  encode := boolean
  decode := decodeBoolean
  kind := .truth
  normal_encode p := by
    rw [← normal_nameless_iff, nameless_boolean]
    exact Nameless.normal_boolean p
  decode_eq_some_iff := by
    intro t p
    rw [← decodeBoolean_nameless, Nameless.decodeBoolean_eq_some_iff, alphaEq_iff,
      nameless_boolean]

/-- Terms that are equal up to bound names are decoded alike. -/
theorem Encoding.decode_congr {α : Type} (E : Encoding α) {t u : Term} (h : t.alphaEq u) :
    E.decode t = E.decode u := by
  have hn : t.nameless = u.nameless := alphaEq_iff.1 h
  ext a
  rw [E.decode_eq_some_iff, E.decode_eq_some_iff, alphaEq_iff, alphaEq_iff, hn]

end Church

end NamedLambda
