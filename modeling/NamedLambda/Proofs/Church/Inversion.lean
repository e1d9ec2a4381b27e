/-
NamedLambda/Proofs/Church/Inversion.lean

The decoders invert the encoders, on terms of every kind.

Evaluation decodes normal forms only, but the decoders are asked nothing about that: whatever the
term, normal or not, closed or not, it is decoded to a value exactly if it is the term of that value
up to bound names, and is refused exactly if it is the term of no value at all
(`decoders_invert_encoders`).  Two values therefore never have the same term
(`Encoding.encode_alphaEq_iff`).

This says nothing about the names that the decoders compare.  What a numeral or a boolean looks like
with its names is told by `decodeNumeral_eq_some_iff_parameters` and
`decodeBoolean_eq_some_iff_parameters`: the names of the parameters are free, but if both are the
same the outer parameter cannot be spoken of, and only zero and false are left.
-/
import NamedLambda.Proofs.Church.Encoding

namespace NamedLambda

namespace Church

open Term

/-! ### Encodings read backwards -/

namespace Encoding

variable {α : Type} (E : Encoding α)

theorem decode_encode (a : α) : E.decode (E.encode a) = some a :=
  E.decode_eq_some_iff.2 (alphaEq_iff.2 rfl)

/-- A term is refused exactly if it is the term of no value. -/
theorem decode_eq_none_iff {t : Term} : E.decode t = none ↔ ∀ a, ¬ t.alphaEq (E.encode a) := by
  rw [Option.eq_none_iff_forall_ne_some]
  exact forall_congr' fun a => not_congr E.decode_eq_some_iff

/-- Different values have different terms. -/
theorem encode_alphaEq_iff {a b : α} : (E.encode a).alphaEq (E.encode b) ↔ a = b := by
  rw [← E.decode_eq_some_iff, E.decode_encode, Option.some.injEq]

end Encoding

/-! ### The names of the parameters -/

/-- What is counted is how often the outer parameter is applied to the inner one; parameters of the
same name leave nothing to count. -/
theorem countApplications_eq_some_iff {f x : Name} {t : Term} {n : Nat} :
    countApplications f x t = some n ↔ (f = x → n = 0) ∧ t = iterate (var f) (var x) n := by
  fun_induction countApplications f x t generalizing n with
  | case1 =>
      -- The inner parameter itself.
      cases n <;> simp [iterate]
  | case2 y hy =>
      cases n <;> simp [iterate, hy]
  | case3 g a hg ih =>
      obtain ⟨hne, rfl⟩ := hg
      cases n with
      | zero => simp [iterate]
      | succ n => simp [iterate, ih, hne]
  | case4 g a hg =>
      cases n with
      | zero => simp [iterate]
      | succ n =>
          simp only [reduceCtorEq, false_iff, iterate]
          rintro ⟨hne, ht⟩
          injection ht with hop
          injection hop with hname
          exact hg ⟨hne, hname⟩
  | case5 t hvar happ =>
      -- Neither a name nor a name applied to something, so no iterate.
      simp only [reduceCtorEq, false_iff]
      rintro ⟨-, ht⟩
      cases n with
      | zero => exact hvar x ht
      | succ n => exact happ f _ ht

/-- The terms that are decoded to a number are the iterates of one parameter on another, under any
two names. -/
theorem decodeNumeral_eq_some_iff_parameters {t : Term} {n : Nat} :
    decodeNumeral t = some n ↔
      ∃ f x, (f = x → n = 0) ∧ t = abs f (abs x (iterate (var f) (var x) n)) := by
  unfold decodeNumeral
  split
  · next f x body =>
      rw [countApplications_eq_some_iff]
      constructor
      · rintro ⟨hsame, rfl⟩
        exact ⟨f, x, hsame, rfl⟩
      · rintro ⟨f', x', hsame, ht⟩
        simp only [abs.injEq] at ht
        obtain ⟨rfl, rfl, rfl⟩ := ht
        exact ⟨hsame, rfl⟩
  · next h =>
      simp only [reduceCtorEq, false_iff]
      rintro ⟨f, x, -, rfl⟩
      exact h f x _ rfl

/-- The inner parameter hides the outer one: this is no numeral. -/
example : decodeNumeral (abs "x" (abs "x" (app (var "x") (var "x")))) = none := rfl

/-- The terms that are decoded to a truth value are the choices of one of two parameters, under any
two names. -/
theorem decodeBoolean_eq_some_iff_parameters {t : Term} {p : Bool} :
    decodeBoolean t = some p ↔
      ∃ x y, (x = y → p = false) ∧ t = abs x (abs y (var (if p then x else y))) := by
  unfold decodeBoolean
  split
  · next x y v =>
      trans (x = y → p = false) ∧ v = if p then x else y
      · -- The inner parameter is tried first, so that of two equal ones it is the one meant.
        cases p <;> grind
      · constructor
        · rintro ⟨hsame, rfl⟩
          exact ⟨x, y, hsame, rfl⟩
        · rintro ⟨x', y', hsame, ht⟩
          simp only [abs.injEq, var.injEq] at ht
          obtain ⟨rfl, rfl, rfl⟩ := ht
          exact ⟨hsame, rfl⟩
  · next h =>
      simp only [reduceCtorEq, false_iff]
      rintro ⟨x, y, -, rfl⟩
      exact h x y _ rfl

/-! ### Main result -/

/-- A term is decoded to a number exactly if it is the numeral of that number, up to bound names,
and refused if it is no numeral; and so for truth values.  Numerals and booleans themselves are
decoded to what they encode. -/
theorem decoders_invert_encoders (t : Term) :
    ((∀ n, decodeNumeral t = some n ↔ t.alphaEq (numeral n)) ∧
        (decodeNumeral t = none ↔ ∀ n, ¬ t.alphaEq (numeral n))) ∧
      ((∀ p, decodeBoolean t = some p ↔ t.alphaEq (boolean p)) ∧
        (decodeBoolean t = none ↔ ∀ p, ¬ t.alphaEq (boolean p))) ∧
      (∀ n, decodeNumeral (numeral n) = some n) ∧
      ∀ p, decodeBoolean (boolean p) = some p := by
  have hnumber : (∀ n, decodeNumeral t = some n ↔ t.alphaEq (numeral n)) ∧
      (decodeNumeral t = none ↔ ∀ n, ¬ t.alphaEq (numeral n)) :=
    ⟨fun _ => numbers.decode_eq_some_iff, numbers.decode_eq_none_iff⟩
  have htruth : (∀ p, decodeBoolean t = some p ↔ t.alphaEq (boolean p)) ∧
      (decodeBoolean t = none ↔ ∀ p, ¬ t.alphaEq (boolean p)) :=
    ⟨fun _ => truths.decode_eq_some_iff, truths.decode_eq_none_iff⟩
  exact ⟨hnumber, htruth, numbers.decode_encode, truths.decode_encode⟩

end Church

end NamedLambda
