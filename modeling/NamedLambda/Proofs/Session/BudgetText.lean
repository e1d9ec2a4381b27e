/-
NamedLambda/Proofs/Session/BudgetText.lean

Which texts are step budgets, and what numbers they write.

`readDigits` gives up as soon as the number read so far is too large.  No digit makes a number
smaller (`le_ofDigitChars`), so it gives up for no text whose number would be small enough in the
end.

Main result: `readBudget_eq_ok_iff`.
-/
import NamedLambda.Session.BudgetText

namespace NamedLambda

/-- The text writes a step budget: some decimal digits, after a plus sign or not, for a number that
is not too large. -/
def WritesBudget (text : String) (n : Nat) : Prop :=
  ∃ digits : List Char, digits ≠ [] ∧ (text.toList = digits ∨ text.toList = '+' :: digits) ∧
    (∀ c ∈ digits, c.isDigit) ∧ Nat.ofDigitChars 10 digits 0 = n ∧ n ≤ maxBudget

theorem WritesBudget.ne_empty {text : String} {n : Nat} (h : WritesBudget text n) : text ≠ "" := by
  rintro rfl
  obtain ⟨digits, hdigits, rfl | h, -⟩ := h
  · exact hdigits rfl
  · cases h

theorem le_ofDigitChars (digits : List Char) (n : Nat) : n ≤ Nat.ofDigitChars 10 digits n := by
  induction digits generalizing n with
  | nil => exact Nat.le_refl n
  | cons c digits ih =>
      rw [Nat.ofDigitChars_cons]
      calc n ≤ 10 * n + (c.toNat - '0'.toNat) := by omega
        _ ≤ _ := ih _

theorem readDigits_eq_ok_iff {n m : Nat} (hn : n ≤ maxBudget) {cs : List Char} :
    readDigits n cs = .ok m ↔
      (∀ c ∈ cs, c.isDigit) ∧ Nat.ofDigitChars 10 cs n = m ∧ m ≤ maxBudget := by
  induction cs generalizing n with
  | nil =>
      rw [readDigits, Except.ok.injEq, Nat.ofDigitChars_nil]
      constructor
      · rintro rfl
        exact ⟨by simp, rfl, hn⟩
      · rintro ⟨-, h, -⟩
        exact h
  | cons c cs ih =>
      rw [readDigits, List.forall_mem_cons, Nat.ofDigitChars_cons]
      by_cases hc : c.isDigit
      · rw [if_pos hc]
        dsimp only
        split
        · next hle =>
            rw [ih hle]
            simp only [hc, true_and]
        · next hgt =>
            -- The number only grows with the digits that follow.
            have hgrows := le_ofDigitChars cs (10 * n + (c.toNat - '0'.toNat))
            simp only [reduceCtorEq, false_iff]
            rintro ⟨-, h, hle⟩
            omega
      · simp [hc]

/-- **What is read as a step budget is a text that writes one.**  A sign alone writes none. -/
theorem readBudget_eq_ok_iff {text : String} (htext : text ≠ "") {n : Nat} :
    readBudget text = .ok n ↔ WritesBudget text n := by
  have hne : text.toList ≠ [] := by simpa using htext
  rw [readBudget, WritesBudget]
  split
  · next c cs heq =>
      rw [readDigits_eq_ok_iff (Nat.zero_le maxBudget), heq]
      constructor
      · rintro ⟨hdigits, hvalue⟩
        exact ⟨c :: cs, List.cons_ne_nil c cs, Or.inr rfl, hdigits, hvalue⟩
      · rintro ⟨digits, -, rfl | h, hdigits, hvalue⟩
        · exact absurd (hdigits '+' List.mem_cons_self) (by decide)
        · obtain ⟨-, rfl⟩ := List.cons.inj h
          exact ⟨hdigits, hvalue⟩
  · next hsign =>
      rw [readDigits_eq_ok_iff (Nat.zero_le maxBudget)]
      constructor
      · rintro ⟨hdigits, hvalue⟩
        exact ⟨text.toList, hne, Or.inl rfl, hdigits, hvalue⟩
      · rintro ⟨digits, hdigits0, rfl | h, hdigits, hvalue⟩
        · exact ⟨hdigits, hvalue⟩
        · obtain ⟨c, cs, rfl⟩ := List.exists_cons_of_ne_nil hdigits0
          exact absurd h (hsign c cs)

/-- The text of a budget writes it, so a budget that was shown can be chosen. -/
theorem writesBudget_repr {n : Nat} (hn : n ≤ maxBudget) : WritesBudget n.repr n := by
  have hdigits : ∀ c ∈ Nat.toDigits 10 n, c.isDigit :=
    fun c hc => Nat.isDigit_of_mem_toDigits (by decide) (by decide) hc
  exact ⟨Nat.toDigits 10 n, Nat.toDigits_ne_nil, Or.inl Nat.toList_repr, hdigits,
    Nat.ofDigitChars_ten_toDigits, hn⟩

end NamedLambda
