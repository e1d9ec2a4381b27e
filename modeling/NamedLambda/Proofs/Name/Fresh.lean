/-
NamedLambda/Proofs/Name/Fresh.lean

Fresh names are fresh.  The search of `freeNumberFrom` stops at the first number that gives a name
outside the set; that it stops at one at all is a matter of counting.  Different numbers give
different names, so `n + 1` numbers give more names than a set of `n` has.

Main facts: `numbered_freeNumberFrom_not_mem` says that the search never runs out of attempts before
it finds a name, and `fresh_not_mem` that a fresh name is not among the names to be avoided.  A
fresh variant of an identifier is one itself (`isIdentifier_fresh`): its stem is not empty, as
identifiers do not begin with a digit.
-/
import Mathlib.Data.List.DropRight
import Mathlib.Data.List.Nodup
import Mathlib.Data.List.Perm.Subperm
import NamedLambda.Name.Fresh
import NamedLambda.Proofs.Name.Identifier

namespace NamedLambda

namespace Name

/-! ### Numbered names -/

theorem toList_numbered (stem : Name) (k : Nat) :
    (numbered stem k).toList = stem.toList ++ Nat.toDigits 10 k := by
  rw [numbered, String.toList_append, Nat.toList_repr]

/-- Different numbers after one stem make different names. -/
theorem numbered_injective (stem : Name) : Function.Injective (numbered stem) := by
  intro j k h
  have hl := congrArg String.toList h
  rw [toList_numbered, toList_numbered, List.append_cancel_left_eq] at hl
  -- The digits after the stem give the number back.
  have hd := congrArg (Nat.ofDigitChars 10 · 0) hl
  simpa only [Nat.ofDigitChars_ten_toDigits] using hd

/-! ### The search -/

variable {stem : Name} {avoid : NameSet}

/-- The search only goes up. -/
theorem le_freeNumberFrom (attempts k : Nat) : k ≤ freeNumberFrom stem avoid attempts k := by
  fun_induction freeNumberFrom stem avoid attempts k with
  | case1 k => exact Nat.le_refl k
  | case2 _ _ _ ih => exact Nat.le_of_succ_le ih
  | case3 _ k _ => exact Nat.le_refl k

/-- Every number that the search passes over gives a name to be avoided. -/
theorem mem_of_lt_freeNumberFrom {attempts k j : Nat} (hk : k ≤ j)
    (hj : j < freeNumberFrom stem avoid attempts k) : numbered stem j ∈ avoid := by
  fun_induction freeNumberFrom stem avoid attempts k with
  | case1 k => omega
  | case2 attempts k hmem ih =>
      rcases Nat.eq_or_lt_of_le hk with rfl | hlt
      · exact hmem
      · exact ih hlt hj
  | case3 attempts k _ => omega

/-- The search ends with a name outside the set unless all its attempts fail. -/
theorem freeNumberFrom_not_mem_or (stem : Name) (avoid : NameSet) (attempts k : Nat) :
    numbered stem (freeNumberFrom stem avoid attempts k) ∉ avoid ∨
      freeNumberFrom stem avoid attempts k = k + attempts := by
  fun_induction freeNumberFrom stem avoid attempts k with
  | case1 k => exact Or.inr rfl
  | case2 attempts k _ ih =>
      rcases ih with h | h
      · exact Or.inl h
      · exact Or.inr (by omega)
  | case3 attempts k h => exact Or.inl h

/-- A set of names holds no more names of one stem than it has members. -/
theorem length_le_size_of_numbered_mem {js : List Nat} (hjs : js.Nodup)
    (h : ∀ j ∈ js, numbered stem j ∈ avoid) : js.length ≤ avoid.size := by
  have hsub : js.map (numbered stem) ⊆ avoid.names := by
    intro x hx
    obtain ⟨j, hj, rfl⟩ := List.mem_map.1 hx
    exact h j hj
  -- No two of the names are the same, so the set has room for all of them.
  have hperm := (List.Nodup.map (numbered_injective stem) hjs).subperm hsub
  have hlen := hperm.length_le
  rwa [List.length_map] at hlen

/-- The name after as many attempts as the set has members is outside the set. -/
theorem numbered_freeNumberFrom_not_mem (k : Nat) :
    numbered stem (freeNumberFrom stem avoid avoid.size k) ∉ avoid := by
  rcases freeNumberFrom_not_mem_or stem avoid avoid.size k with h | h
  · exact h
  · -- All attempts failed, so one more name of this stem is one too many.
    intro hmem
    have hall : ∀ j ∈ List.range' k (avoid.size + 1), numbered stem j ∈ avoid := by
      intro j hj
      obtain ⟨hkj, hjn⟩ := List.mem_range'_1.1 hj
      rcases Nat.lt_or_ge j (k + avoid.size) with hlt | hge
      · exact mem_of_lt_freeNumberFrom hkj (h ▸ hlt)
      · have hlast : j = freeNumberFrom stem avoid avoid.size k := by omega
        exact hlast ▸ hmem
    have hlen := length_le_size_of_numbered_mem List.nodup_range' hall
    rw [List.length_range'] at hlen
    omega

/-- A fresh name is none of the names to be avoided. -/
theorem fresh_not_mem (x : Name) (avoid : NameSet) : x.fresh avoid ∉ avoid :=
  numbered_freeNumberFrom_not_mem 1

/-! ### Identifiers -/

theorem toList_stem (x : Name) : x.stem.toList = x.toList.rdropWhile Char.isDigit := by
  rw [stem, String.toList_ofList]
  rfl

theorem isIdentifier_stem {x : Name} (hx : x.isIdentifier) : x.stem.isIdentifier := by
  obtain ⟨c, cs, hl, hc, hcs⟩ := isIdentifier_iff.1 hx
  have htext : x.stem.toList = (c :: cs).rdropWhile Char.isDigit := by
    rw [toList_stem, hl]
  have hprefix : x.stem.toList <+: c :: cs := htext ▸ List.rdropWhile_prefix _ _
  rcases hstem : x.stem.toList with - | ⟨d, ds⟩
  · -- The first character is no digit, so something is left.
    rw [hstem, eq_comm, List.rdropWhile_eq_nil_iff] at htext
    have hdigit := htext c List.mem_cons_self
    rw [not_isDigit_of_start hc] at hdigit
    cases hdigit
  · rw [hstem] at hprefix
    obtain ⟨rfl, hds⟩ := List.cons_prefix_cons.1 hprefix
    exact isIdentifier_iff.2 ⟨d, ds, hstem, hc, fun e he => hcs e (hds.subset he)⟩

theorem isIdentifier_numbered {x : Name} (hx : x.isIdentifier) (k : Nat) :
    (numbered x k).isIdentifier := by
  obtain ⟨c, cs, hl, hc, hcs⟩ := isIdentifier_iff.1 hx
  refine isIdentifier_iff.2 ⟨c, cs ++ Nat.toDigits 10 k, ?_, hc, ?_⟩
  · rw [toList_numbered, hl, List.cons_append]
  · intro d hd
    rcases List.mem_append.1 hd with hd | hd
    · exact hcs d hd
    · have hdigit := Nat.isDigit_of_mem_toDigits (by decide) (by decide) hd
      exact isIdentifierContinue_of_isDigit hdigit

/-- A fresh variant of an identifier is an identifier. -/
theorem isIdentifier_fresh {x : Name} (hx : x.isIdentifier) (avoid : NameSet) :
    (x.fresh avoid).isIdentifier :=
  isIdentifier_numbered (isIdentifier_stem hx) _

end Name

end NamedLambda
