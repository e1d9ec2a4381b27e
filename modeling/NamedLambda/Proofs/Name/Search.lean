/-
NamedLambda/Proofs/Name/Search.lean

The search for a fresh name as a loop without a bound.

`freeNumberFrom` counts its attempts.  `tryNext` is one round of the same search without the
counter: it leads from a number that is taken to the one after it, and nothing in it says that the
rounds come to an end.  They do, since a set of `n` names leaves one of the first `n + 1` numbers
free, and they end where `freeNumberFrom` does (`eval_tryNext`).  No smaller number is free.

What the number is put after, the stem, is told from the name alone: the rest of the name is digits,
and the stem does not end with one (`isStemOf_iff`).

Main result: `fresh_exact`.
-/
import Mathlib.Computability.StateTransition
import Mathlib.Order.Bounds.Basic
import NamedLambda.Proofs.Name.Fresh
import NamedLambda.Proofs.Writable

namespace NamedLambda

namespace Name

/-! ### Stems -/

/-- `s` is `x` without the digits that `x` ends with. -/
structure IsStemOf (s x : Name) : Prop where
  rest : ∃ ds : List Char, x.toList = s.toList ++ ds ∧ ∀ d ∈ ds, d.isDigit
  last : ∀ c ∈ s.toList.getLast?, ¬ c.isDigit

/-- A name has one stem. -/
theorem isStemOf_iff {s x : Name} : IsStemOf s x ↔ s = x.stem := by
  constructor
  · rintro ⟨⟨ds, hx, hds⟩, hlast⟩
    have hs : s.toList.rdropWhile Char.isDigit = s.toList :=
      List.rdropWhile_eq_self_iff.2 fun h => hlast _ (List.getLast?_eq_some_getLast h)
    apply String.toList_inj.1
    rw [toList_stem, hx, List.rdropWhile, List.reverse_append,
      List.dropWhile_append_of_pos fun d hd => hds d (List.mem_reverse.1 hd)]
    exact hs.symm
  · rintro rfl
    refine ⟨⟨x.toList.rtakeWhile Char.isDigit, ?_, fun d hd => List.mem_rtakeWhile_imp hd⟩, ?_⟩
    · rw [toList_stem, List.rdropWhile_append_rtakeWhile]
    · intro c hc
      rw [toList_stem] at hc
      obtain ⟨h, rfl⟩ := List.mem_getLast?_eq_getLast hc
      exact List.rdropWhile_last_not _ _ h

/-! ### The least free number -/

variable {stem : Name} {avoid : NameSet}

theorem freeNumberFrom_le (attempts k : Nat) :
    freeNumberFrom stem avoid attempts k ≤ k + attempts := by
  fun_induction freeNumberFrom stem avoid attempts k with
  | case1 k => exact Nat.le_refl k
  | case2 attempts k _ ih => omega
  | case3 attempts k _ => exact Nat.le_add_right k _

/-- As many attempts as there are names to be avoided find the least free number. -/
theorem isLeast_freeNumberFrom (k : Nat) :
    IsLeast {j | k ≤ j ∧ numbered stem j ∉ avoid} (freeNumberFrom stem avoid avoid.size k) := by
  refine ⟨⟨le_freeNumberFrom _ k, numbered_freeNumberFrom_not_mem k⟩, ?_⟩
  rintro j ⟨hkj, hfree⟩
  apply Nat.le_of_not_lt
  intro hlt
  exact hfree (mem_of_lt_freeNumberFrom hkj hlt)

/-! ### The search without a bound -/

/-- One round of the search: a number that is taken is given up for the next, and at a free number
there is nothing left to do. -/
def tryNext (stem : Name) (avoid : NameSet) (k : Nat) : Option Nat :=
  if numbered stem k ∈ avoid then some (k + 1) else none

theorem tryNext_of_mem {k : Nat} (h : numbered stem k ∈ avoid) :
    tryNext stem avoid k = some (k + 1) :=
  if_pos h

theorem tryNext_of_not_mem {k : Nat} (h : numbered stem k ∉ avoid) :
    tryNext stem avoid k = none :=
  if_neg h

/-- The attempts that are counted are rounds of the search. -/
theorem reaches_freeNumberFrom (attempts k : Nat) :
    StateTransition.Reaches (tryNext stem avoid) k (freeNumberFrom stem avoid attempts k) := by
  fun_induction freeNumberFrom stem avoid attempts k with
  | case1 k => exact .refl
  | case2 attempts k hmem ih => exact .head (tryNext_of_mem hmem) ih
  | case3 attempts k _ => exact .refl

/-- **The search ends**, from whatever number it begins. -/
theorem eval_tryNext (k : Nat) :
    StateTransition.eval (tryNext stem avoid) k =
      Part.some (freeNumberFrom stem avoid avoid.size k) := by
  apply Part.eq_some_iff.2
  apply StateTransition.mem_eval.2
  constructor
  · exact reaches_freeNumberFrom avoid.size k
  · exact tryNext_of_not_mem (numbered_freeNumberFrom_not_mem k)

/-- **A fresh name is the first variant that is free.**  The stem of the name, which is all of it but
the digits at its end, is followed by the number at which the search from one ends; this is the
least positive number that gives a name outside the set, and is at most one more than the set has
members.  If the name is read as an identifier, so is its fresh variant. -/
theorem fresh_exact (x : Name) (avoid : NameSet) :
    (∀ s, IsStemOf s x ↔ s = x.stem) ∧
      (∃ k, StateTransition.eval (tryNext x.stem avoid) 1 = Part.some k ∧
        x.fresh avoid = numbered x.stem k ∧
        IsLeast {j | 0 < j ∧ numbered x.stem j ∉ avoid} k ∧ k ≤ avoid.size + 1) ∧
      ((∃ span, Token.lex x = .ok [⟨.ident x, span⟩]) →
        ∃ span, Token.lex (x.fresh avoid) = .ok [⟨.ident (x.fresh avoid), span⟩]) := by
  refine ⟨fun s => isStemOf_iff, ?_, ?_⟩
  · refine ⟨freeNumberFrom x.stem avoid avoid.size 1, eval_tryNext 1, rfl,
      isLeast_freeNumberFrom 1, ?_⟩
    have hle : freeNumberFrom x.stem avoid avoid.size 1 ≤ 1 + avoid.size := freeNumberFrom_le _ _
    omega
  · intro hlex
    have hx : x.isIdentifier := isIdentifier_iff_lex.2 hlex
    exact isIdentifier_iff_lex.1 (isIdentifier_fresh hx avoid)

/-- The number that a name ends with is not looked at, and a gap between the names to be avoided is
filled. -/
theorem fresh_exact_gap :
    let avoid := NameSet.ofList ["f1", "f12", "f3", "g2"]
    (∃ span, Token.lex "f12" = .ok [⟨.ident "f12", span⟩]) ∧ IsStemOf "f" "f12" ∧
      StateTransition.eval (tryNext "f" avoid) 1 = Part.some 2 ∧ fresh "f12" avoid = "f2" ∧
      ∃ span, Token.lex "f2" = .ok [⟨.ident "f2", span⟩] := by
  intro avoid
  have hstem : stem "f12" = "f" := by decide
  have hfresh : fresh "f12" avoid = "f2" := by decide +kernel
  have hlex : ∃ span, Token.lex "f12" = .ok [⟨.ident "f12", span⟩] :=
    isIdentifier_iff_lex.1 (by decide +kernel)
  obtain ⟨hstems, ⟨k, heval, hk, -, -⟩, hread⟩ := fresh_exact "f12" avoid
  rw [hstem] at hstems heval hk
  -- The search ends at two, as no other number gives this name.
  obtain rfl : k = 2 := numbered_injective "f" (hk.symm.trans hfresh)
  rw [hfresh] at hread
  exact ⟨hlex, (hstems "f").2 rfl, heval, hfresh, hread hlex⟩

end Name

end NamedLambda
