/-
NamedLambda/Name/Set.lean

Names, and finite sets of names.  A set is the ascending list of its members, so two sets with the
same members are equal, and the order in which a set is listed is the order of the names by code
points.

Main facts: `mem_insert`, `mem_union` and `mem_erase` say what each operation does to membership,
and `ext` says that membership is all there is to a set.
-/

namespace NamedLambda

/-- The name of a variable. -/
abbrev Name := String

/-- A finite set of names: its members in ascending order, each once. -/
structure NameSet where
  names : List Name
  ascending : names.Pairwise (· < ·)
deriving DecidableEq, Repr

namespace NameSet

instance : Membership Name NameSet where
  mem s x := x ∈ s.names

theorem mem_def {s : NameSet} {x : Name} : x ∈ s ↔ x ∈ s.names := Iff.rfl

instance (x : Name) (s : NameSet) : Decidable (x ∈ s) :=
  inferInstanceAs (Decidable (x ∈ s.names))

/-- The number of members. -/
def size (s : NameSet) : Nat :=
  s.names.length

/-- The set without members. -/
def empty : NameSet :=
  ⟨[], .nil⟩

instance : EmptyCollection NameSet := ⟨empty⟩

instance : Inhabited NameSet := ⟨empty⟩

/-- The set of one name. -/
def singleton (x : Name) : NameSet :=
  ⟨[x], List.pairwise_singleton _ _⟩

/-! ### Union -/

/-- Merge two ascending lists; a name on both is kept once. -/
def merge : List Name → List Name → List Name
  | [], ys => ys
  | x :: xs, [] => x :: xs
  | x :: xs, y :: ys =>
      if x < y then x :: merge xs (y :: ys)
      else if y < x then y :: merge (x :: xs) ys
      else x :: merge xs ys
termination_by xs ys => xs.length + ys.length

theorem mem_merge {z : Name} (xs ys : List Name) : z ∈ merge xs ys ↔ z ∈ xs ∨ z ∈ ys := by
  fun_induction merge xs ys with
  | case1 ys => simp
  | case2 x xs => simp
  | case3 x xs y ys _ ih => simp [ih, or_assoc]
  | case4 x xs y ys _ _ ih =>
      simp only [List.mem_cons, ih]
      constructor
      · rintro (h | (h | h) | h) <;> simp [h]
      · rintro ((h | h) | h | h) <;> simp [h]
  | case5 x xs y ys hxy hyx ih =>
      obtain rfl : x = y := String.le_antisymm (String.not_lt.1 hyx) (String.not_lt.1 hxy)
      simp only [List.mem_cons, ih]
      constructor
      · rintro (h | h | h) <;> simp [h]
      · rintro ((h | h) | h | h) <;> simp [h]

theorem ascending_merge {xs ys : List Name} (hx : xs.Pairwise (· < ·)) (hy : ys.Pairwise (· < ·)) :
    (merge xs ys).Pairwise (· < ·) := by
  fun_induction merge xs ys with
  | case1 ys => exact hy
  | case2 x xs => exact hx
  | case3 x xs y ys hxy ih =>
      rw [List.pairwise_cons] at hx ⊢
      refine ⟨fun z hz => ?_, ih hx.2 hy⟩
      rcases (mem_merge _ _).1 hz with h | h
      · exact hx.1 z h
      · rcases List.mem_cons.1 h with rfl | h
        · exact hxy
        · exact String.lt_trans hxy ((List.pairwise_cons.1 hy).1 z h)
  | case4 x xs y ys hxy hyx ih =>
      rw [List.pairwise_cons] at hy ⊢
      refine ⟨fun z hz => ?_, ih hx hy.2⟩
      rcases (mem_merge _ _).1 hz with h | h
      · rcases List.mem_cons.1 h with rfl | h
        · exact hyx
        · exact String.lt_trans hyx ((List.pairwise_cons.1 hx).1 z h)
      · exact hy.1 z h
  | case5 x xs y ys hxy hyx ih =>
      obtain rfl : x = y := String.le_antisymm (String.not_lt.1 hyx) (String.not_lt.1 hxy)
      rw [List.pairwise_cons] at hx hy ⊢
      refine ⟨fun z hz => ?_, ih hx.2 hy.2⟩
      rcases (mem_merge _ _).1 hz with h | h
      · exact hx.1 z h
      · exact hy.1 z h

/-- All members of either set. -/
def union (s t : NameSet) : NameSet :=
  ⟨merge s.names t.names, ascending_merge s.ascending t.ascending⟩

instance : Union NameSet := ⟨union⟩

/-- A set with one more member. -/
def insert (x : Name) (s : NameSet) : NameSet :=
  singleton x ∪ s

/-- The names that stand on a list. -/
def ofList (xs : List Name) : NameSet :=
  xs.foldl (fun s x => s.insert x) ∅

/-! ### Removal -/

/-- A set without one name. -/
def erase (s : NameSet) (x : Name) : NameSet :=
  ⟨s.names.filter (· ≠ x), s.ascending.filter _⟩

/-! ### Membership -/

@[simp] theorem not_mem_empty {x : Name} : x ∉ (∅ : NameSet) :=
  List.not_mem_nil

@[simp] theorem mem_singleton {x y : Name} : x ∈ singleton y ↔ x = y :=
  List.mem_singleton

@[simp] theorem mem_union {x : Name} {s t : NameSet} : x ∈ s ∪ t ↔ x ∈ s ∨ x ∈ t :=
  mem_merge s.names t.names

@[simp] theorem mem_insert {x y : Name} {s : NameSet} : x ∈ s.insert y ↔ x = y ∨ x ∈ s := by
  simp [insert]

@[simp] theorem mem_erase {x y : Name} {s : NameSet} : x ∈ s.erase y ↔ x ∈ s ∧ x ≠ y := by
  simp [erase, mem_def]

theorem mem_ofList {x : Name} {xs : List Name} : x ∈ ofList xs ↔ x ∈ xs := by
  suffices h : ∀ s : NameSet, x ∈ xs.foldl (fun s x => s.insert x) s ↔ x ∈ xs ∨ x ∈ s by
    simpa [ofList] using h ∅
  induction xs with
  | nil => simp
  | cons y ys ih =>
      intro s
      simp only [List.foldl_cons, ih, mem_insert, List.mem_cons]
      constructor
      · rintro (h | h | h) <;> simp [h]
      · rintro ((h | h) | h) <;> simp [h]

/-- Behind the head of an ascending list stand the members that differ from it. -/
theorem mem_tail_iff {x z : Name} {xs : List Name} (h : ∀ y ∈ xs, x < y) :
    z ∈ xs ↔ z ∈ x :: xs ∧ z ≠ x := by
  constructor
  · intro hz
    refine ⟨List.mem_cons_of_mem x hz, ?_⟩
    rintro rfl
    exact String.lt_irrefl z (h z hz)
  · rintro ⟨hz, hne⟩
    exact List.mem_of_ne_of_mem hne hz

theorem eq_of_ascending {xs ys : List Name} (hx : xs.Pairwise (· < ·)) (hy : ys.Pairwise (· < ·))
    (h : ∀ x, x ∈ xs ↔ x ∈ ys) : xs = ys := by
  induction xs generalizing ys with
  | nil => exact (List.eq_nil_iff_forall_not_mem.2 fun x hx => by simpa using (h x).2 hx).symm
  | cons x xs ih =>
      rw [List.pairwise_cons] at hx
      cases ys with
      | nil => exact absurd ((h x).1 List.mem_cons_self) List.not_mem_nil
      | cons y ys =>
          rw [List.pairwise_cons] at hy
          -- Each head is the least member of the same set.
          have hxy : x = y := by
            rcases List.mem_cons.1 ((h x).1 List.mem_cons_self) with e | hxy
            · exact e
            · rcases List.mem_cons.1 ((h y).2 List.mem_cons_self) with e | hyx
              · exact e.symm
              · exact absurd (hx.1 y hyx) (String.lt_asymm (hy.1 x hxy))
          subst hxy
          rw [ih hx.2 hy.2 fun z => ?_]
          rw [mem_tail_iff hx.1, mem_tail_iff hy.1, h z]

/-- Sets with the same members are equal. -/
theorem ext {s t : NameSet} (h : ∀ x, x ∈ s ↔ x ∈ t) : s = t := by
  obtain ⟨xs, hx⟩ := s
  obtain ⟨ys, hy⟩ := t
  obtain rfl := eq_of_ascending hx hy h
  rfl

end NameSet

end NamedLambda
