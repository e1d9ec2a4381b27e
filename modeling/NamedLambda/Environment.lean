/-
NamedLambda/Environment.lean

Definitions of names by terms.  An environment is listed in the order of its names.

Resolving a term puts the definitions of all its defined free variables in their places at once.
This is done in two rounds of substitution: first each defined name gives way to a placeholder that
occurs nowhere in sight, then each placeholder to its definition, so no definition is rewritten by
another one.

Main fact: `lookup_store` says what storing a definition does to every look-up.
-/
import NamedLambda.Term.Substitution

namespace NamedLambda

/-- Terms by name, in the order of the names. -/
structure Environment where
  definitions : List (Name × Term)
  ascending : definitions.Pairwise (·.1 < ·.1)
deriving DecidableEq, Repr

namespace Environment

/-- The environment without definitions. -/
def empty : Environment :=
  ⟨[], .nil⟩

instance : EmptyCollection Environment := ⟨empty⟩

instance : Inhabited Environment := ⟨empty⟩

/-- Whether nothing is defined. -/
def isEmpty (env : Environment) : Bool :=
  env.definitions.isEmpty

/-- The definition of a name. -/
def lookup (env : Environment) (x : Name) : Option Term :=
  env.definitions.lookup x

/-! ### Storing a definition -/

/-- Put an entry in its place on an ascending list; one of the same name gives way to it. -/
def insertEntry (x : Name) (t : Term) : List (Name × Term) → List (Name × Term)
  | [] => [(x, t)]
  | (y, u) :: rest =>
      if x < y then (x, t) :: (y, u) :: rest
      else if y < x then (y, u) :: insertEntry x t rest
      else (x, t) :: rest

theorem mem_of_mem_insertEntry {x : Name} {t : Term} {entries : List (Name × Term)}
    {e : Name × Term} (h : e ∈ insertEntry x t entries) : e = (x, t) ∨ e ∈ entries := by
  fun_induction insertEntry x t entries with
  | case1 => exact Or.inl (List.mem_singleton.1 h)
  | case2 y u rest _ => exact List.mem_cons.1 h
  | case3 y u rest _ _ ih =>
      rcases List.mem_cons.1 h with rfl | h
      · exact Or.inr List.mem_cons_self
      · exact (ih h).imp_right (List.mem_cons_of_mem _)
  | case4 y u rest _ _ => exact (List.mem_cons.1 h).imp_right (List.mem_cons_of_mem _)

theorem ascending_insertEntry {x : Name} {t : Term} {entries : List (Name × Term)}
    (h : entries.Pairwise (·.1 < ·.1)) : (insertEntry x t entries).Pairwise (·.1 < ·.1) := by
  fun_induction insertEntry x t entries with
  | case1 => exact List.pairwise_singleton _ _
  | case2 y u rest hxy =>
      refine List.pairwise_cons.2 ⟨fun e he => ?_, h⟩
      rcases List.mem_cons.1 he with rfl | he
      · exact hxy
      · exact String.lt_trans hxy ((List.pairwise_cons.1 h).1 e he)
  | case3 y u rest _ hyx ih =>
      rw [List.pairwise_cons] at h
      refine List.pairwise_cons.2 ⟨fun e he => ?_, ih h.2⟩
      rcases mem_of_mem_insertEntry he with rfl | he
      · exact hyx
      · exact h.1 e he
  | case4 y u rest hxy hyx =>
      obtain rfl : x = y := String.le_antisymm (String.not_lt.1 hyx) (String.not_lt.1 hxy)
      rw [List.pairwise_cons] at h
      exact List.pairwise_cons.2 h

/-- An environment with `t` stored under `x`. -/
def store (env : Environment) (x : Name) (t : Term) : Environment :=
  ⟨insertEntry x t env.definitions, ascending_insertEntry env.ascending⟩

@[simp] theorem lookup_empty (x : Name) : (∅ : Environment).lookup x = none := rfl

theorem lookup_entry (y z : Name) (u : Term) (rest : List (Name × Term)) :
    ((z, u) :: rest).lookup y = if y = z then some u else rest.lookup y := by
  by_cases h : y = z
  · simp [h]
  · simp [List.lookup_cons, beq_false_of_ne h, h]

theorem lookup_insertEntry (x y : Name) (t : Term) (entries : List (Name × Term)) :
    (insertEntry x t entries).lookup y = if y = x then some t else entries.lookup y := by
  fun_induction insertEntry x t entries with
  | case1 => exact lookup_entry y x t []
  | case2 z u rest _ => exact lookup_entry y x t _
  | case3 z u rest _ hzx ih =>
      rw [lookup_entry, lookup_entry, ih]
      by_cases h : y = x
      · -- The entry of `z` stands before that of `x` and does not hide it.
        have hyz : y ≠ z := fun e => String.lt_irrefl z ((h.symm.trans e) ▸ hzx)
        rw [if_pos h, if_neg hyz, if_pos h]
      · rw [if_neg h, if_neg h]
  | case4 z u rest hxz hzx =>
      obtain rfl : x = z := String.le_antisymm (String.not_lt.1 hzx) (String.not_lt.1 hxz)
      rw [lookup_entry, lookup_entry]
      by_cases h : y = x
      · rw [if_pos h, if_pos h]
      · rw [if_neg h, if_neg h, if_neg h]

@[simp] theorem lookup_store (env : Environment) (x y : Name) (t : Term) :
    (env.store x t).lookup y = if y = x then some t else env.lookup y :=
  lookup_insertEntry x y t env.definitions

/-! ### Resolving -/

/-- The defined names among those given, with their definitions. -/
def definedAmong (env : Environment) (names : NameSet) : List (Name × Term) :=
  names.names.filterMap fun x => (env.lookup x).map (x, ·)

/-- A placeholder for each name, outside `avoid` and different from the others, with the definition
that it stands for. -/
def placeholders (avoid : NameSet) : List (Name × Term) → List (Name × Name × Term)
  | [] => []
  | (x, t) :: rest =>
      let p := x.fresh avoid
      (x, p, t) :: placeholders (avoid.insert p) rest

/-- The term with the definitions put for its defined free variables. -/
def resolve (env : Environment) (t : Term) : Term :=
  let defined := env.definedAmong t.freeVariables
  let avoid := defined.foldl (fun s d => s ∪ d.2.freeVariables) t.freeVariables
  let held := placeholders avoid defined
  let marked := held.foldl (fun u d => u.substitute d.1 (.var d.2.1)) t
  held.foldl (fun u d => u.substitute d.2.1 d.2.2) marked

/-- The environment with `x` defined by `t`, which is resolved against the definitions made so far.
Earlier definitions keep what they were resolved to. -/
def define (env : Environment) (x : Name) (t : Term) : Environment :=
  env.store x (env.resolve t)

end Environment

end NamedLambda
