/-
NamedLambda/Proofs/Name/Identifier.lean

The classes of characters are disjoint: what stands in an identifier is neither a blank nor a token
of its own, and blanks are no tokens.

The classes of Unicode are lists of ranges, so that two of them are disjoint can be read off the
bounds of their ranges, whatever the characters are (`Apart`).  The signs are few and are looked at
one by one.
-/
import NamedLambda.Source.Token

namespace NamedLambda

/-! ### Ranges -/

theorem exists_range_of_inRanges {ranges : List (Nat × Nat)} {n : Nat}
    (h : inRanges ranges n = true) : ∃ r ∈ ranges, r.1 ≤ n ∧ n ≤ r.2 := by
  induction ranges with
  | nil => cases h
  | cons r rest ih =>
      rw [inRanges] at h
      split at h
      · cases h
      · split at h
        · next hlo hhi => exact ⟨r, List.mem_cons_self, Nat.le_of_not_lt hlo, hhi⟩
        · obtain ⟨r', hr', hn⟩ := ih h
          exact ⟨r', List.mem_cons_of_mem r hr', hn⟩

/-- Every range of the one list lies below or above every range of the other. -/
def Apart (ranges ranges' : List (Nat × Nat)) : Prop :=
  ∀ r ∈ ranges, ∀ r' ∈ ranges', r.2 < r'.1 ∨ r'.2 < r.1

instance (ranges ranges' : List (Nat × Nat)) : Decidable (Apart ranges ranges') :=
  inferInstanceAs (Decidable (∀ r ∈ ranges, ∀ r' ∈ ranges', r.2 < r'.1 ∨ r'.2 < r.1))

theorem Apart.inRanges_eq_false {ranges ranges' : List (Nat × Nat)} (h : Apart ranges ranges')
    {n : Nat} (hn : inRanges ranges n = true) : inRanges ranges' n = false := by
  rw [← Bool.not_eq_true]
  intro hn'
  obtain ⟨r, hr, hlo, hhi⟩ := exists_range_of_inRanges hn
  obtain ⟨r', hr', hlo', hhi'⟩ := exists_range_of_inRanges hn'
  rcases h r hr r' hr' with hlt | hlt
  · omega
  · omega

theorem apart_alphabetic_blank : Apart alphabeticRanges blankRanges := by decide +kernel

theorem apart_numeric_blank : Apart numericRanges blankRanges := by decide +kernel

theorem apart_alphabetic_digit : Apart alphabeticRanges [(0x30, 0x39)] := by decide +kernel

/-! ### The characters of identifiers -/

theorem isIdentifierContinue_of_start {c : Char} (h : isIdentifierStart c = true) :
    isIdentifierContinue c = true := by
  rw [isIdentifierStart, Bool.and_eq_true] at h
  rw [isIdentifierContinue, h.1, h.2]
  rfl

/-- No character of an identifier is a blank. -/
theorem not_isBlank_of_continue {c : Char} (h : isIdentifierContinue c = true) :
    isBlank c = false := by
  rw [isIdentifierContinue, Bool.and_eq_true, Bool.or_eq_true, Bool.or_eq_true] at h
  rcases h.1 with (ha | hn) | hu
  · exact apart_alphabetic_blank.inRanges_eq_false ha
  · exact apart_numeric_blank.inRanges_eq_false hn
  · obtain rfl : c = '_' := beq_iff_eq.1 hu
    decide

/-- The first range of a list that begins with the ASCII digits has them all. -/
theorem inRanges_of_isDigit {c : Char} (h : c.isDigit = true) (rest : List (Nat × Nat)) :
    inRanges ((0x30, 0x39) :: rest) c.toNat = true := by
  rw [Char.isDigit, Bool.and_eq_true, decide_eq_true_eq, decide_eq_true_eq] at h
  have hlo : ¬ c.toNat < 0x30 := Nat.not_lt.2 (UInt32.le_iff_toNat_le.1 h.1)
  have hhi : c.toNat ≤ 0x39 := UInt32.le_iff_toNat_le.1 h.2
  rw [inRanges, if_neg hlo, if_pos hhi]

theorem isIdentifierContinue_of_isDigit {c : Char} (h : c.isDigit = true) :
    isIdentifierContinue c = true := by
  have hnumeric : isNumeric c = true := inRanges_of_isDigit h _
  have hlambda : c ≠ 'λ' := by
    rintro rfl
    cases h
  simp [isIdentifierContinue, hnumeric, hlambda]

/-- No identifier begins with a digit. -/
theorem not_isDigit_of_start {c : Char} (h : isIdentifierStart c = true) : c.isDigit = false := by
  rw [isIdentifierStart, Bool.and_eq_true] at h
  have hnone := apart_alphabetic_digit.inRanges_eq_false h.1
  rw [← Bool.not_eq_true]
  intro hdigit
  rw [inRanges_of_isDigit hdigit []] at hnone
  cases hnone

theorem Name.isIdentifier_iff {x : Name} :
    x.isIdentifier = true ↔
      ∃ c cs, x.toList = c :: cs ∧ isIdentifierStart c = true ∧
        ∀ d ∈ cs, isIdentifierContinue d = true := by
  rw [isIdentifier]
  rcases x.toList with - | ⟨c, cs⟩
  · simp
  · simp [List.all_eq_true, and_assoc]

theorem Name.isIdentifierContinue_of_mem {x : Name} (hx : x.isIdentifier = true) {c : Char}
    (hc : c ∈ x.toList) : isIdentifierContinue c = true := by
  obtain ⟨d, ds, hxd, hd, hds⟩ := isIdentifier_iff.1 hx
  rw [hxd] at hc
  rcases List.mem_cons.1 hc with rfl | hc
  · exact isIdentifierContinue_of_start hd
  · exact hds c hc

/-! ### The signs -/

/-- The characters that are tokens of their own. -/
def signs : List Char :=
  ['(', ')', '\\', 'λ', '.', '=', ';']

theorem mem_signs_iff {c : Char} : c ∈ signs ↔ (Token.ofChar? c).isSome := by
  constructor
  · intro h
    have hall : signs.all (fun c => (Token.ofChar? c).isSome) = true := by decide
    exact List.all_eq_true.1 hall c h
  · intro h
    unfold Token.ofChar? at h
    split at h
    case h_8 => cases h
    all_goals decide

/-- A test that all the signs pass. -/
theorem pass_of_sign {p : Char → Bool} (hall : signs.all p = true) {c : Char} {t : Token}
    (h : Token.ofChar? c = some t) : p c = true := by
  have hc : c ∈ signs := mem_signs_iff.2 (by rw [h]; rfl)
  exact List.all_eq_true.1 hall c hc

/-- A sign is no identifier. -/
theorem Token.ofChar?_ne_ident (c : Char) (x : Name) : Token.ofChar? c ≠ some (.ident x) := by
  unfold Token.ofChar?
  split <;> simp

theorem not_isBlank_of_sign {c : Char} {t : Token} (h : Token.ofChar? c = some t) :
    isBlank c = false := by
  have hall : signs.all (fun c => !isBlank c) = true := by decide
  rw [← Bool.not_eq_true']
  exact pass_of_sign hall h

theorem not_continue_of_sign {c : Char} {t : Token} (h : Token.ofChar? c = some t) :
    isIdentifierContinue c = false := by
  have hall : signs.all (fun c => !isIdentifierContinue c) = true := by decide +kernel
  rw [← Bool.not_eq_true']
  exact pass_of_sign hall h

/-- No character of an identifier is a sign. -/
theorem ofChar?_of_continue {c : Char} (h : isIdentifierContinue c = true) :
    Token.ofChar? c = none := by
  rcases hc : Token.ofChar? c with - | t
  · rfl
  · rw [not_continue_of_sign hc] at h
    cases h

end NamedLambda
