/-
NamedLambda/Proofs/Writable.lean

Terms that can be written stay so.

The names of a term come from three places only: the text it was read from, the terms that were put
in for its variables, and the binders that were renamed.  The lexer reads no names but identifiers,
and a fresh variant of an identifier is one, so every name of a term that is made in these ways can
be written.  Resolving makes use of placeholders besides, which are fresh variants as well.

Main facts: `writable_substitute`, `Run.writable`, `Writable.resolve` and `writable_of_parseTerm`.
-/
import NamedLambda.Proofs.Environment.Resolve
import NamedLambda.Proofs.Reduction.Budget
import NamedLambda.Proofs.Source.Layout
import NamedLambda.Proofs.Source.RoundTrip

namespace NamedLambda

/-! ### Substitution -/

namespace Term

theorem Writable.isIdentifier_of_occursFree {t : Term} (ht : t.Writable) {x : Name}
    (hx : t.occursFree x) : x.isIdentifier := by
  induction t with
  | var y =>
      obtain rfl : y = x := beq_iff_eq.1 hx
      exact ht
  | abs y b ih =>
      rw [occursFree, Bool.and_eq_true] at hx
      exact ih ht.2 hx.2
  | app f a ihf iha =>
      rw [occursFree, Bool.or_eq_true] at hx
      rcases hx with hx | hx
      · exact ihf ht.1 hx
      · exact iha ht.2 hx

/-- No call of a substitution makes a name that cannot be written. -/
theorem Substitution.writable {t : Term} {x : Name} {r u : Term} (h : Substitution t x r u)
    (ht : t.Writable) (hr : r.Writable) : u.Writable := by
  induction h with
  | hit x r => exact hr
  | miss r _ => exact ht
  | app _ _ ihf iha => exact ⟨ihf ht.1 hr, iha ht.2 hr⟩
  | shadowed x b r => exact ht
  | @renamed x y b r b' c _ _ _ _ _ ihb ihc =>
      have hz : (freshBinder y b r).isIdentifier := Name.isIdentifier_fresh ht.1 _
      have hb' : b'.Writable := ihb ht.2 hz
      exact ⟨hz, ihc hb' hr⟩
  | kept _ _ _ ih => exact ⟨ht.1, ih ht.2 hr⟩

theorem writable_substitute {t : Term} (ht : t.Writable) (x : Name) {r : Term}
    (hr : r.Writable) : (t.substitute x r).Writable :=
  (substitution_substitute t x r).writable ht hr

/-- Substitutions in a row. -/
theorem writable_foldl_substitute {α : Type} (ds : List α) (name : α → Name)
    (replacement : α → Term) (hds : ∀ d ∈ ds, (replacement d).Writable) {t : Term}
    (ht : t.Writable) :
    (ds.foldl (fun u d => u.substitute (name d) (replacement d)) t).Writable := by
  induction ds generalizing t with
  | nil => exact ht
  | cons d ds ih =>
      rw [List.forall_mem_cons] at hds
      exact ih hds.2 (writable_substitute ht (name d) hds.1)

/-! ### Reduction -/

theorem Beta.writable {t u : Term} (h : t.Beta u) (ht : t.Writable) : u.Writable := by
  induction h with
  | contract hc =>
      obtain ⟨x, b, a, rfl, rfl⟩ := contract_eq_some_iff.1 hc
      exact writable_substitute ht.1.2 x ht.2
  | abs x _ ih => exact ⟨ht.1, ih ht.2⟩
  | appLeft a _ ih => exact ⟨ih ht.1, ht.2⟩
  | appRight f _ ih => exact ⟨ht.1, ih ht.2⟩

end Term

namespace Strategy

variable {s : Strategy}

/-- All terms of a run that begins with a writable one are writable. -/
theorem Run.writable {t v : Term} {us : List Term} (h : s.Run t us v) (ht : t.Writable) :
    (∀ u ∈ us, u.Writable) ∧ v.Writable := by
  induction h with
  | nil t => exact ⟨by simp, ht⟩
  | cons hstep _ ih =>
      have hu := (step_beta hstep).writable ht
      obtain ⟨hus, hv⟩ := ih hu
      exact ⟨List.forall_mem_cons.2 ⟨hu, hus⟩, hv⟩

theorem writable_of_reduce {budget : Nat} {t r : Term} (h : s.reduce budget t = .ok r)
    (ht : t.Writable) : r.Writable := by
  obtain ⟨us, hrun, -⟩ := reduce_eq_ok_iff.1 h
  exact (hrun.writable ht).2

theorem writable_of_trace {budget : Nat} {t : Term} {us : List Term}
    (h : s.trace budget t = .ok us) (ht : t.Writable) : ∀ u ∈ us, u.Writable := by
  obtain ⟨v, hrun, -⟩ := trace_eq_ok_iff.1 h
  exact (hrun.writable ht).1

end Strategy

/-! ### Definitions -/

namespace Environment

open Term

/-- All names in the definitions, the defined ones and those of their terms, can be written. -/
def Writable (env : Environment) : Prop :=
  ∀ d ∈ env.definitions, d.1.isIdentifier ∧ d.2.Writable

theorem writable_empty : (∅ : Environment).Writable := by
  intro d hd
  cases hd

theorem Writable.of_lookup {env : Environment} (h : env.Writable) {x : Name} {d : Term}
    (hd : env.lookup x = some d) : d.Writable := by
  obtain ⟨before, after, hentries, -⟩ := List.lookup_eq_some_iff.1 hd
  have hmem : (x, d) ∈ env.definitions := by
    rw [hentries]
    simp
  exact (h _ hmem).2

theorem isIdentifier_of_mem_placeholders {avoid : NameSet} {ds : List (Name × Term)}
    (hds : ∀ d ∈ ds, d.1.isIdentifier) {d : Name × Name × Term} (h : d ∈ placeholders avoid ds) :
    d.2.1.isIdentifier := by
  induction ds generalizing avoid with
  | nil => cases h
  | cons e ds ih =>
      rw [List.forall_mem_cons] at hds
      rcases List.mem_cons.1 h with rfl | h
      · exact Name.isIdentifier_fresh hds.1 avoid
      · exact ih hds.2 h

/-- Resolving puts in placeholders first, which are fresh variants of names of the term. -/
theorem Writable.resolve {env : Environment} (h : env.Writable) {t : Term} (ht : t.Writable) :
    (env.resolve t).Writable := by
  let defined := env.definedAmong t.freeVariables
  let avoid := defined.foldl (fun s d => s ∪ d.2.freeVariables) t.freeVariables
  let held := placeholders avoid defined
  have hdefined : ∀ d ∈ defined, d.1.isIdentifier := by
    intro d hd
    obtain ⟨hfree, -⟩ := mem_definedAmong.1 hd
    exact ht.isIdentifier_of_occursFree (mem_freeVariables.1 hfree)
  have hplaceholder : ∀ d ∈ held, (var d.2.1).Writable := by
    intro d hd
    exact isIdentifier_of_mem_placeholders hdefined hd
  have hdefinition : ∀ d ∈ held, d.2.2.Writable := by
    intro d hd
    obtain ⟨-, hlookup⟩ := mem_definedAmong.1 (mem_of_mem_placeholders hd)
    exact h.of_lookup hlookup
  have hmarked := writable_foldl_substitute held (·.1) (fun d => var d.2.1) hplaceholder ht
  exact writable_foldl_substitute held (·.2.1) (·.2.2) hdefinition hmarked

theorem Writable.define {env : Environment} (h : env.Writable) {x : Name} (hx : x.isIdentifier)
    {t : Term} (ht : t.Writable) : (env.define x t).Writable := by
  intro d hd
  rcases mem_of_mem_insertEntry hd with rfl | hd
  · exact ⟨hx, h.resolve ht⟩
  · exact h d hd

end Environment

/-! ### Reading -/

/-- All names among the tokens can be written. -/
def Token.Writable (ts : List Token) : Prop :=
  ∀ x, .ident x ∈ ts → x.isIdentifier

theorem Token.Spells.writable {cs : List Char} {ts : List Token} (h : Spells cs ts) :
    Token.Writable ts := by
  intro x hx
  induction h with
  | nil => cases hx
  | blank _ _ ih => exact ih hx
  | @sign c t cs ts hc _ ih =>
      rcases List.mem_cons.1 hx with rfl | hx
      · exact absurd hc (ofChar?_ne_ident c x)
      · exact ih hx
  | ident hy _ _ ih =>
      rcases List.mem_cons.1 hx with heq | hx
      · obtain rfl := Token.ident.inj heq
        exact hy
      · exact ih hx

theorem Token.writable_of_lex {source : String} {ls : List (Located Token)}
    (h : Token.lex source = .ok ls) : Token.Writable (ls.map Located.value) :=
  (spells_of_lex h).writable

/-- The identifiers are the names that the lexer reads as one token. -/
theorem Name.isIdentifier_iff_lex {x : Name} :
    x.isIdentifier ↔ ∃ span, Token.lex x = .ok [⟨.ident x, span⟩] := by
  constructor
  · intro hx
    obtain ⟨ls, hls, hvalues⟩ :=
      Token.lex_of_spells (Token.Spells.ident_self hx) (List.cons_ne_nil _ _)
    obtain ⟨⟨t, span⟩, rfl, rfl⟩ := List.map_eq_singleton_iff.1 hvalues
    exact ⟨span, hls⟩
  · rintro ⟨span, hlex⟩
    exact Token.writable_of_lex hlex x List.mem_cons_self

theorem Token.writable_append {ts us : List Token} :
    Token.Writable (ts ++ us) ↔ Token.Writable ts ∧ Token.Writable us := by
  simp only [Token.Writable, List.mem_append, or_imp, forall_and]

theorem Token.Writable.tail {t : Token} {ts : List Token} (h : Token.Writable (t :: ts)) :
    Token.Writable ts :=
  fun x hx => h x (List.mem_cons_of_mem t hx)

/-- A term has no other names than the tokens that it is derived from. -/
theorem Derives.writable {c : Category} {ts : List Token} {t : Term} (h : Derives c ts t)
    (hts : Token.Writable ts) : t.Writable := by
  induction h with
  | @abstraction x ts b _ ih => exact ⟨hts x (by simp), ih hts.tail.tail.tail⟩
  | application _ ih => exact ih hts
  | single _ ih => exact ih hts
  | juxtaposed _ _ ihf iha =>
      obtain ⟨hts, hus⟩ := Token.writable_append.1 hts
      exact ⟨ihf hts, iha hus⟩
  | ident x => exact hts x List.mem_cons_self
  | group _ ih => exact ih (Token.writable_append.1 hts.tail).1

theorem writable_of_parseTerm {source : String} {t : Term} (h : parseTerm source = .ok t) :
    t.Writable := by
  obtain ⟨ls, hlex, hd⟩ := parseTerm_eq_ok_iff.1 h
  exact hd.writable (Token.writable_of_lex hlex)

/-- All names of a command can be written. -/
def Command.Writable : Command → Prop
  | .evaluate t => t.Writable
  | .define x t => x.isIdentifier ∧ t.Writable

theorem DerivesCommand.writable {ts : List Token} {c : Command} (h : DerivesCommand ts c)
    (hts : Token.Writable ts) : c.Writable := by
  cases h with
  | define x hd => exact ⟨hts x List.mem_cons_self, hd.writable hts.tail.tail⟩
  | evaluate hd => exact hd.writable hts

theorem DerivesSequence.writable {ts : List Token} {cs : List Command}
    (h : DerivesSequence ts cs) (hts : Token.Writable ts) : ∀ c ∈ cs, c.Writable := by
  induction h with
  | single hc =>
      simp only [List.forall_mem_singleton]
      exact hc.writable hts
  | more _ hc ih =>
      obtain ⟨hts, hus⟩ := Token.writable_append.1 hts
      simp only [List.forall_mem_append, List.forall_mem_singleton]
      exact ⟨ih hts, hc.writable hus.tail⟩

theorem DerivesCommands.writable {ts : List Token} {cs : List Command}
    (h : DerivesCommands ts cs) (hts : Token.Writable ts) : ∀ c ∈ cs, c.Writable := by
  cases h with
  | empty => simp
  | sequence hcs => exact hcs.writable hts
  | trailing hcs => exact hcs.writable (Token.writable_append.1 hts).1

theorem writable_of_parseCommands {source : String} {cs : List Command}
    (h : parseCommands source = .ok cs) : ∀ c ∈ cs, c.Writable := by
  obtain ⟨ls, hlex, hd⟩ := parseCommands_eq_ok_iff.1 h
  exact hd.writable (Token.writable_of_lex hlex)

end NamedLambda
