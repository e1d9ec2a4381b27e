/-
NamedLambda/Proofs/Source/Automaton.lean

Runs of automata.

What an automaton does with a list of items is the fold of its step (`feed`), whatever it is that it
reads.  So what every item more preserves is preserved by a list (`feed_preserves`), an automaton
that reads through a map does with the items what the first automaton does with their images
(`feed_comap`), and it accepts a list with one result at most (`Accepts.unique`).

The loop over the tokens of a text is a fold with a report at the end.  It has a result where the
automaton accepts the tokens (`read_eq_ok_iff`), and otherwise an error at an item that the state
before it does not admit (`exists_of_run_eq_error`).
-/
import NamedLambda.Source.Automaton

namespace NamedLambda

theorem mapError_eq_ok_iff {ε ε' α : Type} {x : Except ε α} {f : ε → ε'} {a : α} :
    x.mapError f = .ok a ↔ x = .ok a := by
  constructor
  · intro h
    rcases x with e | b
    · cases h
    · obtain rfl := Except.ok.inj h
      rfl
  · rintro rfl
    rfl

/-- Tokens have places in some source, and which ones hardly ever matters. -/
theorem exists_located (ts : List Token) :
    ∃ ls : List (Located Token), ls.map Located.value = ts :=
  ⟨ts.map fun t => ⟨t, default⟩, by simp [Function.comp_def]⟩

/-- The place of item number `k` in a source of `stop` characters.  After the last token it is the
end of the input. -/
def itemSpan (stop : Nat) (ls : List (Located Token)) (k : Nat) : Span :=
  match ls[k]? with
  | some l => l.span
  | none => ⟨stop, stop + 1⟩

theorem itemSpan_append (stop : Nat) (ls : List (Located Token)) (l : Located Token)
    (ms : List (Located Token)) : itemSpan stop (ls ++ l :: ms) ls.length = l.span := by
  simp [itemSpan]

theorem itemSpan_take (stop : Nat) (ls : List (Located Token)) {j k : Nat} (h : j < k) :
    itemSpan stop (ls.take k) j = itemSpan stop ls j := by
  rw [itemSpan, itemSpan, List.getElem?_take_of_lt h]

namespace Automaton

/-! ### Several items -/

section Feed

variable {ι κ σ α : Type} (A : Automaton ι σ α)

/-- The state after a list of items. -/
def feed (s : σ) (is : List ι) : Option σ :=
  is.foldlM A.step s

theorem feed_cons (s : σ) (i : ι) (is : List ι) :
    A.feed s (i :: is) = (A.step s i).bind (A.feed · is) :=
  List.foldlM_cons ..

theorem feed_append (s : σ) (is js : List ι) :
    A.feed s (is ++ js) = (A.feed s is).bind (A.feed · js) :=
  List.foldlM_append ..

theorem feed_comap (f : κ → ι) (s : σ) (ks : List κ) :
    (A.comap f).feed s ks = A.feed s (ks.map f) := by
  rw [feed, feed, List.foldlM_map]
  rfl

/-- The automaton can come to its end with the list, and then it gives `a`. -/
def Accepts (is : List ι) (a : α) : Prop :=
  ∃ s, A.feed A.initial is = some s ∧ A.finish s = some a

/-- The item is not refused.  Among items, `none` is the end of the list. -/
def Admits (s : σ) : Option ι → Prop
  | some i => (A.step s i).isSome
  | none => (A.finish s).isSome

variable {A}

theorem feed_concat {s s₁ s₂ : σ} {is : List ι} {i : ι} (h : A.feed s is = some s₁)
    (hstep : A.step s₁ i = some s₂) : A.feed s (is ++ [i]) = some s₂ := by
  rw [feed_append, h, Option.bind_some, feed_cons, hstep]
  rfl

/-- What every item more preserves, any number of items preserve. -/
theorem feed_preserves {P : List ι → σ → Prop}
    (hstep : ∀ is s i s', P is s → A.step s i = some s' → P (is ++ [i]) s')
    {is js : List ι} {s s' : σ} (h : P is s) (hfeed : A.feed s js = some s') :
    P (is ++ js) s' := by
  induction js generalizing is s with
  | nil =>
      obtain rfl := Option.some.inj hfeed
      rwa [List.append_nil]
  | cons i js ih =>
      rw [feed_cons] at hfeed
      obtain ⟨s₁, hs₁, hrest⟩ := Option.bind_eq_some_iff.1 hfeed
      have hmore := ih (hstep is s i s₁ h hs₁) hrest
      rwa [List.append_assoc] at hmore

theorem accepts_iff_finish {is : List ι} {s : σ} {a : α} (h : A.feed A.initial is = some s) :
    A.Accepts is a ↔ A.finish s = some a := by
  simp [Accepts, h]

theorem accepts_comap_iff {f : κ → ι} {ks : List κ} {a : α} :
    (A.comap f).Accepts ks a ↔ A.Accepts (ks.map f) a := by
  simp only [Accepts, feed_comap]
  rfl

theorem Accepts.unique {is : List ι} {a b : α} (ha : A.Accepts is a) (hb : A.Accepts is b) :
    a = b := by
  obtain ⟨s, hs, hfinish⟩ := ha
  rw [accepts_iff_finish hs, hfinish] at hb
  exact Option.some.inj hb

end Feed

/-! ### The loop -/

section Run

variable {σ α : Type} {A : Automaton (Located Token) σ α} {stop : Nat} {s : σ}
  {ls : List (Located Token)}

theorem run_eq_ok_iff {a : α} :
    A.run stop s ls = .ok a ↔ ∃ s', A.feed s ls = some s' ∧ A.finish s' = some a := by
  induction ls generalizing s with
  | nil =>
      rw [run]
      rcases hf : A.finish s with - | b
      · simp [feed, hf]
      · simp [feed, hf]
  | cons l ls ih =>
      rw [run, feed_cons]
      rcases hs : A.step s l with - | s₁
      · simp
      · exact ih

/-- A run ends with an error at an item that is refused by the state before it. -/
theorem exists_of_run_eq_error {e : Unexpected Token} (h : A.run stop s ls = .error e) :
    ∃ k s', k ≤ ls.length ∧ A.feed s (ls.take k) = some s' ∧ ¬ A.Admits s' ls[k]? ∧
      e = A.unexpected (ls[k]?.map Located.value) (itemSpan stop ls k) s' := by
  induction ls generalizing s with
  | nil =>
      rw [run] at h
      rcases hf : A.finish s with - | a
      · rw [hf] at h
        obtain rfl := Except.error.inj h
        exact ⟨0, s, Nat.le_refl 0, rfl, by simp [Admits, hf], rfl⟩
      · rw [hf] at h
        cases h
  | cons l ls ih =>
      rw [run] at h
      rcases hs : A.step s l with - | s₁
      · rw [hs] at h
        obtain rfl := Except.error.inj h
        exact ⟨0, s, Nat.zero_le _, rfl, by simp [Admits, hs], rfl⟩
      · rw [hs] at h
        obtain ⟨k, s', hk, hfeed, hrefuse, he⟩ := ih h
        refine ⟨k + 1, s', Nat.succ_le_succ hk, ?_, hrefuse, he⟩
        rw [List.take_succ_cons, feed_cons, hs]
        exact hfeed

end Run

/-! ### Texts -/

section Read

variable {σ α : Type} {A : Automaton (Located Token) σ α} {source : String}
  {ls : List (Located Token)}

/-- Past the lexer, a text is read as its tokens are. -/
theorem read_of_lex (h : Token.lex source = .ok ls) :
    A.read source = (A.run source.length A.initial ls).mapError .grammatical := by
  rw [read, h]

theorem read_eq_ok_iff_accepts (h : Token.lex source = .ok ls) {a : α} :
    A.read source = .ok a ↔ A.Accepts ls a := by
  rw [read_of_lex h, mapError_eq_ok_iff, run_eq_ok_iff, Accepts]

/-- A text has a result exactly if it is cut into tokens and these are accepted. -/
theorem read_eq_ok_iff {a : α} :
    A.read source = .ok a ↔ ∃ ls, Token.lex source = .ok ls ∧ A.Accepts ls a := by
  constructor
  · intro h
    rcases hlex : Token.lex source with e | ls
    · simp [read, hlex] at h
    · exact ⟨ls, rfl, (read_eq_ok_iff_accepts hlex).1 h⟩
  · rintro ⟨ls, hlex, h⟩
    exact (read_eq_ok_iff_accepts hlex).2 h

/-- A text that has got past the lexer and has no result is refused in the loop, with one error. -/
theorem exists_error_of_rejected (h : Token.lex source = .ok ls)
    (hreject : ∀ a, A.read source ≠ .ok a) :
    ∃ e, A.run source.length A.initial ls = .error e ∧
      A.read source = .error (.grammatical e) := by
  have hread : A.read source = _ := read_of_lex h
  rcases hrun : A.run source.length A.initial ls with e | a
  · rw [hrun] at hread
    exact ⟨e, rfl, hread⟩
  · rw [hrun] at hread
    exact absurd hread (hreject a)

end Read

end Automaton

end NamedLambda
