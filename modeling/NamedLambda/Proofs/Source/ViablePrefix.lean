/-
NamedLambda/Proofs/Source/ViablePrefix.lean

Beginnings of sentences, and the first token that is impossible.

A list of tokens is viable if some sentence begins with it.  The first impossible token is the one
that makes a viable list into one that is not.  Both notions are about a grammar alone.

What ties them to the readers is that no reader is ever in a state without a way out: some tokens
lead from every state to the end of a sentence (`Recognizes.exists_completion`).  For terms these
are at most a variable, which is missing, and then a closing parenthesis for each one that is open.
So a reader gets through a list of tokens exactly if the list is viable, it refuses exactly the items
that cannot follow, and it reports an error where it meets the first impossible token.

All this is proved for automata (`Recognizes.exists_refusal`), which the readers of terms and of
commands both are.
-/
import NamedLambda.Proofs.Source.CommandReader

namespace NamedLambda

/-! ### Beginnings of sentences -/

section Grammar

variable (Sentence : List Token → Prop)

/-- The tokens `ts` are the beginning of a sentence. -/
def Viable (ts : List Token) : Prop :=
  ∃ us, Sentence (ts ++ us)

/-- An item can come after `ts`: a token if `ts` and it are the beginning of a sentence, and the end
of the input if `ts` is a sentence. -/
def CanFollow (ts : List Token) : Option Token → Prop
  | some token => Viable Sentence (ts ++ [token])
  | none => Sentence ts

/-- Token number `k` is the first one with which `ts` is no beginning of a sentence any more.  If
there is no such token, `k` is the number of all tokens. -/
structure FirstImpossible (ts : List Token) (k : Nat) : Prop where
  le_length : k ≤ ts.length
  viable : ∀ j < k, Viable Sentence (ts.take (j + 1))
  impossible : k < ts.length → ¬ Viable Sentence (ts.take (k + 1))

end Grammar

variable {Sentence : List Token → Prop}

theorem Viable.of_append {ts us : List Token} (h : Viable Sentence (ts ++ us)) :
    Viable Sentence ts := by
  obtain ⟨vs, hvs⟩ := h
  exact ⟨us ++ vs, by rwa [List.append_assoc] at hvs⟩

theorem Viable.take {ts : List Token} (h : Viable Sentence ts) (n : Nat) :
    Viable Sentence (ts.take n) := by
  rw [← List.take_append_drop n ts] at h
  exact h.of_append

/-- After viable tokens, one that cannot follow them is the first impossible one. -/
theorem firstImpossible_of_not_canFollow {ts : List Token} {k : Nat} (hk : k ≤ ts.length)
    (hviable : Viable Sentence (ts.take k)) (hnot : ¬ CanFollow Sentence (ts.take k) ts[k]?) :
    FirstImpossible Sentence ts k where
  le_length := hk
  viable := by
    intro j hj
    have hbefore := hviable.take (j + 1)
    rwa [List.take_take, Nat.min_eq_left hj] at hbefore
  impossible := by
    intro hlt
    rw [List.getElem?_eq_getElem hlt] at hnot
    rwa [List.take_succ_eq_append_getElem hlt]

/-- Where all tokens are viable, the first impossible item is the end of the input. -/
theorem firstImpossible_length {ts : List Token} (h : Viable Sentence ts) :
    FirstImpossible Sentence ts ts.length where
  le_length := Nat.le_refl ts.length
  viable j _ := h.take (j + 1)
  impossible hlt := absurd hlt (Nat.lt_irrefl ts.length)

theorem FirstImpossible.unique {ts : List Token} {j k : Nat} (hj : FirstImpossible Sentence ts j)
    (hk : FirstImpossible Sentence ts k) : j = k := by
  -- A token before the first impossible one is not impossible.
  have hle : ∀ {j k : Nat}, FirstImpossible Sentence ts j → FirstImpossible Sentence ts k →
      j ≤ k := by
    intro j k hj hk
    refine Nat.le_of_not_lt fun hlt => ?_
    exact hk.impossible (Nat.lt_of_lt_of_le hlt hj.le_length) (hj.viable k hlt)
  exact Nat.le_antisymm (hle hj hk) (hle hk hj)

/-! ### Automata and grammars -/

namespace Automaton

variable {σ α : Type} {A : Automaton (Located Token) σ α}

/-- The automaton accepts exactly the sentences, and it has no state without a way out. -/
structure Recognizes (A : Automaton (Located Token) σ α) (Sentence : List Token → Prop) :
    Prop where
  accepts_iff : ∀ ls, (∃ a, A.Accepts ls a) ↔ Sentence (ls.map Located.value)
  exists_completion : ∀ s, ∃ ls s', A.feed s ls = some s' ∧ (A.finish s').isSome

/-- The automaton gets through the beginnings of sentences. -/
theorem Recognizes.viable_iff (h : A.Recognizes Sentence) {ls : List (Located Token)} :
    Viable Sentence (ls.map Located.value) ↔ ∃ s, A.feed A.initial ls = some s := by
  constructor
  · rintro ⟨us, hus⟩
    obtain ⟨ms, rfl⟩ := exists_located us
    rw [← List.map_append, ← h.accepts_iff] at hus
    obtain ⟨a, s, hfeed, -⟩ := hus
    rw [feed_append] at hfeed
    obtain ⟨s', hs', -⟩ := Option.bind_eq_some_iff.1 hfeed
    exact ⟨s', hs'⟩
  · rintro ⟨s, hs⟩
    obtain ⟨ms, s', hfeed, hfinish⟩ := h.exists_completion s
    obtain ⟨a, ha⟩ := Option.isSome_iff_exists.1 hfinish
    refine ⟨ms.map Located.value, ?_⟩
    rw [← List.map_append, ← h.accepts_iff]
    exact ⟨a, s', by rw [feed_append, hs]; exact hfeed, ha⟩

/-- What can follow is what the automaton does not refuse. -/
theorem Recognizes.canFollow_iff (h : A.Recognizes Sentence) {ls : List (Located Token)} {s : σ}
    (hs : A.feed A.initial ls = some s) (item : Option (Located Token)) :
    CanFollow Sentence (ls.map Located.value) (item.map Located.value) ↔ A.Admits s item := by
  cases item with
  | none =>
      show Sentence (ls.map Located.value) ↔ (A.finish s).isSome = true
      rw [← h.accepts_iff, Option.isSome_iff_exists]
      exact exists_congr fun a => accepts_iff_finish hs
  | some l =>
      have hmap : ls.map Located.value ++ [l.value] = (ls ++ [l]).map Located.value := by simp
      show Viable Sentence (ls.map Located.value ++ [l.value]) ↔ (A.step s l).isSome = true
      rw [hmap, h.viable_iff, feed_append, hs, Option.isSome_iff_exists]
      exact exists_congr fun s' => by simp [feed]

/-- **An error is reported by the state before the first impossible token.** -/
theorem Recognizes.exists_refusal (h : A.Recognizes Sentence) {stop : Nat}
    {ls : List (Located Token)} {e : Unexpected Token} (he : A.run stop A.initial ls = .error e) :
    ∃ k s, FirstImpossible Sentence (ls.map Located.value) k ∧
      A.feed A.initial (ls.take k) = some s ∧
      e = A.unexpected (ls.map Located.value)[k]? (itemSpan stop ls k) s := by
  obtain ⟨k, s, hk, hfeed, hrefuse, rfl⟩ := exists_of_run_eq_error he
  refine ⟨k, s, firstImpossible_of_not_canFollow (by rwa [List.length_map]) ?_ ?_, hfeed, ?_⟩
  · rw [← List.map_take]
    exact h.viable_iff.2 ⟨s, hfeed⟩
  · rwa [← List.map_take, List.getElem?_map, h.canFollow_iff hfeed]
  · rw [List.getElem?_map]

end Automaton

/-! ### Terms -/

/-- The tokens `ts` are a term. -/
def IsTerm (ts : List Token) : Prop :=
  ∃ t, Derives .term ts t

namespace TermReader

theorem isTerm_iff_finish {ts : List Token} {r : TermReader}
    (h : automaton.feed (start []) ts = some r) : IsTerm ts ↔ r.finish.isSome := by
  rw [Option.isSome_iff_exists]
  exact exists_congr fun t => accepts_iff_derives.symm.trans (Automaton.accepts_iff_finish h)

/-- Closing parentheses complete a term. -/
theorem exists_completion_applying (t : Term) (stack : List Frame) :
    ∃ n r, automaton.feed (applying t stack) (List.replicate n .closeParen) = some r ∧
      r.finish.isSome := by
  induction stack generalizing t with
  | nil => exact ⟨0, applying t [], rfl, rfl⟩
  | cons frame stack ih =>
      cases frame with
      | binder x =>
          -- It makes no difference whether the abstraction is closed already.
          obtain ⟨n, r, hfeed, hfinish⟩ := ih (.abs x t)
          cases n with
          | zero =>
              obtain rfl := Option.some.inj hfeed
              exact ⟨0, _, rfl, hfinish⟩
          | succ n => exact ⟨n + 1, r, hfeed, hfinish⟩
      | group operator =>
          obtain ⟨n, r, hfeed, hfinish⟩ := ih (joined operator t)
          refine ⟨n + 1, r, ?_, hfinish⟩
          rw [List.replicate_succ, automaton.feed_cons]
          show (close t (.group operator :: stack)).bind _ = some r
          rw [close_group]
          exact hfeed

/-- Every reader can be brought to the end of a term. -/
theorem exists_completion (r : TermReader) :
    ∃ us r', automaton.feed r us = some r' ∧ r'.finish.isSome := by
  have happlying : ∀ (r : TermReader) (us : List Token) (t : Term) (stack : List Frame),
      automaton.feed r us = some (applying t stack) →
        ∃ us r', automaton.feed r us = some r' ∧ r'.finish.isSome := by
    intro r us t stack h
    obtain ⟨n, r', hfeed, hfinish⟩ := exists_completion_applying t stack
    refine ⟨us ++ List.replicate n .closeParen, r', ?_, hfinish⟩
    rw [automaton.feed_append, h]
    exact hfeed
  cases r with
  | start stack => exact happlying _ [.ident "x"] _ _ rfl
  | parameter stack => exact happlying _ [.ident "x", .dot, .ident "x"] _ _ rfl
  | dot x stack => exact happlying _ [.dot, .ident x] _ _ rfl
  | applying t stack => exact happlying _ [] t stack rfl

theorem recognizes : (automaton.comap Located.value).Recognizes IsTerm where
  accepts_iff _ :=
    exists_congr fun _ => Automaton.accepts_comap_iff.trans accepts_iff_derives
  exists_completion := by
    intro r
    obtain ⟨us, r', hfeed, hfinish⟩ := r.exists_completion
    obtain ⟨ls, rfl⟩ := exists_located us
    exact ⟨ls, r', by rwa [Automaton.feed_comap], hfinish⟩

end TermReader

/-! ### Commands -/

/-- The tokens `ts` are a list of commands. -/
def IsCommands (ts : List Token) : Prop :=
  ∃ cs, DerivesCommands ts cs

namespace CommandReader

theorem exists_follows (p : CommandPart) : ∃ r f, p.Follows r f := by
  cases p with
  | start => exact ⟨_, _, .start⟩
  | word x => exact ⟨_, _, .word x⟩
  | evaluated r => exact ⟨_, _, .evaluated r⟩
  | defined x sign viable r => exact ⟨_, _, .defined x sign viable r⟩

theorem recognizes : automaton.Recognizes IsCommands where
  accepts_iff _ := exists_congr fun _ => accepts_iff_derives
  exists_completion := by
    rintro ⟨finished, p⟩
    -- It is enough to complete the term that is being read.
    obtain ⟨r, f, hfollows⟩ := exists_follows p
    obtain ⟨us, r', hfeed, hfinish⟩ := r.exists_completion
    obtain ⟨ls, rfl⟩ := exists_located us
    obtain ⟨p', hp', hfollows'⟩ := feed_of_follows hfollows hfeed finished
    obtain ⟨t, ht⟩ := Option.isSome_iff_exists.1 hfinish
    have hcommands : finish ⟨finished, p'⟩ = some _ := finish_of_part (hfollows'.finish ht)
    exact ⟨ls, ⟨finished, p'⟩, hp', Option.isSome_iff_exists.2 ⟨_, hcommands⟩⟩

end CommandReader

end NamedLambda
