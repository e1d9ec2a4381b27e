/-
NamedLambda/Proofs/Source/CommandError.lean

The place of the report on a text that is no list of commands.

The reader of commands stops at the first impossible token, like that of terms, and mostly this is
what it reports.  There is one exception.  After the equals sign of a definition the reader has to
get some term before it forgets that the definition might have been a term itself.  If it stops
before any beginning of what comes after the sign was a term, it reports the sign, although the sign
was in its place (`HasBareSign`).  So a parenthesis that is never closed is reported at the end of
the text, but at the sign if it stands right after the sign (`parseCommands_misplaced`).

The reader knows of such a sign by a flag in its state.  That the flag says what it should is proved
in two directions: what a state says of the tokens before it is kept with every token more
(`SignKnown`), and after a sign the state remains the one that was entered there as long as there is
no term (`feed_after_sign`).
-/
import Mathlib.Data.List.Infix
import NamedLambda.Proofs.Source.Acceptance
import NamedLambda.Proofs.Source.ViablePrefix

namespace NamedLambda

/-- Token number `j` is an equals sign, and no beginning of what comes after it is a term. -/
def HasBareSign (ts : List Token) (j : Nat) : Prop :=
  ∃ us vs, ts = us ++ .equals :: vs ∧ us.length = j ∧ ∀ ws, ws <+: vs → ¬ IsTerm ws

theorem HasBareSign.lt_length {ts : List Token} {j : Nat} (h : HasBareSign ts j) :
    j < ts.length := by
  obtain ⟨us, vs, rfl, rfl, -⟩ := h
  simp

theorem not_isTerm_nil : ¬ IsTerm [] := by
  rintro ⟨t, ht⟩
  exact ht.ne_nil rfl

namespace CommandPart

/-- The place of the sign that the reader still has doubts about. -/
def pendingSign : CommandPart → Option Span
  | defined _ sign false _ => some sign
  | _ => none

theorem span_unexpected (p : CommandPart) (found : Option Token) (span : Span) :
    (p.unexpected found span).span = p.pendingSign.getD span := by
  cases p with
  | defined x sign viable r => cases viable <;> rfl
  | _ => rfl

/-- The term of a definition is begun by the sign and goes on with tokens of its own. -/
theorem step_eq_defined {p : CommandPart} {l : Located Token} {x : Name} {sign : Span}
    {viable : Bool} {r : TermReader} (h : p.step l = some (defined x sign viable r)) :
    (l.value = .equals ∧ l.span = sign ∧ r = .start []) ∨
      ∃ viable₀ r₀, p = defined x sign viable₀ r₀ ∧ r₀.step l.value = some r ∧
        viable = (viable₀ || r.finish.isSome) := by
  obtain ⟨value, span⟩ := l
  cases p with
  | start => cases value <;> simp [step] at h
  | word y =>
      cases value with
      | equals =>
          cases h
          exact .inl ⟨rfl, rfl, rfl⟩
      | _ => simp [step] at h
  | evaluated r₀ => simp [step] at h
  | defined y sign₀ viable₀ r₀ =>
      obtain ⟨r₁, hr₁, heq⟩ := Option.map_eq_some_iff.1 h
      cases heq
      exact .inr ⟨viable₀, r₀, rfl, hr₁, rfl⟩

/-- What the part `p` says about the tokens `ls` that have led to it. -/
def SignKnown (ls : List (Located Token)) (p : CommandPart) : Prop :=
  ∀ x sign viable r, p = defined x sign viable r →
    ∃ us l vs, ls = us ++ l :: vs ∧ l.value = .equals ∧ l.span = sign ∧
      TermReader.automaton.feed (.start []) (vs.map Located.value) = some r ∧
      (viable = false → ∀ ws, ws <+: vs.map Located.value → ¬ IsTerm ws)

end CommandPart

namespace CommandReader

open CommandPart

/-! ### What the state says about the sign -/

/-- An equals sign in its place is the sign of a definition. -/
theorem part_of_step_equals {r r' : CommandReader} {l : Located Token} (hl : l.value = .equals)
    (h : r.step l = some r') : ∃ x, r'.part = .defined x l.span false (.start []) := by
  obtain ⟨finished, p⟩ := r
  obtain ⟨_, span⟩ := l
  subst hl
  rw [step_of_ne_semicolon _ (by simp)] at h
  obtain ⟨p', hp', rfl⟩ := Option.map_eq_some_iff.1 h
  cases p with
  | start => cases hp'
  | word x =>
      obtain rfl := Option.some.inj hp'
      exact ⟨x, rfl⟩
  | evaluated r => simp [CommandPart.step, TermReader.step_equals] at hp'
  | defined x sign viable r => simp [CommandPart.step, TermReader.step_equals] at hp'

theorem signKnown_step {ls : List (Located Token)} {r r' : CommandReader} {l : Located Token}
    (h : SignKnown ls r.part) (hstep : r.step l = some r') : SignKnown (ls ++ [l]) r'.part := by
  intro x sign viable q hpart
  by_cases hsemi : l.value = .semicolon
  · rw [step_of_semicolon r hsemi] at hstep
    obtain ⟨c, -, rfl⟩ := Option.map_eq_some_iff.1 hstep
    cases hpart
  · rw [step_of_ne_semicolon r hsemi] at hstep
    obtain ⟨p, hp, rfl⟩ := Option.map_eq_some_iff.1 hstep
    obtain rfl : p = .defined x sign viable q := hpart
    rcases step_eq_defined hp with ⟨hl, hspan, rfl⟩ | ⟨viable₀, q₀, hpart, hq, rfl⟩
    · -- A sign has just been read, and nothing after it.
      refine ⟨ls, l, [], rfl, hl, hspan, rfl, fun _ ws hws => ?_⟩
      rw [List.prefix_nil.1 hws]
      exact not_isTerm_nil
    · obtain ⟨us, l', vs, rfl, hl', hspan, hfeed, hno⟩ := h _ _ _ _ hpart
      have hfeed' := Automaton.feed_concat hfeed hq
      refine ⟨us, l', vs ++ [l], by simp, hl', hspan, by simpa using hfeed', ?_⟩
      intro hviable ws hws
      obtain ⟨hold, hnew⟩ := Bool.or_eq_false_iff.1 hviable
      rw [List.map_append, List.map_singleton] at hws
      rcases List.prefix_concat_iff.1 hws with rfl | hws
      · rw [TermReader.isTerm_iff_finish hfeed', hnew]
        exact Bool.false_ne_true
      · exact hno hold ws hws

/-- After a sign the state remains the one that was entered there until there is a term. -/
theorem feed_after_sign {vs ls : List (Located Token)} {cs : List Command} {x : Name} {sign : Span}
    {q : TermReader} {r : CommandReader}
    (hq : TermReader.automaton.feed (.start []) (vs.map Located.value) = some q)
    (hno : ∀ ws, ws <+: (vs ++ ls).map Located.value → ¬ IsTerm ws)
    (h : automaton.feed ⟨cs, .defined x sign false q⟩ ls = some r) :
    ∃ q', r.part = .defined x sign false q' := by
  induction ls generalizing vs q with
  | nil =>
      obtain rfl := Option.some.inj h
      exact ⟨q, rfl⟩
  | cons l ls ih =>
      rw [automaton.feed_cons, automaton_step] at h
      obtain ⟨r₁, hr₁, hrest⟩ := Option.bind_eq_some_iff.1 h
      have hterm : ¬ IsTerm (vs.map Located.value) := hno _ (by simp)
      rw [TermReader.isTerm_iff_finish hq, Option.not_isSome_iff_eq_none] at hterm
      by_cases hsemi : l.value = .semicolon
      · -- A semicolon would need a whole definition before it.
        rw [step_of_semicolon _ hsemi, CommandPart.finish, hterm] at hr₁
        cases hr₁
      · rw [step_of_ne_semicolon _ hsemi] at hr₁
        obtain ⟨p, hp, rfl⟩ := Option.map_eq_some_iff.1 hr₁
        obtain ⟨q₁, hq₁, rfl⟩ := Option.map_eq_some_iff.1 hp
        have hfeed : TermReader.automaton.feed (.start []) ((vs ++ [l]).map Located.value) =
            some q₁ := by
          rw [List.map_append]
          exact Automaton.feed_concat hq hq₁
        have hnone : ¬ IsTerm ((vs ++ [l]).map Located.value) := hno _ (by simp)
        rw [TermReader.isTerm_iff_finish hfeed, Option.not_isSome_iff_eq_none] at hnone
        rw [hnone] at hrest
        exact ih hfeed (by simpa using hno) hrest

/-- The reader has its doubts about a bare sign. -/
theorem pendingSign_of_hasBareSign {ls : List (Located Token)} {r : CommandReader}
    (h : automaton.feed ⟨[], .start⟩ ls = some r) {j : Nat} (hj : HasBareSign (ls.map Located.value) j)
    (stop : Nat) : r.part.pendingSign = some (itemSpan stop ls j) := by
  obtain ⟨us, vs, hts, rfl, hno⟩ := hj
  obtain ⟨ls₁, rest, rfl, rfl, hrest⟩ := List.map_eq_append_iff.1 hts
  obtain ⟨l, ls₂, rfl, hl, rfl⟩ := List.map_eq_cons_iff.1 hrest
  rw [automaton.feed_append] at h
  obtain ⟨r₀, -, h⟩ := Option.bind_eq_some_iff.1 h
  rw [automaton.feed_cons] at h
  obtain ⟨⟨cs, p⟩, hstep, h⟩ := Option.bind_eq_some_iff.1 h
  obtain ⟨x, hx⟩ := part_of_step_equals hl hstep
  obtain rfl : p = .defined x l.span false (.start []) := hx
  have hempty : TermReader.automaton.feed (.start []) (List.map Located.value []) =
      some (.start []) := rfl
  obtain ⟨q, hq⟩ := feed_after_sign hempty hno h
  rw [List.length_map, itemSpan_append, hq]
  rfl

/-- It has no doubts about any other. -/
theorem pendingSign_eq_none {ls : List (Located Token)} {r : CommandReader}
    (h : automaton.feed ⟨[], .start⟩ ls = some r) (hbare : ¬ ∃ j, HasBareSign (ls.map Located.value) j) :
    r.part.pendingSign = none := by
  have hstart : SignKnown [] CommandPart.start := by
    intro x sign viable q hpart
    cases hpart
  have hknown : SignKnown ls r.part := by
    refine Automaton.feed_preserves (P := fun ls r => SignKnown ls r.part) ?_ hstart h
    intro ls r l r' hknown hstep
    exact signKnown_step hknown hstep
  rcases hp : r.part with - | x | q | ⟨x, sign, viable, q⟩
  · rfl
  · rfl
  · rfl
  · cases viable with
    | true => rfl
    | false =>
        obtain ⟨us, l, vs, rfl, hl, -, -, hno⟩ := hknown x sign false q hp
        refine absurd ⟨us.length, us.map Located.value, vs.map Located.value, ?_, ?_, hno rfl⟩ hbare
        · simp [hl]
        · simp

end CommandReader

/-! ### The report -/

/-- **The place of the report on a text that is no list of commands.**  Where no definition is
broken off before any of it was a term, it is the place of the first impossible item.  Otherwise it
is the sign of that definition. -/
theorem parseCommands_refusal_position {source : String} {ls : List (Located Token)}
    (hlex : Token.lex source = .ok ls) (hreject : ∀ cs, parseCommands source ≠ .ok cs) :
    ∃ (k : Nat) (error : SourceError),
      let ts := ls.map Located.value
      FirstImpossible IsCommands ts k ∧ parseCommands source = .error error ∧
        ((¬ ∃ j, HasBareSign (ts.take k) j) →
          error.report.position = (itemSpan source.length ls k).start) ∧
        ∀ j, HasBareSign (ts.take k) j →
          error.report.position = (itemSpan source.length ls j).start := by
  obtain ⟨e, hrun, hparse⟩ := Automaton.exists_error_of_rejected hlex hreject
  obtain ⟨k, r, hfirst, hread, rfl⟩ := CommandReader.recognizes.exists_refusal hrun
  refine ⟨k, _, hfirst, hparse, ?_, ?_⟩
  · intro hbare
    rw [← List.map_take] at hbare
    have hspan := r.part.span_unexpected (ls.map Located.value)[k]? (itemSpan source.length ls k)
    rw [CommandReader.pendingSign_eq_none hread hbare, Option.getD_none] at hspan
    exact congrArg Span.start hspan
  · intro j hj
    have hlt : j < k := by
      have hlength := hj.lt_length
      rw [List.length_take] at hlength
      exact Nat.lt_of_lt_of_le hlength (Nat.min_le_left _ _)
    rw [← List.map_take] at hj
    have hspan := r.part.span_unexpected (ls.map Located.value)[k]? (itemSpan source.length ls k)
    rw [CommandReader.pendingSign_of_hasBareSign hread hj source.length, Option.getD_some,
      itemSpan_take source.length ls hlt] at hspan
    exact congrArg Span.start hspan

/-- A second definition lacks a closing parenthesis.  All of its tokens are in place, but its sign is
reported and not the end. -/
theorem parseCommands_refusal_position_second :
    let source := "f = \\x.x; g = (y"
    let ls : List (Located Token) :=
      [⟨.ident "f", ⟨0, 1⟩⟩, ⟨.equals, ⟨2, 3⟩⟩, ⟨.lambda, ⟨4, 5⟩⟩, ⟨.ident "x", ⟨5, 6⟩⟩,
        ⟨.dot, ⟨6, 7⟩⟩, ⟨.ident "x", ⟨7, 8⟩⟩, ⟨.semicolon, ⟨8, 9⟩⟩, ⟨.ident "g", ⟨10, 11⟩⟩,
        ⟨.equals, ⟨12, 13⟩⟩, ⟨.openParen, ⟨14, 15⟩⟩, ⟨.ident "y", ⟨15, 16⟩⟩]
    Token.lex source = .ok ls ∧ (∀ cs, parseCommands source ≠ .ok cs) ∧
      FirstImpossible IsCommands (ls.map Located.value) 11 ∧
      HasBareSign ((ls.map Located.value).take 11) 8 ∧
      ∃ error, parseCommands source = .error error ∧ error.report.position = 12 := by
  intro source ls
  have hlex : Token.lex source = .ok ls := by decide +kernel
  have hreject : ∀ cs, parseCommands source ≠ .ok cs := by
    intro cs h
    rw [parseCommands, Automaton.read_of_lex hlex] at h
    cases h
  have hfirst : FirstImpossible IsCommands (ls.map Located.value) 11 :=
    firstImpossible_length (CommandReader.recognizes.viable_iff.2 ⟨_, rfl⟩)
  have hbare : HasBareSign ((ls.map Located.value).take 11) 8 := by
    refine ⟨(ls.map Located.value).take 8, [.openParen, .ident "y"], rfl, rfl, ?_⟩
    intro ws hws
    rw [← List.mem_inits] at hws
    simp only [List.inits, List.map_cons, List.map_nil, List.mem_cons, List.not_mem_nil,
      or_false] at hws
    rcases hws with rfl | rfl | rfl
    · exact not_isTerm_nil
    · rw [TermReader.isTerm_iff_finish rfl]
      exact Bool.false_ne_true
    · rw [TermReader.isTerm_iff_finish rfl]
      exact Bool.false_ne_true
  obtain ⟨k, error, hk, herror, -, hposition⟩ := parseCommands_refusal_position hlex hreject
  obtain rfl := hk.unique hfirst
  exact ⟨hlex, hreject, hfirst, hbare, error, herror, hposition 8 hbare⟩

/-- So it is not always the first impossible item that is reported: the text `x = (y` is only
incomplete, but the report is on its sign. -/
theorem parseCommands_misplaced :
    ¬ ∀ (source : String) (ls : List (Located Token)) (k : Nat) (error : SourceError),
      Token.lex source = .ok ls → parseCommands source = .error error →
        FirstImpossible IsCommands (ls.map Located.value) k →
          error.report.position = (itemSpan source.length ls k).start := by
  intro h
  let source := "x = (y"
  let ls : List (Located Token) :=
    [⟨.ident "x", ⟨0, 1⟩⟩, ⟨.equals, ⟨2, 3⟩⟩, ⟨.openParen, ⟨4, 5⟩⟩, ⟨.ident "y", ⟨5, 6⟩⟩]
  let e : Unexpected Token := ⟨some .equals, [some .openParen, some .semicolon, none], ⟨2, 3⟩⟩
  have hlex : Token.lex source = .ok ls := by decide +kernel
  have hparse : parseCommands source = .error (.grammatical e) := by
    rw [parseCommands, Automaton.read_of_lex hlex]
    rfl
  have hviable : Viable IsCommands (ls.map Located.value) :=
    CommandReader.recognizes.viable_iff.2 ⟨_, rfl⟩
  have hposition : 2 = source.length := h source ls 4 _ hlex hparse (firstImpossible_length hviable)
  have hlength : source.length = 6 := by decide +kernel
  omega

end NamedLambda
