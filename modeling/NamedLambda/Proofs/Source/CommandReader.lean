/-
NamedLambda/Proofs/Source/CommandReader.lean

The grammar of commands, and that the reader of commands agrees with it.

A command is read by a reader of terms with a little around it: the name and the sign of a
definition stand before the term, and a single identifier is kept until it is known whether it is
such a name.  So what is known of the reader of terms carries over in both directions.  Of what has
been read it says which tokens lead to a part of a command (`CommandPart.Consumed`), and of what is
derived it says how the reader gets on with it (`CommandPart.Follows`).  A semicolon is no token of
a term, so it is always the end of a command.

Main facts: `CommandReader.accepts_iff_derives` and `DerivesCommands.unique`.
-/
import NamedLambda.Proofs.Source.TermPrefix
import NamedLambda.Source.CommandReader

namespace NamedLambda

/-! ### The grammar -/

/-- The tokens `ts` are the command `c`: a name, an equals sign and a term, or a term alone. -/
inductive DerivesCommand : List Token → Command → Prop
  | define {ts : List Token} {t : Term} (x : Name) :
      Derives .term ts t → DerivesCommand (.ident x :: .equals :: ts) (.define x t)
  | evaluate {ts : List Token} {t : Term} :
      Derives .term ts t → DerivesCommand ts (.evaluate t)

/-- The tokens `ts` are at least one command, with semicolons between commands. -/
inductive DerivesSequence : List Token → List Command → Prop
  | single {ts : List Token} {c : Command} : DerivesCommand ts c → DerivesSequence ts [c]
  | more {ts us : List Token} {cs : List Command} {c : Command} :
      DerivesSequence ts cs → DerivesCommand us c →
        DerivesSequence (ts ++ .semicolon :: us) (cs ++ [c])

/-- The tokens `ts` are a list of commands.  A semicolon may stand after the last one. -/
inductive DerivesCommands : List Token → List Command → Prop
  | empty : DerivesCommands [] []
  | sequence {ts : List Token} {cs : List Command} :
      DerivesSequence ts cs → DerivesCommands ts cs
  | trailing {ts : List Token} {cs : List Command} :
      DerivesSequence ts cs → DerivesCommands (ts ++ [.semicolon]) cs

/-! ### Tokens that are in no term -/

namespace TermReader

theorem step_equals (r : TermReader) : r.step .equals = none := by
  cases r <;> rfl

theorem step_semicolon (r : TermReader) : r.step .semicolon = none := by
  cases r <;> rfl

end TermReader

/-! ### What has been read of a command -/

namespace CommandPart

/-- The tokens `ts` lead to the part `p` of a command. -/
inductive Consumed : List Token → CommandPart → Prop
  | start : Consumed [] start
  | word (x : Name) : Consumed [.ident x] (word x)
  | evaluated {ts : List Token} {r : TermReader} : r.Consumed ts → Consumed ts (evaluated r)
  | defined {ts : List Token} {r : TermReader} (x : Name) (sign : Span) (viable : Bool) :
      r.Consumed ts → Consumed (.ident x :: .equals :: ts) (defined x sign viable r)

/-- What has been read of a command stays known with every token more. -/
theorem Consumed.step {ts : List Token} {p p' : CommandPart} {token : Located Token}
    (h : Consumed ts p) (hstep : p.step token = some p') :
    Consumed (ts ++ [token.value]) p' := by
  obtain ⟨value, span⟩ := token
  cases h with
  | start =>
      cases value with
      | ident x =>
          obtain rfl := Option.some.inj hstep
          exact .word x
      | _ =>
          simp only [CommandPart.step, Option.map_eq_some_iff] at hstep
          obtain ⟨r, hr, rfl⟩ := hstep
          exact .evaluated (TermReader.consumed_start.step hr)
  | word x =>
      -- The word is the operator of an application unless it is the name of a definition.
      have hword : TermReader.Consumed [.ident x] (.applying (.var x) []) :=
        TermReader.consumed_start.step rfl
      cases value with
      | equals =>
          obtain rfl := Option.some.inj hstep
          exact .defined x span false TermReader.consumed_start
      | _ =>
          simp only [CommandPart.step, Option.map_eq_some_iff] at hstep
          obtain ⟨r, hr, rfl⟩ := hstep
          exact .evaluated (hword.step hr)
  | evaluated hread =>
      obtain ⟨r, hr, rfl⟩ := Option.map_eq_some_iff.1 hstep
      exact .evaluated (hread.step hr)
  | defined x sign viable hread =>
      obtain ⟨r, hr, rfl⟩ := Option.map_eq_some_iff.1 hstep
      exact .defined x sign _ (hread.step hr)

theorem Consumed.derives_of_finish {ts : List Token} {p : CommandPart} {c : Command}
    (h : Consumed ts p) (hfinish : p.finish = some c) : DerivesCommand ts c := by
  cases h with
  | start => cases hfinish
  | word x =>
      obtain rfl := Option.some.inj hfinish
      exact .evaluate (.application (.single (.ident x)))
  | evaluated hread =>
      obtain ⟨t, ht, rfl⟩ := Option.map_eq_some_iff.1 hfinish
      exact .evaluate (hread.derives_of_finish ht)
  | defined x _ _ hread =>
      obtain ⟨t, ht, rfl⟩ := Option.map_eq_some_iff.1 hfinish
      exact .define x (hread.derives_of_finish ht)

/-! ### How a command is read -/

/-- The part `p` reads a term as `r` does, and `f` makes the command of it. -/
inductive Follows : CommandPart → TermReader → (Term → Command) → Prop
  | start : Follows start (.start []) .evaluate
  | word (x : Name) : Follows (word x) (.applying (.var x) []) .evaluate
  | evaluated (r : TermReader) : Follows (evaluated r) r .evaluate
  | defined (x : Name) (sign : Span) (viable : Bool) (r : TermReader) :
      Follows (defined x sign viable r) r (.define x)

variable {p : CommandPart} {r r' : TermReader} {f : Term → Command}

theorem Follows.finish (h : Follows p r f) {t : Term} (ht : r.finish = some t) :
    p.finish = some (f t) := by
  have hmap : p.finish = r.finish.map f := by cases h <;> rfl
  rw [hmap, ht, Option.map_some]

theorem Follows.step (h : Follows p r f) {token : Located Token}
    (hstep : r.step token.value = some r') :
    ∃ p', p.step token = some p' ∧ Follows p' r' f := by
  obtain ⟨value, span⟩ := token
  cases h with
  | start =>
      cases value with
      | ident x =>
          obtain rfl := Option.some.inj hstep
          exact ⟨_, rfl, .word x⟩
      | _ => exact ⟨_, congrArg (Option.map CommandPart.evaluated) hstep, .evaluated r'⟩
  | word x =>
      cases value with
      | equals =>
          rw [TermReader.step_equals] at hstep
          cases hstep
      | _ => exact ⟨_, congrArg (Option.map CommandPart.evaluated) hstep, .evaluated r'⟩
  | evaluated r => exact ⟨_, congrArg (Option.map CommandPart.evaluated) hstep, .evaluated r'⟩
  | defined x sign viable r =>
      refine ⟨_, ?_, .defined x sign (viable || r'.finish.isSome) r'⟩
      rw [CommandPart.step, hstep, Option.map_some]

end CommandPart

/-! ### Lists of commands -/

namespace CommandReader

theorem automaton_step (r : CommandReader) (token : Located Token) :
    automaton.step r token = r.step token := rfl

/-! ### One more token -/

theorem step_of_semicolon (r : CommandReader) {token : Located Token}
    (h : token.value = .semicolon) :
    r.step token = r.part.finish.map fun c => ⟨c :: r.finished, .start⟩ := by
  rw [step, h]

theorem step_of_ne_semicolon (r : CommandReader) {token : Located Token}
    (h : token.value ≠ .semicolon) :
    r.step token = (r.part.step token).map fun p => ⟨r.finished, p⟩ := by
  obtain ⟨value, span⟩ := token
  cases value with
  | semicolon => exact absurd rfl h
  | _ => rfl

/-- The text can end after a whole command. -/
theorem finish_of_part {finished : List Command} {p : CommandPart} {c : Command}
    (h : p.finish = some c) :
    finish ⟨finished, p⟩ = some (finished.reverse ++ [c]) := by
  cases p with
  | start => cases h
  | _ => simp [finish, h]

/-! ### What has been read of a list of commands -/

/-- The tokens `ts` are the commands `cs`, each with a semicolon after it. -/
inductive Terminated : List Token → List Command → Prop
  | nil : Terminated [] []
  | snoc {ts us : List Token} {cs : List Command} {c : Command} :
      Terminated ts cs → DerivesCommand us c → Terminated (ts ++ us ++ [.semicolon]) (cs ++ [c])

/-- The tokens `ts` lead to the state `r`. -/
def Consumed (ts : List Token) (r : CommandReader) : Prop :=
  ∃ us vs, ts = us ++ vs ∧ Terminated us r.finished.reverse ∧ r.part.Consumed vs

theorem Consumed.step {ts : List Token} {r r' : CommandReader} {token : Located Token}
    (h : Consumed ts r) (hstep : r.step token = some r') : Consumed (ts ++ [token.value]) r' := by
  obtain ⟨us, vs, rfl, hfinished, hpart⟩ := h
  by_cases hsemi : token.value = .semicolon
  · rw [step_of_semicolon r hsemi] at hstep
    obtain ⟨c, hc, rfl⟩ := Option.map_eq_some_iff.1 hstep
    have hmore := hfinished.snoc (hpart.derives_of_finish hc)
    refine ⟨us ++ vs ++ [.semicolon], [], by simp [hsemi], ?_, .start⟩
    simpa using hmore
  · rw [step_of_ne_semicolon r hsemi] at hstep
    obtain ⟨p, hp, rfl⟩ := Option.map_eq_some_iff.1 hstep
    exact ⟨us, vs ++ [token.value], by simp, hfinished, hpart.step hp⟩

theorem consumed_of_feed {ls : List (Located Token)} {r : CommandReader}
    (h : automaton.feed ⟨[], .start⟩ ls = some r) : Consumed (ls.map Located.value) r := by
  have hstart : Consumed (List.map Located.value []) ⟨[], .start⟩ := ⟨[], [], rfl, .nil, .start⟩
  refine Automaton.feed_preserves (P := fun ls r => Consumed (ls.map Located.value) r) ?_ hstart h
  intro ls r l r' hread hstep
  rw [List.map_append]
  exact hread.step hstep

/-- A command after terminated ones makes a sequence. -/
theorem Terminated.sequence {ts us : List Token} {cs : List Command} {c : Command}
    (h : Terminated ts cs) (hc : DerivesCommand us c) :
    DerivesSequence (ts ++ us) (cs ++ [c]) := by
  induction h generalizing us c with
  | nil => exact .single hc
  | snoc _ hd ih =>
      have hmore := DerivesSequence.more (ih hd) hc
      simpa using hmore

theorem Terminated.commands {ts : List Token} {cs : List Command} (h : Terminated ts cs) :
    DerivesCommands ts cs := by
  cases h with
  | nil => exact .empty
  | snoc h hc => exact .trailing (h.sequence hc)

theorem Consumed.derives_of_finish {ts : List Token} {r : CommandReader} {cs : List Command}
    (h : Consumed ts r) (hfinish : r.finish = some cs) : DerivesCommands ts cs := by
  obtain ⟨finished, p⟩ := r
  obtain ⟨us, vs, rfl, hfinished, hpart⟩ := h
  rcases hp : p.finish with - | c
  · -- Nothing has been read since the last semicolon.
    cases p with
    | start =>
        obtain rfl := Option.some.inj hfinish
        cases hpart
        simpa using hfinished.commands
    | _ => simp [finish, hp] at hfinish
  · rw [finish_of_part hp] at hfinish
    obtain rfl := Option.some.inj hfinish
    exact .sequence (hfinished.sequence (hpart.derives_of_finish hp))

/-! ### How a list of commands is read -/

/-- While a term is read no command is finished. -/
theorem feed_of_follows {p : CommandPart} {r r' : TermReader} {f : Term → Command}
    {ls : List (Located Token)} (h : p.Follows r f)
    (hfeed : TermReader.automaton.feed r (ls.map Located.value) = some r')
    (finished : List Command) :
    ∃ p', automaton.feed ⟨finished, p⟩ ls = some ⟨finished, p'⟩ ∧ p'.Follows r' f := by
  induction ls generalizing p r with
  | nil =>
      obtain rfl := Option.some.inj hfeed
      exact ⟨p, rfl, h⟩
  | cons l ls ih =>
      rw [List.map_cons, TermReader.automaton.feed_cons, TermReader.automaton_step] at hfeed
      obtain ⟨r₁, hstep, hrest⟩ := Option.bind_eq_some_iff.1 hfeed
      obtain ⟨p₁, hp₁, hfollows⟩ := h.step hstep
      obtain ⟨p', hp', hfollows'⟩ := ih hfollows hrest
      have hsemi : l.value ≠ .semicolon := by
        intro heq
        rw [heq, TermReader.step_semicolon] at hstep
        cases hstep
      refine ⟨p', ?_, hfollows'⟩
      rw [automaton.feed_cons, automaton_step, step_of_ne_semicolon _ hsemi, hp₁]
      exact hp'

/-- A command is read to its end without being finished. -/
theorem feed_of_derivesCommand {ls : List (Located Token)} {c : Command}
    (h : DerivesCommand (ls.map Located.value) c) (finished : List Command) :
    ∃ p, automaton.feed ⟨finished, .start⟩ ls = some ⟨finished, p⟩ ∧ p.finish = some c := by
  generalize hts : ls.map Located.value = ts at h
  cases h with
  | @evaluate _ t ht =>
      subst hts
      obtain ⟨r, hr, hrt⟩ := TermReader.accepts_of_derives ht
      obtain ⟨p, hp, hfollows⟩ := feed_of_follows .start hr finished
      exact ⟨p, hp, hfollows.finish hrt⟩
  | @define ts t x ht =>
      obtain ⟨name, ls, rfl, hname, hrest⟩ := List.map_eq_cons_iff.1 hts
      obtain ⟨sign, ls, rfl, hsign, rfl⟩ := List.map_eq_cons_iff.1 hrest
      obtain ⟨r, hr, hrt⟩ := TermReader.accepts_of_derives ht
      have hdefined : CommandPart.Follows (.defined x sign.span false (.start [])) (.start [])
          (.define x) := .defined x sign.span false (.start [])
      obtain ⟨p, hp, hfollows⟩ := feed_of_follows hdefined hr finished
      refine ⟨p, ?_, hfollows.finish hrt⟩
      -- The name is a word until the sign makes it a name.
      obtain ⟨_, nameSpan⟩ := name
      obtain ⟨_, signSpan⟩ := sign
      subst hname
      subst hsign
      exact hp

/-- A sequence of commands is read to the end of its last command. -/
theorem feed_of_derivesSequence {ls : List (Located Token)} {cs : List Command}
    (h : DerivesSequence (ls.map Located.value) cs) :
    ∃ ds p c, automaton.feed ⟨[], .start⟩ ls = some ⟨ds, p⟩ ∧ p.finish = some c ∧
      cs = ds.reverse ++ [c] := by
  generalize hts : ls.map Located.value = ts at h
  induction h generalizing ls with
  | @single ts c hc =>
      subst hts
      obtain ⟨p, hp, hpc⟩ := feed_of_derivesCommand hc []
      exact ⟨[], p, c, hp, hpc, rfl⟩
  | @more ts us cs c _ hc ih =>
      obtain ⟨ls₁, ls₂, rfl, hls₁, hls₂⟩ := List.map_eq_append_iff.1 hts
      obtain ⟨semi, ls₃, rfl, hsemi, rfl⟩ := List.map_eq_cons_iff.1 hls₂
      obtain ⟨ds, p, d, hfeed, hpd, rfl⟩ := ih hls₁
      obtain ⟨p', hp', hpc⟩ := feed_of_derivesCommand hc (d :: ds)
      refine ⟨d :: ds, p', c, ?_, hpc, by simp⟩
      rw [automaton.feed_append, hfeed, Option.bind_some, automaton.feed_cons, automaton_step,
        step_of_semicolon _ hsemi, hpd]
      exact hp'

theorem accepts_of_derives {ls : List (Located Token)} {cs : List Command}
    (h : DerivesCommands (ls.map Located.value) cs) : automaton.Accepts ls cs := by
  generalize hts : ls.map Located.value = ts at h
  cases h with
  | empty =>
      obtain rfl := List.map_eq_nil_iff.1 hts
      exact ⟨_, rfl, rfl⟩
  | sequence h =>
      subst hts
      obtain ⟨ds, p, c, hfeed, hpc, rfl⟩ := feed_of_derivesSequence h
      exact ⟨⟨ds, p⟩, hfeed, finish_of_part hpc⟩
  | trailing h =>
      obtain ⟨ls₁, ls₂, rfl, rfl, hls₂⟩ := List.map_eq_append_iff.1 hts
      obtain ⟨semi, ls₃, rfl, hsemi, hls₃⟩ := List.map_eq_cons_iff.1 hls₂
      obtain rfl := List.map_eq_nil_iff.1 hls₃
      obtain ⟨ds, p, c, hfeed, hpc, rfl⟩ := feed_of_derivesSequence h
      have hread : automaton.feed automaton.initial ls₁ = some ⟨ds, p⟩ := hfeed
      have hfinish : finish ⟨c :: ds, .start⟩ = some (ds.reverse ++ [c]) := by simp [finish]
      refine ⟨⟨c :: ds, .start⟩, ?_, hfinish⟩
      rw [automaton.feed_append, hread, Option.bind_some, automaton.feed_cons, automaton_step,
        step_of_semicolon _ hsemi, hpc]
      rfl

/-! ### Reader and grammar -/

/-- **The reader accepts a list of tokens exactly if the grammar derives commands from it**, and
then gives these commands. -/
theorem accepts_iff_derives {ls : List (Located Token)} {cs : List Command} :
    automaton.Accepts ls cs ↔ DerivesCommands (ls.map Located.value) cs := by
  constructor
  · rintro ⟨r, hfeed, hfinish⟩
    exact (consumed_of_feed hfeed).derives_of_finish hfinish
  · exact accepts_of_derives

end CommandReader

/-- A list of tokens stands for at most one list of commands. -/
theorem DerivesCommands.unique {ts : List Token} {cs ds : List Command}
    (hcs : DerivesCommands ts cs) (hds : DerivesCommands ts ds) : cs = ds := by
  obtain ⟨ls, rfl⟩ := exists_located ts
  exact (CommandReader.accepts_of_derives hcs).unique (CommandReader.accepts_of_derives hds)

end NamedLambda
