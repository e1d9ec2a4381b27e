/-
NamedLambda/Proofs/Session/ReadBack.lean

Whatever a session prints as a term can be read back.

The texts of an answer do not say which terms they are made of, so the terms are computed beside
them: `Session.terms` lists the terms of an answer with the labels that are printed before them, and
the lines of the answer are their texts (`lines_handle`).  All these terms are read from the line,
taken from the environment or made from such terms by resolving and reducing, so they can be written
if the names in the environment can (`writable_terms`).  For the same reason no line stores a name
in the environment that could not be written (`writable_handle`).

Main result: `terms_readBack`.
-/
import NamedLambda.Proofs.Writable
import NamedLambda.Session.Basic

namespace NamedLambda

open Term

/-! ### The terms of an answer -/

/-- A term that is printed behind a label. -/
structure Printed where
  label : String
  term : Term
deriving DecidableEq, Repr

/-- The line that is printed. -/
def Printed.line (p : Printed) : String :=
  p.label ++ p.term.toSource

/-- Whether the answer to a query is made of terms. -/
def Query.showsTerms : Query → Bool
  | parse | reduce _ | trace | definitions => true
  | tokenize | number | truth | freeVariables | help => false

/-- Whether the answer to a directive is made of terms. -/
def Directive.showsTerms : Directive → Bool
  | query q => q.showsTerms
  | budget => false
  | evaluate => true

namespace Session

/-- The terms that a query prints. -/
def queryTerms (session : Session) (argument : String) : Query → Except Failure (List Printed)
  | .parse => do
      let t ← readTerm argument
      return [⟨"", t⟩]
  | .reduce s => do
      let t ← session.resolveTerm argument
      let u ← (s.reduce session.budget t).mapError (.evaluation ∘ .divergence)
      return [⟨"", u⟩]
  | .trace => do
      let t ← session.resolveTerm argument
      let us ← ((Strategy.normalOrder true).trace session.budget t).mapError
        (.evaluation ∘ .divergence)
      return ⟨"   ", t⟩ :: us.map fun u => ⟨"-> ", u⟩
  | .definitions => .ok (session.environment.definitions.map fun d => ⟨d.1 ++ " = ", d.2⟩)
  | _ => .ok []

/-- The term that a command prints. -/
def commandTerm (session : Session) : Command → Except EvaluationError Printed
  | .evaluate t =>
      match (session.environment.resolve t).normalForm session.budget with
      | .ok u => .ok ⟨"", u⟩
      | .error e => .error (.divergence e)
  | .define x t => .ok ⟨x ++ " = ", session.environment.resolve t⟩

/-- The session after a command that does not fail. -/
def perform (session : Session) : Command → Session
  | .evaluate _ => session
  | .define x t => ⟨session.environment.define x t, session.budget⟩

/-- The terms that commands print until one of them fails. -/
def commandTerms (session : Session) : List Command → List Printed
  | [] => []
  | c :: cs =>
      match session.commandTerm c with
      | .error _ => []
      | .ok p => p :: (session.perform c).commandTerms cs

/-- The terms that are printed in answer to a line. -/
def terms (session : Session) (line : String) : List Printed :=
  let (name, argument) := Directive.splitLine line
  match Directive.ofName? name with
  | some (.query q) =>
      match session.queryTerms argument q with
      | .error _ => []
      | .ok printed => printed
  | some .evaluate =>
      match parseCommands argument with
      | .error _ => []
      | .ok commands => session.commandTerms commands
  | _ => []

/-! ### The lines of an answer -/

theorem ask_eq {q : Query} (hq : q.showsTerms) (session : Session) (argument : String) :
    session.ask argument q = List.map Printed.line <$> session.queryTerms argument q := by
  cases q with
  | parse => simp [ask, queryTerms, Printed.line]
  | reduce s => simp [ask, queryTerms, Printed.line]
  | trace => simp [ask, queryTerms, traceLines, Printed.line, Function.comp_def]
  | definitions => simp [ask, queryTerms, definitionLine, Printed.line]
  | _ => cases hq

theorem execute_eq (session : Session) (c : Command) :
    session.execute c = (fun p => (session.perform c, p.line)) <$> session.commandTerm c := by
  cases c with
  | evaluate t =>
      rw [execute, commandTerm]
      rcases (session.environment.resolve t).normalForm session.budget with e | u
      · rfl
      · simp [perform, Printed.line]
  | define x t => rfl

/-- What is printed before a command fails is what was printed for the commands before it. -/
theorem lines_executeAll (session : Session) (cs : List Command) :
    (session.executeAll cs).2.lines = (session.commandTerms cs).map Printed.line := by
  induction cs generalizing session with
  | nil => rfl
  | cons c cs ih =>
      rw [executeAll, commandTerms, execute_eq]
      rcases session.commandTerm c with e | p
      · rfl
      · show p.line :: ((session.perform c).executeAll cs).2.lines = _
        rw [ih, List.map_cons]

/-- The lines of an answer are the texts of its terms, with the labels before them. -/
theorem lines_handle (session : Session) {line : String} {directive : Directive}
    (h : Directive.ofName? (Directive.splitLine line).1 = some directive)
    (hshows : directive.showsTerms) :
    (session.handle line).2.lines = (session.terms line).map Printed.line := by
  cases directive with
  | query q =>
      simp only [handle, terms, h, ask_eq hshows]
      rcases session.queryTerms (Directive.splitLine line).2 q with e | printed
      · rfl
      · rfl
  | budget => cases hshows
  | evaluate =>
      simp only [handle, terms, h, evaluate]
      rcases parseCommands (Directive.splitLine line).2 with e | cs
      · rfl
      · exact session.lines_executeAll cs

/-! ### The names in an answer -/

theorem exists_of_bind_eq_ok {ε α β : Type} {x : Except ε α} {f : α → Except ε β} {b : β}
    (h : x >>= f = .ok b) : ∃ a, x = .ok a ∧ f a = .ok b := by
  rcases x with e | a
  · cases h
  · exact ⟨a, rfl, h⟩

theorem writable_of_readTerm {argument : String} {t : Term} (h : readTerm argument = .ok t) :
    t.Writable := by
  rw [readTerm, mapError_eq_ok_iff] at h
  exact writable_of_parseTerm h

section

variable {session : Session} (hsession : session.environment.Writable)
include hsession

theorem writable_of_resolveTerm {argument : String} {t : Term}
    (h : session.resolveTerm argument = .ok t) : t.Writable := by
  obtain ⟨u, hu, hresolve⟩ := exists_of_bind_eq_ok h
  obtain rfl : session.environment.resolve u = t := Except.ok.inj hresolve
  exact hsession.resolve (writable_of_readTerm hu)

/-- Everything that a query prints as a term can be written. -/
theorem writable_queryTerms {q : Query} {argument : String} {printed : List Printed}
    (h : session.queryTerms argument q = .ok printed) : ∀ p ∈ printed, p.term.Writable := by
  cases q with
  | parse =>
      obtain ⟨t, ht, h⟩ := exists_of_bind_eq_ok h
      obtain rfl := Except.ok.inj h
      simp only [List.forall_mem_singleton]
      exact writable_of_readTerm ht
  | reduce s =>
      obtain ⟨t, ht, h⟩ := exists_of_bind_eq_ok h
      obtain ⟨u, hu, h⟩ := exists_of_bind_eq_ok h
      obtain rfl := Except.ok.inj h
      simp only [List.forall_mem_singleton]
      exact Strategy.writable_of_reduce (mapError_eq_ok_iff.1 hu)
        (writable_of_resolveTerm hsession ht)
  | trace =>
      obtain ⟨t, ht, h⟩ := exists_of_bind_eq_ok h
      obtain ⟨us, hus, h⟩ := exists_of_bind_eq_ok h
      obtain rfl := Except.ok.inj h
      have hwritable := writable_of_resolveTerm hsession ht
      simp only [List.forall_mem_cons, List.forall_mem_map]
      exact ⟨hwritable, Strategy.writable_of_trace (mapError_eq_ok_iff.1 hus) hwritable⟩
  | definitions =>
      obtain rfl := Except.ok.inj h
      simp only [List.forall_mem_map]
      exact fun d hd => (hsession d hd).2
  | _ =>
      obtain rfl := Except.ok.inj h
      simp

theorem writable_commandTerm {c : Command} (hc : c.Writable) {p : Printed}
    (h : session.commandTerm c = .ok p) : p.term.Writable := by
  cases c with
  | evaluate t =>
      rw [commandTerm] at h
      rcases hu : (session.environment.resolve t).normalForm session.budget with e | u
      · simp [hu] at h
      · rw [hu] at h
        obtain rfl := Except.ok.inj h
        exact Strategy.writable_of_reduce hu (hsession.resolve hc)
  | define x t =>
      obtain rfl := Except.ok.inj h
      exact hsession.resolve hc.2

theorem writable_perform {c : Command} (hc : c.Writable) :
    (session.perform c).environment.Writable := by
  cases c with
  | evaluate t => exact hsession
  | define x t => exact hsession.define hc.1 hc.2

end

theorem writable_commandTerms {session : Session} (hsession : session.environment.Writable)
    {cs : List Command} (hcs : ∀ c ∈ cs, c.Writable) :
    ∀ p ∈ session.commandTerms cs, p.term.Writable := by
  induction cs generalizing session with
  | nil => simp [commandTerms]
  | cons c cs ih =>
      rw [List.forall_mem_cons] at hcs
      rw [commandTerms]
      rcases hp : session.commandTerm c with e | p
      · simp
      · simp only [List.forall_mem_cons]
        exact ⟨writable_commandTerm hsession hcs.1 hp, ih (writable_perform hsession hcs.1) hcs.2⟩

/-- No command stores a name that cannot be written. -/
theorem writable_executeAll {session : Session} (hsession : session.environment.Writable)
    {cs : List Command} (hcs : ∀ c ∈ cs, c.Writable) :
    (session.executeAll cs).1.environment.Writable := by
  induction cs generalizing session with
  | nil => exact hsession
  | cons c cs ih =>
      rw [List.forall_mem_cons] at hcs
      rw [executeAll, execute_eq]
      rcases session.commandTerm c with e | p
      · exact hsession
      · exact ih (writable_perform hsession hcs.1) hcs.2

theorem environment_chooseBudget (session : Session) (argument : String) :
    (session.chooseBudget argument).1.environment = session.environment := by
  unfold chooseBudget
  dsimp only
  split
  · rfl
  · split <;> rfl

/-- No line stores a name that cannot be written. -/
theorem writable_handle {session : Session} (hsession : session.environment.Writable)
    (line : String) : (session.handle line).1.environment.Writable := by
  rcases h : Directive.ofName? (Directive.splitLine line).1 with - | directive
  · simpa only [handle, h] using hsession
  cases directive with
  | query q =>
      rcases hq : session.ask (Directive.splitLine line).2 q with e | lines
      · simpa only [handle, h, hq] using hsession
      · simpa only [handle, h, hq] using hsession
  | budget => simpa only [handle, h, environment_chooseBudget] using hsession
  | evaluate =>
      rcases hcs : parseCommands (Directive.splitLine line).2 with e | cs
      · simpa only [handle, h, evaluate, hcs] using hsession
      · simpa only [handle, h, evaluate, hcs] using
          writable_executeAll hsession (writable_of_parseCommands hcs)

theorem writable_terms {session : Session} (hsession : session.environment.Writable)
    (line : String) : ∀ p ∈ session.terms line, p.term.Writable := by
  rcases h : Directive.ofName? (Directive.splitLine line).1 with - | directive
  · simp [terms, h]
  cases directive with
  | query q =>
      rcases hq : session.queryTerms (Directive.splitLine line).2 q with e | printed
      · simp [terms, h, hq]
      · simpa only [terms, h, hq] using writable_queryTerms hsession hq
  | budget => simp [terms, h]
  | evaluate =>
      rcases hcs : parseCommands (Directive.splitLine line).2 with e | cs
      · simp [terms, h, hcs]
      · simpa only [terms, h, hcs] using
          writable_commandTerms hsession (writable_of_parseCommands hcs)

/-! ### Reading back -/

/-- The sessions that lines lead to from the one in which nothing was said. -/
inductive Reachable : Session → Prop
  | initial : Reachable initial
  | handle {session : Session} (line : String) :
      Reachable session → Reachable (session.handle line).1

theorem Reachable.writable {session : Session} (h : Reachable session) :
    session.environment.Writable := by
  induction h with
  | initial => exact Environment.writable_empty
  | handle line _ ih => exact writable_handle ih line

/-- **Every term that a session prints can be read back.**  After any lines, all names in the
definitions can be written.  Let the next line be one that is answered with terms: a list of
commands, or a directive to parse, to reduce, to trace or to show the definitions.  Then the lines
of the answer are the texts of its terms, with the labels before them, and the text of each term is
parsed to that very term. -/
theorem terms_readBack {session : Session} (h : Reachable session) :
    session.environment.Writable ∧
      ∀ (line : String) (directive : Directive),
        Directive.ofName? (Directive.splitLine line).1 = some directive → directive.showsTerms →
          (session.handle line).2.lines = (session.terms line).map Printed.line ∧
            ∀ p ∈ session.terms line, parseTerm p.term.toSource = .ok p.term := by
  refine ⟨h.writable, ?_⟩
  intro line directive hdirective hshows
  refine ⟨session.lines_handle hdirective hshows, ?_⟩
  intro p hp
  have hwritable : p.term.Writable := writable_terms h.writable line p hp
  exact parseTerm_of_spells (spells_render rfl rfl hwritable) (derives_tokens p.term).1

/-- The name `z1` stands for a renamed binder in the definition of `f` and is free in the last line,
where a binder of this name gets the next number.  The line before it is refused. -/
theorem terms_readBack_renamed :
    let session := ((initial.handle "y = z; f = \\z.y z").1.handle "f z1 (").1
    let line := ":tr (\\x.\\z1.x z1) (f z1)"
    session.Reachable ∧
      session.environment.definitions =
        [("f", abs "z1" (app (var "z") (var "z1"))), ("y", var "z")] ∧
      Directive.ofName? (Directive.splitLine line).1 = some (.query .trace) ∧
      (session.handle line).2.lines =
        ["   (\\x.\\z1.x z1) ((\\z1.z z1) z1)",
          "-> \\z2.(\\z1.z z1) z1 z2",
          "-> \\z2.z z1 z2"] ∧
      ∀ p ∈ session.terms line, parseTerm p.term.toSource = .ok p.term := by
  intro session line
  have hreachable : session.Reachable := (Reachable.initial.handle _).handle _
  obtain ⟨-, hreadBack⟩ := terms_readBack hreachable
  have hdirective : Directive.ofName? (Directive.splitLine line).1 = some (.query .trace) := by
    decide +kernel
  obtain ⟨hlines, hterms⟩ := hreadBack line (.query .trace) hdirective rfl
  refine ⟨hreachable, by decide +kernel, hdirective, ?_, hterms⟩
  rw [hlines]
  decide +kernel

end Session

end NamedLambda
