/-
NamedLambda/Proofs/Session/Conservation.lean

What a line leaves as it was.

Only two directives can change a session at all: the one for commands can define names, and the one
for the budget can choose another.  Every other line, and every line that cannot be read, leaves the
session as it was (`handle_of_quiet`, `handle_of_failure`).

A list of commands may fail in its midst, though.  Then the commands before the failing one were
carried out and nothing else was (`exists_failing_command`), so what is left of such a list is what
is left of commands that do not fail: their definitions, and one printed line for each of them
(`executeAll_of_none`).  That it is one line indeed is a fact about the names in it, which are
identifiers and have no newlines (`oneLine_executeAll`).

Main result: `handle_conserves`.
-/
import NamedLambda.Proofs.Environment.Define
import NamedLambda.Proofs.Session.BudgetText
import NamedLambda.Proofs.Session.ReadBack
import NamedLambda.Proofs.Session.Sequencing

namespace NamedLambda

open Term

/-! ### Printed lines -/

/-- The text has no newline in it, so that it is one line when it is printed. -/
def OneLine (s : String) : Prop :=
  '\n' ∉ s.toList

instance (s : String) : Decidable (OneLine s) :=
  inferInstanceAs (Decidable ('\n' ∉ s.toList))

theorem oneLine_append {s s' : String} : OneLine (s ++ s') ↔ OneLine s ∧ OneLine s' := by
  simp [OneLine, not_or]

theorem Name.oneLine {x : Name} (hx : x.isIdentifier) : OneLine x := by
  intro h
  exact absurd (not_isBlank_of_continue (isIdentifierContinue_of_mem hx h)) (by decide)

theorem oneLine_parenthesized {s : String} (h : OneLine s) : OneLine (parenthesized s) := by
  rw [parenthesized, oneLine_append, oneLine_append]
  exact ⟨⟨by decide, h⟩, by decide⟩

theorem Term.Writable.oneLine {t : Term} (ht : t.Writable) : OneLine t.toSource := by
  induction t with
  | var x => exact Name.oneLine ht
  | abs x b ih =>
      show OneLine ("\\" ++ x ++ "." ++ b.toSource)
      simp only [oneLine_append]
      exact ⟨⟨⟨by decide, Name.oneLine ht.1⟩, by decide⟩, ih ht.2⟩
  | app f a ihf iha =>
      have hf : OneLine (if f.isAbs then parenthesized f.toSource else f.toSource) := by
        split
        · exact oneLine_parenthesized (ihf ht.1)
        · exact ihf ht.1
      have ha : OneLine (if a.isVar then a.toSource else parenthesized a.toSource) := by
        split
        · exact iha ht.2
        · exact oneLine_parenthesized (iha ht.2)
      exact oneLine_append.2 ⟨oneLine_append.2 ⟨hf, by decide⟩, ha⟩

theorem count_newline_joinLines {lines : List String} (h : ∀ line ∈ lines, OneLine line) :
    (Reply.joinLines lines).toList.count '\n' = lines.length := by
  induction lines with
  | nil => rfl
  | cons line lines ih =>
      rw [List.forall_mem_cons] at h
      have hjoin : Reply.joinLines (line :: lines) = line ++ "\n" ++ Reply.joinLines lines := by
        simp [Reply.joinLines]
      rw [hjoin, String.toList_append, String.toList_append, List.count_append, List.count_append,
        ih h.2, List.count_eq_zero.2 h.1, List.length_cons]
      simp
      omega

/-! ### Lists of commands -/

/-- The definition that a command makes. -/
def Command.definition? : Command → Option (Name × Term)
  | .evaluate _ => none
  | .define x t => some (x, t)

/-- The definitions among commands, in their order. -/
def definitions (cs : List Command) : List (Name × Term) :=
  cs.filterMap Command.definition?

namespace Session

theorem next_of_execute {session next : Session} {c : Command} {line : String}
    (h : session.execute c = .ok (next, line)) : next = session.perform c := by
  rw [execute_eq] at h
  rcases hp : session.commandTerm c with e | p
  · rw [hp] at h
    cases h
  · rw [hp] at h
    exact (congrArg Prod.fst (Except.ok.inj h)).symm

/-- The session with definitions made one after the other. -/
def defineAll (session : Session) (history : List (Name × Term)) : Session :=
  ⟨session.environment.defineAll history, session.budget⟩

theorem defineAll_perform (session : Session) (c : Command) (cs : List Command) :
    (session.perform c).defineAll (definitions cs) = session.defineAll (definitions (c :: cs)) := by
  cases c with
  | evaluate t => rfl
  | define x t => rfl

/-- Commands that do not fail print a line each, and leave nothing in the session but their
definitions. -/
theorem executeAll_of_none {session : Session} {cs : List Command}
    (h : (session.executeAll cs).2.failure = none) :
    session.executeAll cs =
        (session.defineAll (definitions cs), .printing (session.executeAll cs).2.lines) ∧
      (session.executeAll cs).2.lines.length = cs.length := by
  induction cs generalizing session with
  | nil => exact ⟨rfl, rfl⟩
  | cons c cs ih =>
      rw [executeAll] at h ⊢
      rcases hc : session.execute c with e | ⟨next, line⟩
      · rw [hc] at h
        cases h
      · rw [hc] at h
        obtain ⟨hrest, hlength⟩ := ih h
        obtain rfl := next_of_execute hc
        dsimp only
        rw [hrest]
        exact ⟨by rw [defineAll_perform]; rfl, by simp [hlength, Reply.printing]⟩

theorem oneLine_commandTerm {session : Session} (hsession : session.environment.Writable)
    {c : Command} (hc : c.Writable) {p : Printed} (h : session.commandTerm c = .ok p) :
    OneLine p.line := by
  refine oneLine_append.2 ⟨?_, (writable_commandTerm hsession hc h).oneLine⟩
  cases c with
  | evaluate t =>
      rw [commandTerm] at h
      split at h
      · obtain rfl := Except.ok.inj h
        show OneLine ""
        decide
      · cases h
  | define x t =>
      obtain rfl := Except.ok.inj h
      exact oneLine_append.2 ⟨Name.oneLine hc.1, by decide⟩

theorem oneLine_executeAll {session : Session} (hsession : session.environment.Writable)
    {cs : List Command} (hcs : ∀ c ∈ cs, c.Writable) :
    ∀ line ∈ (session.executeAll cs).2.lines, OneLine line := by
  induction cs generalizing session with
  | nil => simp [executeAll, Reply.printing]
  | cons c cs ih =>
      rw [List.forall_mem_cons] at hcs
      rw [executeAll, execute_eq]
      rcases hp : session.commandTerm c with e | p
      · simp [Reply.failing]
      · exact List.forall_mem_cons.2
          ⟨oneLine_commandTerm hsession hcs.1 hp, ih (writable_perform hsession hcs.1) hcs.2⟩

/-- What is known of commands from the lines that they have printed without failing. -/
theorem executeAll_printing {session after : Session} {cs : List Command} {lines : List String}
    (h : session.executeAll cs = (after, .printing lines)) :
    after = session.defineAll (definitions cs) ∧ lines.length = cs.length ∧
      (session.environment.Writable → (∀ c ∈ cs, c.Writable) →
        (Reply.joinLines lines).toList.count '\n' = cs.length) := by
  have hlines : (session.executeAll cs).2.lines = lines := congrArg (·.2.lines) h
  obtain ⟨hdefine, hlength⟩ := executeAll_of_none (congrArg (·.2.failure) h)
  rw [hlines] at hlength
  refine ⟨congrArg Prod.fst (h.symm.trans hdefine), hlength, ?_⟩
  intro hsession hcs
  have hone := oneLine_executeAll hsession hcs
  rw [hlines] at hone
  rw [count_newline_joinLines hone, hlength]

/-- If commands fail, one of them fails after those before it were carried out. -/
theorem exists_failing_command {session : Session} {cs : List Command} {e : Failure}
    (h : (session.executeAll cs).2.failure = some e) :
    ∃ done c rest e', cs = done ++ c :: rest ∧
      session.executeAll done =
        ((session.executeAll cs).1, .printing (session.executeAll cs).2.lines) ∧
      (session.executeAll cs).1.execute c = .error e' ∧ e = .evaluation e' := by
  induction cs generalizing session with
  | nil => cases h
  | cons c cs ih =>
      rw [executeAll] at h ⊢
      rcases hc : session.execute c with e' | ⟨next, line⟩
      · rw [hc] at h
        exact ⟨[], c, cs, e', rfl, rfl, hc, (Option.some.inj h).symm⟩
      · rw [hc] at h
        obtain ⟨done, d, rest, e', hcs, hdone, hd, he⟩ := ih h
        refine ⟨c :: done, d, rest, e', by rw [hcs, List.cons_append], ?_, hd, he⟩
        rw [executeAll, hc]
        dsimp only
        rw [hdone]
        rfl

/-! ### Choosing a budget -/

theorem chooseBudget_failure (session : Session) (argument : String) :
    (session.chooseBudget argument).2.failure = none := by
  unfold chooseBudget
  dsimp only
  split
  · rfl
  · split <;> rfl

theorem chooseBudget_of_writes {argument : String} {n : Nat} (session : Session)
    (h : WritesBudget (trim argument) n) :
    (session.chooseBudget argument).1 = ⟨session.environment, n⟩ := by
  have hread : readBudget (trim argument) = .ok n := (readBudget_eq_ok_iff h.ne_empty).2 h
  have hempty : (trim argument).isEmpty = false := by simpa using h.ne_empty
  simp [chooseBudget, hempty, hread]

/-- The budget stays if none is written, whether it is asked for or an invalid one is given. -/
theorem chooseBudget_of_not_writes {argument : String} (session : Session)
    (h : ¬ ∃ n, WritesBudget (trim argument) n) : (session.chooseBudget argument).1 = session := by
  unfold chooseBudget
  dsimp only
  split
  · rfl
  · next hempty =>
      have hne : trim argument ≠ "" := by simpa using hempty
      split
      · next n hread => exact absurd ⟨n, (readBudget_eq_ok_iff hne).1 hread⟩ h
      · rfl

/-! ### Lines -/

section

variable (session : Session) {line : String}

/-- A line of commands is carried out if it can be read. -/
theorem handle_evaluate (h : Directive.ofName? (Directive.splitLine line).1 = some .evaluate) :
    (∃ cs, parseCommands (Directive.splitLine line).2 = .ok cs ∧
        session.handle line = session.executeAll cs) ∨
      ∃ e, session.handle line = (session, .failing (.source e)) := by
  simp only [handle, h, evaluate]
  rcases parseCommands (Directive.splitLine line).2 with e | cs
  · exact Or.inr ⟨e, rfl⟩
  · exact Or.inl ⟨cs, rfl, rfl⟩

theorem handle_budget (h : Directive.ofName? (Directive.splitLine line).1 = some .budget) :
    session.handle line = session.chooseBudget (Directive.splitLine line).2 := by
  simp only [handle, h]

/-- A line with another directive, or with an unknown one, leaves the session as it was, and prints
nothing if it fails. -/
theorem handle_of_quiet
    (hevaluate : Directive.ofName? (Directive.splitLine line).1 ≠ some .evaluate)
    (hbudget : Directive.ofName? (Directive.splitLine line).1 ≠ some .budget) :
    (session.handle line).1 = session ∧
      ((session.handle line).2.failure ≠ none → (session.handle line).2.lines = []) := by
  rcases h : Directive.ofName? (Directive.splitLine line).1 with - | directive
  · simp [handle, h]
  cases directive with
  | query q =>
      simp only [handle, h]
      rcases session.ask (Directive.splitLine line).2 q with e | lines
      · exact ⟨rfl, fun _ => rfl⟩
      · exact ⟨rfl, fun hfailure => absurd rfl hfailure⟩
  | budget => exact absurd h hbudget
  | evaluate => exact absurd h hevaluate

/-- A line that fails leaves the session as it was and prints nothing, unless it is a list of
commands of which one fails. -/
theorem handle_of_failure {e : Failure} (h : (session.handle line).2.failure = some e)
    (he : (∃ e', e = .source e') ∨
      Directive.ofName? (Directive.splitLine line).1 ≠ some .evaluate) :
    (session.handle line).1 = session ∧ Reply.joinLines (session.handle line).2.lines = "" := by
  by_cases hevaluate : Directive.ofName? (Directive.splitLine line).1 = some .evaluate
  · obtain ⟨e', rfl⟩ := he.resolve_right (not_not_intro hevaluate)
    rcases handle_evaluate session hevaluate with ⟨cs, -, hhandle⟩ | ⟨e, hhandle⟩
    · -- No command fails because it cannot be read.
      rw [hhandle] at h
      obtain ⟨_, _, _, _, -, -, -, hne⟩ := exists_failing_command h
      cases hne
    · rw [hhandle]
      exact ⟨rfl, rfl⟩
  by_cases hbudget : Directive.ofName? (Directive.splitLine line).1 = some .budget
  · rw [handle_budget session hbudget, chooseBudget_failure] at h
    cases h
  · obtain ⟨hsession, hlines⟩ := handle_of_quiet session hevaluate hbudget
    refine ⟨hsession, ?_⟩
    rw [hlines (by simp [h])]
    rfl

/-- If a command of a line fails, then those before it were carried out, and no others. -/
theorem handle_of_command_failure
    (hdirective : Directive.ofName? (Directive.splitLine line).1 = some .evaluate)
    {e : EvaluationError} (h : (session.handle line).2.failure = some (.evaluation e)) :
    ∃ done c rest, parseCommands (Directive.splitLine line).2 = .ok (done ++ c :: rest) ∧
      session.executeAll done =
        ((session.handle line).1, .printing (session.handle line).2.lines) ∧
      (session.handle line).1.execute c = .error e := by
  rcases handle_evaluate session hdirective with ⟨cs, hcs, hhandle⟩ | ⟨e', hhandle⟩
  · rw [hhandle] at h ⊢
    obtain ⟨done, c, rest, e', rfl, hdone, hc, he⟩ := exists_failing_command h
    obtain rfl := Failure.evaluation.inj he
    exact ⟨done, c, rest, hcs, hdone, hc⟩
  · rw [hhandle] at h
    cases h

/-- If a line does not fail, the session after it depends on the directive: there are definitions
made by commands, a budget that is written, or nothing new. -/
theorem handle_of_success (h : (session.handle line).2.failure = none) :
    (Directive.ofName? (Directive.splitLine line).1 = some .evaluate →
      ∃ cs, parseCommands (Directive.splitLine line).2 = .ok cs ∧
        (session.handle line).1 = session.defineAll (definitions cs)) ∧
    (Directive.ofName? (Directive.splitLine line).1 = some .budget →
      (∀ n, WritesBudget (trim (Directive.splitLine line).2) n →
        (session.handle line).1 = ⟨session.environment, n⟩) ∧
      ((¬ ∃ n, WritesBudget (trim (Directive.splitLine line).2) n) →
        (session.handle line).1 = session)) ∧
    (Directive.ofName? (Directive.splitLine line).1 ≠ some .evaluate →
      Directive.ofName? (Directive.splitLine line).1 ≠ some .budget →
        (session.handle line).1 = session) := by
  refine ⟨?_, ?_, ?_⟩
  · intro hevaluate
    rcases handle_evaluate session hevaluate with ⟨cs, hcs, hhandle⟩ | ⟨e, hhandle⟩
    · rw [hhandle] at h ⊢
      exact ⟨cs, hcs, congrArg Prod.fst (executeAll_of_none h).1⟩
    · rw [hhandle] at h
      cases h
  · intro hbudget
    rw [handle_budget session hbudget]
    exact ⟨fun n hn => chooseBudget_of_writes session hn, chooseBudget_of_not_writes session⟩
  · intro hevaluate hbudget
    exact (handle_of_quiet session hevaluate hbudget).1

end

/-- **A line that fails, or that only asks for something, leaves the session as it was.**  A line
that cannot be read changes nothing and prints nothing, and neither does one whose evaluation fails,
if it is no list of commands.  If a list of commands fails, the session is the one after the
definitions before the failing command, with the same budget, and the commands before it have
printed a line each.  If a line does not fail, only definitions on a line of commands can have
changed the environment, and only a line that writes a budget can have changed the budget. -/
theorem handle_conserves (session : Session) (line : String) :
    let directive := Directive.ofName? (Directive.splitLine line).1
    let argument := (Directive.splitLine line).2
    let after := (session.handle line).1
    let reply := (session.handle line).2
    (∀ e, reply.failure = some (.source e) →
      after = session ∧ Reply.joinLines reply.lines = "") ∧
    (∀ e, reply.failure = some (.evaluation e) → directive ≠ some .evaluate →
      after = session ∧ Reply.joinLines reply.lines = "") ∧
    (∀ e, reply.failure = some (.evaluation e) → directive = some .evaluate →
      ∃ done c rest, parseCommands argument = .ok (done ++ c :: rest) ∧
        session.executeAll done = (after, .printing reply.lines) ∧ after.execute c = .error e ∧
        after = session.defineAll (definitions done) ∧ reply.lines.length = done.length ∧
        (session.environment.Writable →
          (Reply.joinLines reply.lines).toList.count '\n' = done.length)) ∧
    (reply.failure = none →
      (directive = some .evaluate →
        ∃ cs, parseCommands argument = .ok cs ∧ after = session.defineAll (definitions cs)) ∧
      (directive = some .budget →
        (∀ n, WritesBudget (trim argument) n → after = ⟨session.environment, n⟩) ∧
        ((¬ ∃ n, WritesBudget (trim argument) n) → after = session)) ∧
      (directive ≠ some .evaluate → directive ≠ some .budget → after = session)) := by
  intro directive argument after reply
  refine ⟨?_, ?_, ?_, ?_⟩
  · intro e h
    exact handle_of_failure session h (Or.inl ⟨e, rfl⟩)
  · intro e h hdirective
    exact handle_of_failure session h (Or.inr hdirective)
  · intro e h hdirective
    obtain ⟨done, c, rest, hcs, hdone, hc⟩ := handle_of_command_failure session hdirective h
    obtain ⟨hafter, hlength, hcount⟩ := executeAll_printing hdone
    have hwritable : ∀ d ∈ done, d.Writable := fun d hd =>
      writable_of_parseCommands hcs d (List.mem_append_left _ hd)
    exact ⟨done, c, rest, hcs, hdone, hc, hafter, hlength,
      fun hsession => hcount hsession hwritable⟩
  · exact handle_of_success session

/-- A list of commands of which the second one diverges, a term that is no numeral, one that cannot
be read, a budget with a sign, and one with a letter in it. -/
theorem handle_conserves_broken_off :
    let session : Session := ⟨∅, 3⟩
    let broken := "k = y; (\\x.x x) (\\x.x x); k = z"
    ((session.handle broken).2.failure =
        some (.evaluation (.divergence ⟨.normalOrder true, 3⟩)) ∧
      (session.handle broken).1 = session.defineAll [("k", .var "y")] ∧
      (Reply.joinLines (session.handle broken).2.lines).toList.count '\n' = 1) ∧
    ((session.handle ":num \\x.x").2.failure = some (.evaluation (.shape .number)) ∧
      (session.handle ":num \\x.x").1 = session) ∧
    (session.handle ":parse (x").1 = session ∧
    (session.handle ": budget  +05 ").1 = ⟨∅, 5⟩ ∧
    (session.handle ":budget 1e3").1 = session := by
  intro session broken
  obtain ⟨-, -, hcommand, -⟩ := handle_conserves session broken
  obtain ⟨-, hquery, -, -⟩ := handle_conserves session ":num \\x.x"
  obtain ⟨hsource, -, -, -⟩ := handle_conserves session ":parse (x"
  obtain ⟨-, -, -, hvalid⟩ := handle_conserves session ": budget  +05 "
  obtain ⟨-, -, -, hinvalid⟩ := handle_conserves session ":budget 1e3"
  have hfailure : (session.handle broken).2.failure =
      some (.evaluation (.divergence ⟨.normalOrder true, 3⟩)) := by
    decide +kernel
  have hshape : (session.handle ":num \\x.x").2.failure =
      some (.evaluation (.shape .number)) := by
    decide +kernel
  refine ⟨⟨hfailure, ?_⟩, ⟨hshape, (hquery _ hshape (by decide +kernel)).1⟩, ?_, ?_, ?_⟩
  · obtain ⟨done, c, rest, hcs, -, -, hafter, hlength, hcount⟩ :=
      hcommand _ hfailure (by decide +kernel)
    -- One line was printed, so the first command is all that was carried out.
    have hone : done.length = 1 := by
      rw [← hlength]
      decide +kernel
    have hread : parseCommands (Directive.splitLine broken).2 =
        .ok [.define "k" (.var "y"),
          .evaluate (.app (.abs "x" (.app (.var "x") (.var "x")))
            (.abs "x" (.app (.var "x") (.var "x")))),
          .define "k" (.var "z")] := by
      decide +kernel
    have hdone : done = [.define "k" (.var "y")] := by
      have hsplit := Except.ok.inj (hcs.symm.trans hread)
      have htake := congrArg (List.take done.length) hsplit
      rwa [List.take_left, hone] at htake
    refine ⟨?_, ?_⟩
    · rw [hafter, hdone]
      rfl
    · rw [hcount Environment.writable_empty, hone]
  · have hfailure : (session.handle ":parse (x").2.failure =
        some (.source (.grammatical
          ⟨none, [some .openParen, some .closeParen], ⟨2, 3⟩⟩)) := by
      decide +kernel
    exact (hsource _ hfailure).1
  · have htrim : trim (Directive.splitLine ": budget  +05 ").2 = "+05" := by decide +kernel
    have hwrites : WritesBudget "+05" 5 :=
      ⟨['0', '5'], by decide, Or.inr rfl, List.all_eq_true.1 rfl, rfl, by decide⟩
    obtain ⟨-, hbudget, -⟩ := hvalid (by decide +kernel)
    rw [htrim] at hbudget
    exact (hbudget (by decide +kernel)).1 5 hwrites
  · have htrim : trim (Directive.splitLine ":budget 1e3").2 = "1e3" := by decide +kernel
    obtain ⟨-, hbudget, -⟩ := hinvalid (by decide +kernel)
    rw [htrim] at hbudget
    refine (hbudget (by decide +kernel)).2 ?_
    rintro ⟨n, hn⟩
    have hread := (readBudget_eq_ok_iff (by decide)).2 hn
    have herror : readBudget "1e3" = .error .invalidDigit := by decide +kernel
    rw [herror] at hread
    cases hread

end Session

end NamedLambda
