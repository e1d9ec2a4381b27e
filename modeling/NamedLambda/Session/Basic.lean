/-
NamedLambda/Session/Basic.lean

A session: the definitions made and the step budget chosen so far, and the answer to each line.

A line that is refused or whose evaluation fails changes nothing, except that a list of commands is
carried out up to the one that fails.
-/
import NamedLambda.Church.Evaluation
import NamedLambda.Environment
import NamedLambda.Session.BudgetText
import NamedLambda.Session.Directive
import NamedLambda.Source.CommandReader
import NamedLambda.Term.Printer

namespace NamedLambda

/-- The state of a session. -/
structure Session where
  environment : Environment
  budget : Nat
deriving DecidableEq, Repr

/-- Why a line failed. -/
inductive Failure where
  /-- The argument cannot be read. -/
  | source (e : SourceError)
  /-- A term has no result. -/
  | evaluation (e : EvaluationError)
deriving DecidableEq, Repr

/-- The answer to a line. -/
structure Reply where
  /-- What is printed, line by line. -/
  lines : List String
  /-- What is printed aside, as a warning. -/
  warnings : List String
  failure : Option Failure
deriving DecidableEq, Repr

namespace Reply

/-- An answer that prints some lines and no more. -/
def printing (lines : List String) : Reply :=
  ⟨lines, [], none⟩

/-- An answer that fails without printing anything. -/
def failing (e : Failure) : Reply :=
  ⟨[], [], some e⟩

/-- Each line of a text ends with a newline. -/
def joinLines (lines : List String) : String :=
  String.join (lines.map (· ++ "\n"))

end Reply

namespace Session

/-- The session in which nothing was said yet. -/
def initial : Session :=
  ⟨∅, defaultBudget⟩

instance : Inhabited Session := ⟨initial⟩

/-! ### Queries -/

/-- The texts of the tokens of a source, with a space between them. -/
def tokenize (argument : String) : Except Failure (List String) :=
  match Token.lex argument with
  | .error e => .error (.source (.lexical e))
  | .ok tokens => .ok [" ".intercalate (tokens.map (·.value.text))]

/-- The term of a source, as it is written. -/
def readTerm (argument : String) : Except Failure Term :=
  (parseTerm argument).mapError .source

/-- The term of a source, with the definitions put in. -/
def resolveTerm (session : Session) (argument : String) : Except Failure Term :=
  (readTerm argument).map session.environment.resolve

/-- A set of names in braces. -/
def bracedNames (s : NameSet) : String :=
  "\x7b" ++ ", ".intercalate s.names ++ "\x7d"

/-- The steps from a term to its normal form, the term itself first. -/
def traceLines (t : Term) (steps : List Term) : List String :=
  ("   " ++ t.toSource) :: steps.map fun u => "-> " ++ u.toSource

/-- A definition as it is printed. -/
def definitionLine (x : Name) (t : Term) : String :=
  x ++ " = " ++ t.toSource

/-- The lines that a query prints. -/
def ask (session : Session) (argument : String) : Query → Except Failure (List String)
  | .tokenize => tokenize argument
  | .parse => do
      let t ← readTerm argument
      return [t.toSource]
  | .reduce s => do
      let t ← session.resolveTerm argument
      let u ← (s.reduce session.budget t).mapError (.evaluation ∘ .divergence)
      return [u.toSource]
  | .trace => do
      let t ← session.resolveTerm argument
      let us ← ((Strategy.normalOrder true).trace session.budget t).mapError
        (.evaluation ∘ .divergence)
      return traceLines t us
  | .number => do
      let t ← session.resolveTerm argument
      let n ← (t.toNumber session.budget).mapError .evaluation
      return [n.repr]
  | .truth => do
      let t ← session.resolveTerm argument
      let p ← (t.toBool session.budget).mapError .evaluation
      return [if p then "true" else "false"]
  | .freeVariables => do
      let t ← readTerm argument
      return [bracedNames t.freeVariables]
  | .definitions => .ok (session.environment.definitions.map fun d => definitionLine d.1 d.2)
  | .help => .ok Directive.helpText

/-! ### Commands -/

/-- The session after a command, and the line that the command prints. -/
def execute (session : Session) : Command → Except EvaluationError (Session × String)
  | .evaluate t =>
      match (session.environment.resolve t).normalForm session.budget with
      | .ok u => .ok (session, u.toSource)
      | .error e => .error (.divergence e)
  | .define x t =>
      .ok (⟨session.environment.define x t, session.budget⟩,
        definitionLine x (session.environment.resolve t))

/-- Carry out commands until one fails. -/
def executeAll (session : Session) : List Command → Session × Reply
  | [] => (session, .printing [])
  | c :: cs =>
      match session.execute c with
      | .error e => (session, .failing (.evaluation e))
      | .ok (next, line) =>
          let (last, reply) := next.executeAll cs
          (last, { reply with lines := line :: reply.lines })

/-- Read commands and carry them out. -/
def evaluate (session : Session) (argument : String) : Session × Reply :=
  match parseCommands argument with
  | .error e => (session, .failing (.source e))
  | .ok commands => session.executeAll commands

/-- Show the step budget, or choose another one. -/
def chooseBudget (session : Session) (argument : String) : Session × Reply :=
  let text := trim argument
  if text.isEmpty then (session, .printing [session.budget.repr])
  else match readBudget text with
    | .ok n => (⟨session.environment, n⟩, .printing ["step budget = " ++ n.repr])
    | .error e =>
        (session, ⟨[], ["Invalid step budget " ++ text ++ ": " ++ e.message], none⟩)

/-! ### Lines -/

/-- The session after a line, and the answer to it. -/
def handle (session : Session) (line : String) : Session × Reply :=
  let (name, argument) := Directive.splitLine line
  match Directive.ofName? name with
  | none => (session, ⟨Directive.helpText, ["Unknown command " ++ name], none⟩)
  | some .evaluate => session.evaluate argument
  | some .budget => session.chooseBudget argument
  | some (.query q) =>
      match session.ask argument q with
      | .ok lines => (session, .printing lines)
      | .error e => (session, .failing e)

end Session

end NamedLambda
