/-
NamedLambda/Session/Directive.lean

What a line of a session asks for.  A line that begins with a colon names a directive, which is
parted from its argument by the first space; any other line is wholly an argument for evaluation.
-/
import NamedLambda.Reduction.Strategy
import NamedLambda.Text.Classes

namespace NamedLambda

/-- What can be asked for without changing the session. -/
inductive Query where
  | tokenize
  | parse
  | reduce (s : Strategy)
  | trace
  | number
  | truth
  | freeVariables
  | definitions
  | help
deriving DecidableEq, Repr

/-- What can be asked for. -/
inductive Directive where
  | query (q : Query)
  /-- Show or choose the step budget. -/
  | budget
  /-- Carry out commands. -/
  | evaluate
deriving DecidableEq, Repr

namespace Directive

/-- The directive of the given name; the empty name is that of evaluation. -/
def ofName? (s : String) : Option Directive :=
  match Strategy.ofShortName? s with
  | some strategy => some (query (.reduce strategy))
  | none =>
      match s with
      | "to" | "tokenize" => some (query .tokenize)
      | "p" | "parse" => some (query .parse)
      | "tr" | "trace" => some (query .trace)
      | "n" | "num" => some (query .number)
      | "b" | "bool" => some (query .truth)
      | "fv" => some (query .freeVariables)
      | "budget" => some budget
      | "d" | "defs" => some (query .definitions)
      | "" | "e" | "eval" | "evaluate" => some evaluate
      | "h" | "help" => some (query .help)
      | _ => none

/-- The name of a directive and its argument.  Without a space after the name there is no argument,
and blanks around the name do not count. -/
def splitLine (line : String) : String × String :=
  match line.toList with
  | ':' :: cs =>
      let text := cs.dropWhile isBlank
      match text.dropWhile (· ≠ ' ') with
      | _ :: argument => (String.ofList (text.takeWhile (· ≠ ' ')), String.ofList argument)
      | [] => (trim (String.ofList cs), "")
  | _ => ("", line)

/-- The help on the directives, line by line. -/
def helpText : List String :=
  ["term                -- same as :evaluate term",
   "name = term         -- define name; later terms see it",
   ":tokenize   term    -- show tokenized term",
   ":parse      term    -- show parsed term",
   ":cbv        term    -- call-by-value",
   ":cbn        term    -- call-by-name",
   ":no[!]      term    -- normal order (! to reduce under abstractions)",
   ":ao[!]      term    -- applicative order (! to reduce under abstractions)",
   ":hs[!]      term    -- head spine (! to go on into the arguments)",
   ":trace      term    -- show every normal order step",
   ":num        term    -- decode a Church numeral",
   ":bool       term    -- decode a Church boolean",
   ":fv         term    -- show free variables",
   ":budget     [n]     -- show or set the step budget",
   ":defs               -- show definitions",
   ":evaluate   term    -- show the normal form",
   ":help               -- show this message"]

end Directive

end NamedLambda
