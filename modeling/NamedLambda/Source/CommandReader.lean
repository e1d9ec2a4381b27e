/-
NamedLambda/Source/CommandReader.lean

Reading a list of commands, token by token:

    commands ::= [ command ( ; command )* [ ; ] ]          command ::= ident = term | term

A command is tried as a definition and then as a term.  It is a definition as soon as the sign and
some beginning of what follows it have been read as one.  Before that it can still turn out to be a
term, and an identifier alone is a term already, so nothing is said then of what a definition would
have needed: the equals sign is not listed among the items that can follow the identifier, and a
definition that breaks off before any beginning of its term was one is reported at its sign, as the
token that cannot follow the identifier.
-/
import NamedLambda.Source.TermReader

namespace NamedLambda

/-- A command. -/
inductive Command where
  /-- Evaluate a term. -/
  | evaluate (t : Term)
  /-- Define a name. -/
  | define (x : Name) (t : Term)
deriving DecidableEq, Repr

/-- What part of a command is being read. -/
inductive CommandPart where
  /-- Before a command, `• command`.  The list may also end here, since it may be empty and a
  semicolon may stand after its last command. -/
  | start
  /-- After the identifier `x` that a command begins with.  Both forms are open: `ident • = term`,
  and a term with `atom • atom*` in it. -/
  | word (x : Name)
  /-- In a command that can only be a term, at the place in it that `r` says. -/
  | evaluated (r : TermReader)
  /-- In the definition of `x` after its sign, `ident = • term`, at the place in the term that `r`
  says.  The sign stands at `sign`, and `viable` says whether some beginning of what follows it was a
  term. -/
  | defined (x : Name) (sign : Span) (viable : Bool) (r : TermReader)
deriving DecidableEq, Repr

namespace CommandPart

/-- What can come after a whole term. -/
def follow : List (Option Token) :=
  [some .semicolon, none]

/-- The command read so far, if it is whole. -/
def finish : CommandPart → Option Command
  | start => none
  | word x => some (.evaluate (.var x))
  | evaluated r => r.finish.map .evaluate
  | defined x _ _ r => r.finish.map (.define x)

/-- The part after one more token of the same command. -/
def step : CommandPart → Located Token → Option CommandPart
  | start, ⟨.ident x, _⟩ => some (word x)
  | start, token => (TermReader.step (.start []) token.value).map evaluated
  | word x, ⟨.equals, sign⟩ => some (defined x sign false (.start []))
  | word x, token => (TermReader.step (.applying (.var x) []) token.value).map evaluated
  | evaluated r, token => (r.step token.value).map evaluated
  | defined x sign viable r, token =>
      (r.step token.value).map fun r' => defined x sign (viable || r'.finish.isSome) r'

/-- The error at an item that cannot come next. -/
def unexpected (found : Option Token) (span : Span) : CommandPart → Unexpected Token
  -- What a term begins with, a definition beginning with an identifier, or the end of the list.
  | start => ⟨found, [some .openParen, some .lambda, none], span⟩
  -- What can follow the term `x`; the sign that would make it a definition is forgotten.
  | word x => ⟨found, TermReader.expected follow (.applying (.var x) []), span⟩
  | evaluated r => ⟨found, r.expected follow, span⟩
  | defined _ _ true r => ⟨found, r.expected follow, span⟩
  -- All of the definition is forgotten, and the sign is what follows the term `x`.
  | defined x sign false _ =>
      ⟨some .equals, TermReader.expected follow (.applying (.var x) []), sign⟩

end CommandPart

/-- The commands read so far, the latest first, and the part of the next one. -/
structure CommandReader where
  finished : List Command
  part : CommandPart
deriving DecidableEq, Repr

namespace CommandReader

/-- The reader after one more token. -/
def step (r : CommandReader) (token : Located Token) : Option CommandReader :=
  match token.value with
  | .semicolon => r.part.finish.map fun c => ⟨c :: r.finished, .start⟩
  | _ => (r.part.step token).map fun p => ⟨r.finished, p⟩

/-- The commands, if the text can end here. -/
def finish (r : CommandReader) : Option (List Command) :=
  match r.part with
  | .start => some r.finished.reverse
  | part => part.finish.map fun c => (c :: r.finished).reverse

/-- The reader of commands. -/
def automaton : Automaton (Located Token) CommandReader (List Command) where
  initial := ⟨[], .start⟩
  step := step
  finish := finish
  unexpected found span r := r.part.unexpected found span

end CommandReader

/-- The commands that a source text writes. -/
def parseCommands (source : String) : Except SourceError (List Command) :=
  CommandReader.automaton.read source

end NamedLambda
