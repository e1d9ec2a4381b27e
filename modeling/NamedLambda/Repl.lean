/-
NamedLambda/Repl.lean

The reading loop.  A line that ends with a backslash goes on in the next one: the backslash gives
way to a newline, and the pieces make one logical line.  Blank logical lines are passed over, all
others are handled by one session after the other.  A continued line that the input breaks off is
dropped.
-/
import NamedLambda.Session.Basic

namespace NamedLambda

/-- The reading loop between two lines. -/
structure Repl where
  session : Session
  /-- The beginning of a logical line, newlines included; empty if none has begun. -/
  pending : String
deriving DecidableEq, Repr

namespace Repl

/-- The loop before the first line. -/
def initial : Repl :=
  ⟨.initial, ""⟩

/-- The session after a logical line, and the answer to it. -/
def respond (session : Session) (line : String) : Session × Reply :=
  if (trim line).isEmpty then (session, .printing []) else session.handle line

/-- The beginning of a line that ends with a backslash. -/
def continued? (line : String) : Option String :=
  match line.toList.reverse with
  | '\\' :: cs => some (String.ofList cs.reverse)
  | _ => none

/-- The loop after a line, and the answer if a logical line ends with it. -/
def feed (r : Repl) (line : String) : Repl × Option Reply :=
  match continued? line with
  | some piece => (⟨r.session, r.pending ++ piece ++ "\n"⟩, none)
  | none =>
      let (session, reply) := respond r.session (r.pending ++ line)
      (⟨session, ""⟩, some reply)

/-- The answers to all lines. -/
def feedAll (r : Repl) : List String → Repl × List Reply
  | [] => (r, [])
  | line :: lines =>
      let (next, reply) := r.feed line
      let (last, replies) := next.feedAll lines
      (last, reply.toList ++ replies)

/-! ### Input as one text -/

/-- A line without the newline that ends it, nor one carriage return before that. -/
def chomp (line : String) : String :=
  match line.toList.reverse with
  | '\n' :: '\r' :: cs => String.ofList cs.reverse
  | '\n' :: cs => String.ofList cs.reverse
  | _ => line

/-- Cut characters after each newline, those of the line at hand being given in reverse. -/
def cutLines (line : List Char) : List Char → List String
  | [] => if line.isEmpty then [] else [String.ofList line.reverse]
  | '\n' :: cs => String.ofList ('\n' :: line).reverse :: cutLines [] cs
  | c :: cs => cutLines (c :: line) cs

/-- The lines of an input.  A last line need not end with a newline. -/
def inputLines (input : String) : List String :=
  (cutLines [] input.toList).map chomp

/-- The farewell at the end of the input. -/
def farewell : String := "Bye!"

/-- The answers to an input from its start to its end. -/
def replies (input : String) : List Reply :=
  (initial.feedAll (inputLines input)).2

end Repl

/-! ### What is printed -/

/-- What is printed aside: a warning, or why a line failed. -/
inductive Complaint where
  | warning (text : String)
  | failure (e : Failure)
deriving DecidableEq, Repr

/-- What an answer prints aside. -/
def Reply.complaints (reply : Reply) : List Complaint :=
  reply.warnings.map .warning ++ (reply.failure.map .failure).toList

/-- All that is printed up to the end of the input. -/
structure Transcript where
  /-- The text on the standard output. -/
  output : String
  /-- What is printed on the standard error. -/
  complaints : List Complaint
deriving DecidableEq, Repr

/-- What answers print, with the farewell after them. -/
def Transcript.ofReplies (replies : List Reply) : Transcript :=
  ⟨Reply.joinLines (replies.flatMap Reply.lines ++ [Repl.farewell]),
    replies.flatMap Reply.complaints⟩

/-- What is printed in answer to an input from its start to its end. -/
def Repl.transcript (input : String) : Transcript :=
  .ofReplies (replies input)

end NamedLambda
