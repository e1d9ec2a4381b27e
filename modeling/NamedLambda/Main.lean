/-
NamedLambda/Main.lean

The program: a session on the standard input and output.
-/
import NamedLambda.Repl

namespace NamedLambda

/-- Print a failure or a warning on the standard error. -/
def printComplaint : Complaint → IO Unit
  | .warning text => IO.eprintln text
  | .failure (.source e) => IO.eprintln ("Error: " ++ e.report.display)
  | .failure (.evaluation e) => IO.eprintln ("Error: " ++ e.message)

/-- Print an answer. -/
def printReply (reply : Reply) : IO Unit := do
  IO.print (Reply.joinLines reply.lines)
  (← IO.getStdout).flush
  reply.complaints.forM printComplaint

/-- Answer lines until the end of the input. -/
partial def converse (input : IO.FS.Stream) (r : Repl) : IO Unit := do
  let line ← input.getLine
  if line.isEmpty then
    IO.println Repl.farewell
  else
    let (next, reply) := r.feed (Repl.chomp line)
    reply.forM printReply
    converse input next

end NamedLambda

def main : IO Unit := do
  IO.println "Hi, this is an untyped λ-calculus REPL. :h to show help"
  IO.println ""
  NamedLambda.converse (← IO.getStdin) .initial
