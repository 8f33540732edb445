/-
The interactive command line.

It prints what a session answers to the lines of standard input, until the
session or the input ends.
-/
import LispSyntax.Session

namespace LispSyntax
namespace Session

/-- Answers lines of input until the session ends. -/
partial def converse (input output : IO.FS.Stream) (s : Session) : IO Unit := do
  output.putStr prompt
  output.flush
  let line ← input.getLine
  if line.isEmpty then
    output.putStr (unlines [farewell])
  else
    let reply := s.respond line
    output.putStr (unlines reply.lines)
    match reply.next with
    | some t => converse input output t
    | none => pure ()

end Session
end LispSyntax

def main : IO Unit := do
  let output ← IO.getStdout
  output.putStr (LispSyntax.Session.unlines LispSyntax.Session.greeting)
  LispSyntax.Session.converse (← IO.getStdin) output {}
