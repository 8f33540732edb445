/-
Interactive sessions.

A session reads a line at a time.  A line that starts with a colon may be a
command, which changes how the session answers or ends it.  Any other line is
read as source and echoed in the output mode in force, or its error is shown.
A blank line gets no answer.  `Session.respond` is one step of a session, and
`Session.transcript` is all that a session prints.

A session is given its lines.  The end of the input and an interrupt are both the end
of the lines.  Two ways to end are left out, since no list of lines stands for
them: the line editor may not start, which ends the session behind the greeting, and
a line may fail to be read, which ends it with an error in place of the farewell.
-/
import LispSyntax.Document.Encode
import LispSyntax.Node.Printer
import LispSyntax.Read

namespace LispSyntax

/-- How a session echoes what it reads. -/
inductive OutputMode where
  /-- As source text, a line for each tree. -/
  | source
  /-- As a JSON document on one line. -/
  | json
  /-- As a JSON document on many lines. -/
  | prettyJson
  deriving DecidableEq, Repr

/-- The name of a mode. -/
def OutputMode.name : OutputMode → String
  | .source => "Source"
  | .json => "Json"
  | .prettyJson => "PrettyJson"

/-- What a session may be told besides source. -/
inductive Command where
  | help
  | toggleJson
  | togglePretty
  | toggleShebang
  | quit
  deriving DecidableEq, Repr

/-- The command that a text stands for. -/
def Command.ofText? (text : String) : Option Command :=
  if text = ":help" then some .help
  else if text = ":json" then some .toggleJson
  else if text = ":pretty" then some .togglePretty
  else if text = ":shebang" then some .toggleShebang
  else if text = ":quit" ∨ text = ":exit" then some .quit
  else none

/-- What a line of input is, the white space at its ends aside. -/
inductive Entry where
  | blank
  | command (c : Command)
  | source (text : String)
  deriving DecidableEq, Repr

/-- What a line of input is. -/
def Entry.ofLine (line : String) : Entry :=
  let text := String.ofList (Text.trim line.toList)
  if text = "" then .blank
  else
    match Command.ofText? text with
    | some c => .command c
    | none => .source text

/-- The state of a session. -/
structure Session where
  mode : OutputMode := .source
  skipShebang : Bool := true
  deriving DecidableEq, Repr

/-- What a session answers: the lines it prints, and the state it goes on in
unless it ends. -/
structure Reply where
  lines : List String
  next : Option Session
  deriving DecidableEq, Repr

namespace Session

/-- The lines that open a session. -/
def greeting : List String :=
  ["sexpr-plus reader",
    "Enter expressions like: (define x '(1 \"two\" ,@three))",
    "Type :help for more commands, or Ctrl+C to exit.",
    ""]

/-- What a session prints before it reads a line. -/
def prompt : String := "read> "

/-- The line that closes a session. -/
def farewell : String := "Goodbye!"

/-- The lines that explain the commands and the language. -/
def help : List String :=
  ["Reader commands:",
    "  :help    - Show this help message",
    "  :json    - Toggle compact JSON output",
    "  :pretty  - Toggle indented JSON output",
    "  :shebang - Toggle skipping of a leading #! line",
    "  :quit    - Exit",
    "  :exit    - Exit",
    "  Ctrl+C   - Exit",
    "",
    "Syntax:",
    "  Atoms:    foo, 42, -1.5e3, weird\\ atom",
    "  Strings:  \"text with \\n escapes\"",
    "  Lists:    (a b (c))",
    "  Sugar:    'x \x60(a ,b ,@c)",
    "  Comments: ; to end of line",
    "",
    "Set RUST_LOG=sexpr_plus=debug to see reader logging."]

/-- The session with the mode `m` in force, or the source mode if `m` was in
force already. -/
def toggle (s : Session) (m : OutputMode) : Session :=
  { s with mode := if s.mode = m then .source else m }

/-- The line that tells which mode is in force. -/
def modeLine (s : Session) : String := s!"Output mode: {s.mode.name}"

/-- The line that tells whether shebang lines are skipped. -/
def shebangLine (s : Session) : String :=
  "Shebang lines skipped: " ++ if s.skipShebang then "true" else "false"

/-- How source is read in the session. -/
def options (s : Session) : Options := { skipShebang := s.skipShebang }

/-- A tree and its span on a line that reads as the tree. -/
def treeLine (n : Node Position) : String := s!"{n.print}    ; {n.span.text}"

/-- The lines that echo trees. -/
def echo (m : OutputMode) (ns : List (Node Position)) : List String :=
  match m with
  | .source => if ns.isEmpty then ["(nothing read)"] else ns.map treeLine
  | .json => [Document.text .compact ns]
  | .prettyJson => [Document.text .indented ns]

/-- The lines that explain an error. -/
def explain (e : SyntaxError) : List String :=
  s!"Error: {e.message}" :: (e.snippet.map fun t => s!"Context: {t}").toList

/-- The answer to a line of input. -/
def respond (s : Session) (line : String) : Reply :=
  match Entry.ofLine line with
  | .blank => ⟨[], some s⟩
  | .command .help => ⟨help, some s⟩
  | .command .toggleJson => ⟨[(s.toggle .json).modeLine], some (s.toggle .json)⟩
  | .command .togglePretty => ⟨[(s.toggle .prettyJson).modeLine], some (s.toggle .prettyJson)⟩
  | .command .toggleShebang =>
    let t := { s with skipShebang := !s.skipShebang }
    ⟨[t.shebangLine], some t⟩
  | .command .quit => ⟨[farewell], none⟩
  | .source text =>
    match readWith s.options text with
    | .ok ns => ⟨echo s.mode ns, some s⟩
    | .error e => ⟨explain e, some s⟩

/-- Lines as they are printed, each with its end. -/
def unlines (lines : List String) : String := String.join (lines.map (· ++ "\n"))

/-- All that a session in a state prints for lines of input. -/
def run (s : Session) : List String → String
  | [] => prompt ++ unlines [farewell]
  | line :: lines =>
    match s.respond line with
    | ⟨out, some t⟩ => prompt ++ unlines out ++ run t lines
    | ⟨out, none⟩ => prompt ++ unlines out

/-- All that a session prints for lines of input, from its start. -/
def transcript (lines : List String) : String := unlines greeting ++ run {} lines

end Session
end LispSyntax
