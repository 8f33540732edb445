/-
Trees from JSON documents.

A node document is checked in a fixed order, and the first check that fails is
the fault of the document: it is an object, it has a location, the location has
two ends, they are in order, it has content, it has a type, the type is known,
and the content suits the type.  For a list the depth is checked first, then
that the content is an array, then the children in order, and at last that the
list encloses each of them.
-/
import LispSyntax.Document.Fault
import LispSyntax.Json.Nesting
import LispSyntax.Json.Parser
import LispSyntax.Node.Basic

namespace LispSyntax
namespace Document

/-- The values of the named members, from an object that has them all or from an
array of just these values. -/
def fields? (names : List String) : Json → Option (List Json)
  | .object members => names.mapM (Json.member? · members)
  | .array items => if items.length = names.length then some items else none
  | _ => none

/-- A natural number of 64 bits, written in digits alone. -/
def toWord? : Json → Option Nat
  | .number (.whole n) => if n < Nat.pow 2 64 then some n else none
  | _ => none

/-- The place that a document stands for. -/
def toPosition? (v : Json) : Option Position :=
  match fields? ["offset", "line", "column"] v with
  | some [o, l, c] =>
    match toWord? o, toWord? l, toWord? c with
    | some o, some l, some c => some ⟨o, l, c⟩
    | _, _, _ => none
  | _ => none

/-- The span that a document stands for. -/
def toSpan? (v : Json) : Option (Span Position) :=
  match fields? ["start", "end"] v with
  | some [a, b] =>
    match toPosition? a, toPosition? b with
    | some a, some b => some ⟨a, b⟩
    | _, _ => none
  | _ => none

/-- The span of the node document with the given members. -/
def locate (path : Path) (members : List (String × Json)) : Except Fault (Span Position) :=
  match Json.member? "location" members with
  | none => .error (.shape .location path)
  | some v =>
    match toSpan? v with
    | none => .error (.shape .locationEnds path)
    | some s => if s.start ≤ s.stop then .ok s else .error (.shape .locationOrder path)

/-- The text that the content of an atom or a string stands for. -/
def toText (path : Path) : Json → Except Fault String
  | .string s => .ok s
  | _ => .error (.shape .textContent path)

/-- The trees that documents stand for, the first of which is the item of the
array at `path` with the given index. -/
def decodeItems (rule : Path → Json → Except Fault (Node Position)) (path : Path) (index : Nat) :
    List Json → Except Fault (List (Node Position))
  | [] => .ok []
  | v :: vs =>
    match rule (.item path index) v with
    | .error f => .error f
    | .ok n =>
      match decodeItems rule path (index + 1) vs with
      | .error f => .error f
      | .ok ns => .ok (n :: ns)

/-- The trees that an array of documents stands for. -/
def decodeArray (rule : Path → Json → Except Fault (Node Position)) (path : Path) :
    Json → Except Fault (List (Node Position))
  | .array items => decodeItems rule path 0 items
  | _ => .error (.shape .arrayOfNodes path)

/-- The list with the given span and children, if it encloses them. -/
def enclose (path : Path) (s : Span Position) (children : List (Node Position)) :
    Except Fault (Node Position) :=
  match children.findIdx? fun n => !decide (s.Encloses n.span) with
  | none => .ok (.list s children)
  | some index => .error (.shape .enclosedChildren (.item path index))

/-- The tree that a node document stands for.  The children of a list are decoded
by `deeper`, and without that rule lists nest too deep. -/
def decodeNodeWith (deeper : Option (Path → Json → Except Fault (Node Position))) (path : Path) :
    Json → Except Fault (Node Position)
  | .object members =>
    match locate path members with
    | .error f => .error f
    | .ok s =>
      match Json.member? "content" members, Json.member? "type" members with
      | none, _ => .error (.shape .content path)
      | some content, some (.string "atom") => (toText path content).map (.atom s)
      | some content, some (.string "string") => (toText path content).map (.string s)
      | some content, some (.string "list") =>
        match deeper with
        | none => .error .tooDeep
        | some rule =>
          match decodeArray rule (.content path) content with
          | .error f => .error f
          | .ok children => enclose (.content path) s children
      | some _, some (.string other) => .error (.unknownType other path)
      | some _, _ => .error (.shape .nodeType path)
  | _ => .error (.shape .nodeObject path)

/-- The tree that a node document stands for, in which lists nest no deeper than
`levels`. -/
def decodeNode (levels : Nat) (path : Path) (v : Json) : Except Fault (Node Position) :=
  match levels with
  | 0 => decodeNodeWith none path v
  | levels + 1 => decodeNodeWith (some fun p w => decodeNode levels p w) path v

/-- The trees that a document stands for. -/
def decode (v : Json) : Except Fault (List (Node Position)) :=
  decodeArray (decodeNode Node.maxNesting) .root v

/-- How many brackets a text may nest.  A list takes two, and the outermost array
and a location need a few more. -/
def maxBrackets : Nat := 2 * Node.maxNesting + 8

/-- The trees that the text of a document stands for.  A text whose brackets nest
too deep is not read at all. -/
def decodeText (source : String) : Except Fault (List (Node Position)) :=
  if maxBrackets < Json.bracketNesting source.toList then .error .tooDeep
  else
    match Json.parse? maxBrackets source.toList with
    | none => .error .malformed
    | some v => decode v

end Document
end LispSyntax
