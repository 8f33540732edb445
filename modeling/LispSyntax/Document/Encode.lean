/-
Trees as JSON documents.

A node is an object with three members in the order of their names.  Its content
is a text, or an array of the children of a list.  Its location gives the two
ends of its span, each by offset, line and column.
-/
import LispSyntax.Json.Value
import LispSyntax.Node.Basic

namespace LispSyntax
namespace Document

/-- The document of a place. -/
def ofPosition (p : Position) : Json :=
  .object [("column", .number (.whole p.column)), ("line", .number (.whole p.line)),
    ("offset", .number (.whole p.offset))]

/-- The document of a span. -/
def ofSpan (s : Span Position) : Json :=
  .object [("end", ofPosition s.stop), ("start", ofPosition s.start)]

/-- The document of a node, given its content and the name of its type. -/
def ofParts (content : Json) (s : Span Position) (type : String) : Json :=
  .object [("content", content), ("location", ofSpan s), ("type", .string type)]

mutual
/-- The document of a tree. -/
def ofNode : Node Position → Json
  | .atom s text => ofParts (.string text) s "atom"
  | .string s text => ofParts (.string text) s "string"
  | .list s ns => ofParts (.array (ofNodeList ns)) s "list"

/-- The documents of trees. -/
def ofNodeList : List (Node Position) → List Json
  | [] => []
  | n :: ns => ofNode n :: ofNodeList ns
end

/-- The document of a sequence of trees. -/
def ofNodes (ns : List (Node Position)) : Json := .array (ofNodeList ns)

/-- The text of the document of a sequence of trees. -/
def text (l : Json.Layout) (ns : List (Node Position)) : String := (ofNodes ns).text l

end Document
end LispSyntax
