/-
What may be wrong with a JSON document.

A fault names what a part of the document should have been and the path to that
part.  A path leads from the whole document to one of its parts.
-/
import LispSyntax.Node.Basic

namespace LispSyntax
namespace Document

/-- A way from the whole document to one of its parts. -/
inductive Path where
  /-- The document itself. -/
  | root
  /-- The item at an index of an array. -/
  | item (path : Path) (index : Nat)
  /-- The content of a node. -/
  | content (path : Path)
  deriving DecidableEq, Repr

/-- The text of a path. -/
def Path.text : Path → String
  | .root => "$"
  | .item path index => s!"{path.text}[{index}]"
  | .content path => s!"{path.text}.content"

/-- What a part of a document should be. -/
inductive Shape where
  | arrayOfNodes
  | nodeObject
  | location
  | locationEnds
  | locationOrder
  | content
  | nodeType
  | textContent
  | enclosedChildren
  deriving DecidableEq, Repr

/-- The name of what a part of a document should be. -/
def Shape.text : Shape → String
  | .arrayOfNodes => "array of nodes"
  | .nodeObject => "node object"
  | .location => "location"
  | .locationEnds => "location with start and end positions"
  | .locationOrder => "location ending at or after its start"
  | .content => "content"
  | .nodeType => "node type"
  | .textContent => "string content"
  | .enclosedChildren => "list location enclosing its children"

/-- Why a document stands for no trees. -/
inductive Fault where
  /-- The text is not a JSON value. -/
  | malformed
  /-- The part at the path is not what it should be. -/
  | shape (expected : Shape) (path : Path)
  /-- The node at the path is of no known type. -/
  | unknownType (found : String) (path : Path)
  /-- Lists nest too deep. -/
  | tooDeep
  deriving DecidableEq, Repr

/-- The message that tells a person what is wrong. -/
def Fault.message : Fault → String
  | .malformed => "invalid JSON"
  | .shape expected path => s!"expected {expected.text} at {path.text}"
  | .unknownType found path => s!"unknown node type '{found}' at {path.text}"
  | .tooDeep => s!"node tree too deeply nested (max depth: {Node.maxNesting})"

end Document
end LispSyntax
