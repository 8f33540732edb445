/-
Expressions.

An expression is a list, an atom, a string or a quotation.  The rules for lists
and quotations read expressions one level deeper.  They are given the rule for
those, or nothing when no deeper level is allowed, so that `expression` recurs on
the number of levels left.  A list then fails at its opening parenthesis, and a
quotation at its marker.

Every rule goes on behind the gap that follows its construct.  The gap is no
part of the span.
-/
import LispSyntax.Grammar.Gap
import LispSyntax.Grammar.Token

namespace LispSyntax
namespace Grammar

/-- Reads an atom. -/
def atomRule : Rule := fun c =>
  match atomToken c with
  | .matched text next => .matched (.atom ⟨c.offset, next.offset⟩ text) next.pastGap
  | .declined s => .declined s
  | .failed s => .failed s

/-- Reads a string. -/
def stringRule : Rule := fun c =>
  match stringToken c with
  | .matched text next => .matched (.string ⟨c.offset, next.offset⟩ text) next.pastGap
  | .declined s => .declined s
  | .failed s => .failed s

/-- A run of expressions: the nodes, the cursor behind them, and why no other
expression starts there. -/
structure Sequence where
  nodes : List (Node Nat)
  stop : Cursor
  stall : Stall

/-- Reads expressions with `rule` for as long as it matches, of which `done`, in
reverse, have been read.  Every expression takes a character at least, so a
`bound` of as many characters as are left is enough for all of them. -/
def sequence (rule : Rule) (bound : List Char) (done : List (Node Nat)) (c : Cursor) :
    Except Stall Sequence :=
  match rule c, bound with
  | .matched n next, _ :: bound => sequence rule bound (n :: done) next
  | .matched _ _, [] => .ok ⟨done.reverse, c, ⟨c, .noExpression⟩⟩
  | .declined s, _ => .ok ⟨done.reverse, c, s⟩
  | .failed s, _ => .error s

/-- Reads a list whose children are read by `deeper`.  A list that does not
close is the fault of whatever stopped its children, if that got further than
the place where the parenthesis is missing. -/
def listRule (deeper : Option Rule) : Rule := fun c =>
  match c.rest, deeper with
  | '(' :: _, none => .failed ⟨c, .tooDeep⟩
  | '(' :: cs, some rule =>
    match sequence rule cs [] (Cursor.pastGap ⟨c.offset + 1, cs⟩) with
    | .error s => .failed s
    | .ok q =>
      match q.stop.rest with
      | ')' :: after =>
        .matched (.list ⟨c.offset, q.stop.offset + 1⟩ q.nodes)
          (Cursor.pastGap ⟨q.stop.offset + 1, after⟩)
      | _ => .failed (q.stall.further ⟨q.stop, .openList⟩)
  | _, _ => .declined ⟨c, .noList⟩

/-- Reads a quotation whose body is read by `deeper`.  The head of the list that
it stands for spans the marker. -/
def quotationRule (deeper : Option Rule) : Rule := fun c =>
  match markerToken c, deeper with
  | .matched _ _, none => .failed ⟨c, .tooDeep⟩
  | .matched k next, some rule =>
    match rule next.pastGap with
    | .matched body last =>
      .matched (.list ⟨c.offset, body.span.stop⟩ [.atom ⟨c.offset, next.offset⟩ k.name, body]) last
    | .declined s => .declined s
    | .failed s => .failed s
  | .declined s, _ => .declined s
  | .failed s, _ => .failed s

/-- The kinds of expression. -/
inductive Form where
  | list
  | atom
  | string
  | quotation
  deriving DecidableEq, Repr

/-- Every kind of expression, in the order in which they are tried. -/
def Form.all : List Form := [.list, .atom, .string, .quotation]

/-- The rule for a kind of expression, given the rule for what stands one level
deeper. -/
def Form.rule (deeper : Option Rule) : Form → Rule
  | .list => listRule deeper
  | .atom => atomRule
  | .string => stringRule
  | .quotation => quotationRule deeper

/-- Reads an expression of any kind in which lists and quotations nest no deeper
than `levels`. -/
def expression (levels : Nat) : Rule := fun c =>
  match levels with
  | 0 => firstOf (Form.all.map (Form.rule none)) c
  | levels + 1 => firstOf (Form.all.map (Form.rule (some fun d => expression levels d))) c

end Grammar
end LispSyntax
