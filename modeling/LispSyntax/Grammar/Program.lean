/-
Whole texts.

A program is a sequence of expressions with gaps around them, behind a shebang
line if those are skipped.  A text may also be read as one expression alone.
-/
import LispSyntax.Grammar.Expression

namespace LispSyntax

/-- What a reader of programs accepts. -/
structure Options where
  /-- How deep lists and quotations may nest. -/
  maxDepth : Nat := Node.maxNesting
  /-- Whether a shebang line at the very start is skipped. -/
  skipShebang : Bool := true
  deriving DecidableEq, Repr

namespace Grammar

/-- The cursor at the start of a text. -/
def Cursor.atStart (cs : List Char) : Cursor := ⟨0, cs⟩

/-- The cursor at the first expression of a program. -/
def programStart (o : Options) (cs : List Char) : Cursor :=
  if o.skipShebang then (Cursor.atStart cs).pastShebang.pastGap else (Cursor.atStart cs).pastGap

/-- Reads a program.  What stands behind the last expression is explained by the
stall there, if that got further than the place where the program should
end. -/
def program (o : Options) (cs : List Char) : Except Stall (List (Node Nat)) :=
  match sequence (expression o.maxDepth) cs [] (programStart o cs) with
  | .error s => .error s
  | .ok q =>
    if q.stop.rest.isEmpty then .ok q.nodes
    else if q.stop.offset < q.stall.place.offset then .error q.stall
    else .error ⟨q.stop, .strayContent⟩

/-- Reads with one rule a text that holds nothing else but gaps. -/
def alone (rule : Rule) (cs : List Char) : Except Stall (Node Nat) :=
  match rule (Cursor.atStart cs).pastGap with
  | .matched n next => if next.rest.isEmpty then .ok n else .error ⟨next, .surplus⟩
  | .declined s => .error s
  | .failed s => .error s

end Grammar
end LispSyntax
