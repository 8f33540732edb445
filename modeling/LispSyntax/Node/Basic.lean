/-
Syntax trees.

A node is an atom, a string or a list of nodes, together with the range of
source it was read from.  There is no node for a quotation: a marked expression
is a list of two nodes whose first is the atom naming the kind of quotation,
and `quotation?` finds that shape in any tree.

Trees are generic in what a span counts.  A function on trees is defined
together with its counterpart on lists of trees, so that both recur on their
argument.
-/
import LispSyntax.Quote
import LispSyntax.Span

namespace LispSyntax

/-- A syntax tree whose spans run between values of `π`. -/
inductive Node (π : Type) where
  /-- A bare token, its escapes resolved. -/
  | atom (span : Span π) (text : String)
  /-- A delimited text, its escapes resolved. -/
  | string (span : Span π) (text : String)
  /-- A parenthesised sequence. -/
  | list (span : Span π) (children : List (Node π))
  deriving Repr

namespace Node

variable {π ρ σ : Type}

instance [Inhabited π] : Inhabited (Node π) := ⟨.list ⟨default, default⟩ []⟩

/-- The range of source the node was read from. -/
def span : Node π → Span π
  | .atom s _ => s
  | .string s _ => s
  | .list s _ => s

/-- The text of an atom. -/
def atomText? : Node π → Option String
  | .atom _ t => some t
  | _ => none

/-- The text of a string. -/
def stringText? : Node π → Option String
  | .string _ t => some t
  | _ => none

/-- The children of a list. -/
def children? : Node π → Option (List (Node π))
  | .list _ ns => some ns
  | _ => none

/-- The node is an atom spelled `name`. -/
def isAtomNamed (name : String) : Node π → Bool
  | .atom _ t => t == name
  | _ => false

/-- The kind and the body of a quotation, whether it was written with a marker
or spelled out. -/
def quotation? : Node π → Option (QuoteKind × Node π)
  | .list _ [.atom _ t, body] => (QuoteKind.named? t).map (·, body)
  | _ => none

/-! ## Spans of a whole tree -/

mutual
/-- Every place in the tree sent through `f`. -/
def map (f : π → ρ) : Node π → Node ρ
  | .atom s t => .atom (s.map f) t
  | .string s t => .string (s.map f) t
  | .list s ns => .list (s.map f) (mapAll f ns)

/-- Every place in the trees sent through `f`. -/
def mapAll (f : π → ρ) : List (Node π) → List (Node ρ)
  | [] => []
  | n :: ns => map f n :: mapAll f ns
end

theorem mapAll_eq_map (f : π → ρ) (ns : List (Node π)) : mapAll f ns = ns.map (map f) := by
  induction ns with
  | nil => rfl
  | cons n ns ih => simp [mapAll, ih]

/-- The tree with every span replaced by the empty span at the start, for
comparing trees read from different texts. -/
def eraseSpans (n : Node π) : Node Position := n.map fun _ => .start

/-! ## Trees without a source -/

/-- An atom that was read from nowhere. -/
def ofAtom (text : String) : Node Position := .atom .origin text

/-- A string that was read from nowhere. -/
def ofString (text : String) : Node Position := .string .origin text

/-- A list that was read from nowhere. -/
def ofList (children : List (Node Position)) : Node Position := .list .origin children

/-- The quotation of `body` that was read from nowhere. -/
def ofQuotation (k : QuoteKind) (body : Node Position) : Node Position :=
  ofList [ofAtom k.name, body]

/-! ## Traversal and depth -/

/-- How many lists may nest where no other limit is given. -/
def maxNesting : Nat := 256

mutual
/-- The node and all nodes under it, each before its children, with the number
of lists around it counted from `depth`. -/
def preorder (depth : Nat) : Node π → List (Nat × Node π)
  | .atom s t => [(depth, .atom s t)]
  | .string s t => [(depth, .string s t)]
  | .list s ns => (depth, .list s ns) :: preorderAll (depth + 1) ns

/-- The nodes of the trees in the order of `preorder`. -/
def preorderAll (depth : Nat) : List (Node π) → List (Nat × Node π)
  | [] => []
  | n :: ns => preorder depth n ++ preorderAll depth ns
end

/-- A traversal meets the node that it starts at. -/
theorem mem_preorder (n : Node π) (depth : Nat) : (depth, n) ∈ n.preorder depth := by
  cases n <;> exact List.mem_cons_self

mutual
/-- How many lists are nested in the tree at most. -/
def nesting : Node π → Nat
  | .atom _ _ => 0
  | .string _ _ => 0
  | .list _ ns => nestingAll ns + 1

/-- The nesting of the deepest of the trees. -/
def nestingAll : List (Node π) → Nat
  | [] => 0
  | n :: ns => max (nesting n) (nestingAll ns)
end

end Node
end LispSyntax
