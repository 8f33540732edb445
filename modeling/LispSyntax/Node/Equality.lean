/-
Deciding whether two trees are equal.

The test goes down both trees together.  It answers `true` exactly for equal
trees, which gives trees a decidable equality.
-/
import LispSyntax.Node.Basic

namespace LispSyntax
namespace Node

variable {π : Type} [DecidableEq π]

mutual
/-- The trees are the same, spans included. -/
def same : Node π → Node π → Bool
  | .atom s t, .atom s' t' => s == s' && t == t'
  | .string s t, .string s' t' => s == s' && t == t'
  | .list s ns, .list s' ns' => s == s' && sameAll ns ns'
  | _, _ => false

/-- The lists hold the same trees in the same order. -/
def sameAll : List (Node π) → List (Node π) → Bool
  | [], [] => true
  | n :: ns, n' :: ns' => same n n' && sameAll ns ns'
  | _, _ => false
end

mutual
theorem same_iff : (a b : Node π) → same a b = true ↔ a = b
  | .atom _ _, b => by cases b <;> simp [same]
  | .string _ _, b => by cases b <;> simp [same]
  | .list _ ns, b => by
    cases b with
    | list s' ns' => simp [same, sameAll_iff ns ns']
    | _ => simp [same]

theorem sameAll_iff : (as bs : List (Node π)) → sameAll as bs = true ↔ as = bs
  | [], bs => by cases bs <;> simp [sameAll]
  | a :: as, bs => by
    cases bs with
    | nil => simp [sameAll]
    | cons b bs => simp [sameAll, same_iff a b, sameAll_iff as bs]
end

instance : DecidableEq (Node π) := fun a b => decidable_of_iff _ (same_iff a b)

end Node
end LispSyntax
