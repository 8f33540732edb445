/-
Runs of expressions.

`Chain rule c ns d` holds if `rule` matches time after time from the cursor `c`
and so gives the nodes `ns` and ends at `d`.  Reading a sequence follows the chain
to the cursor where the rule matches no more, and what the rule says there is what
the sequence says.  The bound on the number of turns never comes into it.
-/
import LispSyntax.Grammar.Reach

namespace LispSyntax
namespace Grammar

/-- The rule matches from `c` to `d`, time after time. -/
inductive Chain (rule : Rule) : Cursor → List (Node Nat) → Cursor → Prop where
  | nil (c : Cursor) : Chain rule c [] c
  | cons {c next d : Cursor} {n : Node Nat} {ns : List (Node Nat)}
      (head : rule c = .matched n next) (tail : Chain rule next ns d) : Chain rule c (n :: ns) d

variable {rule : Rule} {c d : Cursor} {ns : List (Node Nat)} {s : Stall}

/-- With a turn to spare for every character, a sequence goes on along the chain. -/
theorem sequence_of_chain (hrule : rule.Reads) (h : Chain rule c ns d) (bound : List Char)
    (hbound : c.rest.length ≤ bound.length) (done : List (Node Nat)) :
    ∃ bound' : List Char, d.rest.length ≤ bound'.length ∧
      sequence rule bound done c = sequence rule bound' (ns.reverse ++ done) d := by
  induction h generalizing bound done with
  | nil c => exact ⟨bound, hbound, rfl⟩
  | @cons c next d n ns head tail ih =>
    have hreads := hrule c
    rw [head] at hreads
    have hlt : next.rest.length < c.rest.length := Cursor.Passes.length_lt hreads
    cases bound with
    | nil =>
      have : c.rest.length ≤ 0 := hbound
      omega
    | cons b bound =>
      have hle : next.rest.length ≤ bound.length := by
        rw [List.length_cons] at hbound
        omega
      obtain ⟨bound', hbound', hrest⟩ := ih bound hle (n :: done)
      refine ⟨bound', hbound', ?_⟩
      have hstep : sequence rule (b :: bound) done c = sequence rule bound (n :: done) next := by
        conv => lhs; unfold sequence
        rw [head]
      rw [hstep, hrest]
      simp

theorem sequence_declined (hrule : rule.Reads) (h : Chain rule c ns d) (hd : rule d = .declined s)
    {bound : List Char} (hbound : c.rest.length ≤ bound.length) :
    sequence rule bound [] c = .ok ⟨ns, d, s⟩ := by
  obtain ⟨bound', _, hseq⟩ := sequence_of_chain hrule h bound hbound []
  rw [hseq]
  cases bound' with
  | nil => simp [sequence, hd]
  | cons b bound' => simp [sequence, hd]

theorem sequence_failed (hrule : rule.Reads) (h : Chain rule c ns d) (hd : rule d = .failed s)
    {bound : List Char} (hbound : c.rest.length ≤ bound.length) :
    sequence rule bound [] c = .error s := by
  obtain ⟨bound', _, hseq⟩ := sequence_of_chain hrule h bound hbound []
  rw [hseq]
  cases bound' with
  | nil => simp [sequence, hd]
  | cons b bound' => simp [sequence, hd]

end Grammar
end LispSyntax
