/-
Expressions that nest too deep.

Where an expression nests deeper than the levels that are left, the reader stalls
at the first list or quotation below them.  What it has read by then is a fragment
of the derivation, which is cut off at that place, and in the tree of the derivation
a list starts there: of the lists with so many lists around them it is the first.
-/
import LispSyntax.Proofs.Fragment

namespace LispSyntax

namespace Node

variable {π ρ : Type}

/-- The node, met in a traversal, is a list with `depth` lists around it. -/
def isListAt (depth : Nat) (m : Nat × Node π) : Bool := m.1 == depth && m.2.children?.isSome

mutual
/-- In a tree that nests less deep there is no list at the depth. -/
theorem find?_preorder_eq_none : (n : Node π) → {depth k : Nat} → k + n.nesting ≤ depth →
    (n.preorder k).find? (isListAt depth) = none
  | .atom _ _, _, _, _ => by simp [preorder, isListAt, children?]
  | .string _ _, _, _, _ => by simp [preorder, isListAt, children?]
  | .list s ns, depth, k, h => by
    rw [nesting] at h
    have hne : isListAt depth (k, list s ns) = false := by
      simp [isListAt]
      omega
    rw [preorder, List.find?_cons_of_neg (by simp [hne])]
    exact find?_preorderAll_eq_none ns (by omega)

theorem find?_preorderAll_eq_none : (ns : List (Node π)) → {depth k : Nat} →
    k + nestingAll ns ≤ depth → (preorderAll k ns).find? (isListAt depth) = none
  | [], _, _, _ => rfl
  | n :: ns, depth, k, h => by
    rw [nestingAll] at h
    rw [preorderAll, List.find?_append, find?_preorder_eq_none n (by omega),
      find?_preorderAll_eq_none ns (by omega)]
    rfl
end

end Node

namespace Grammar

section Nesting

variable {π : Type} {step : π → List Char → π}

mutual
/-- A tree nests as deep as its derivation. -/
theorem nesting_node : (d : Derivation) → (p : π) → (d.node step p).nesting = d.depth
  | .atom _, _ => rfl
  | .string _, _ => rfl
  | .list gap items, p => by
    rw [Derivation.node, Node.nesting, nestingAll_nodes items, Derivation.depth]
  | .quotation k gap body, p => by
    simp [Derivation.node, Node.nesting, Node.nestingAll, Derivation.depth, nesting_node body]

theorem nestingAll_nodes : (ds : Derivations) → (p : π) →
    Node.nestingAll (ds.nodes step p) = ds.depth
  | .nil, _ => rfl
  | .cons head gap tail, p => by
    rw [Derivations.nodes, Node.nestingAll, nesting_node head, nestingAll_nodes tail,
      Derivations.depth]
end

end Nesting

/-- The first list at the depth starts at the place `q`. -/
def FirstListAt (depth : Nat) (ms : List (Nat × Node Position)) (q : Position) : Prop :=
  ∃ n, ms.find? (Node.isListAt depth) = some (depth, n) ∧ n.span.start = q

theorem FirstListAt.cons {depth : Nat} {m : Nat × Node Position} {ms : List (Nat × Node Position)}
    {q : Position} (h : FirstListAt depth ms q) (hm : Node.isListAt depth m = false) :
    FirstListAt depth (m :: ms) q := by
  obtain ⟨n, hfind, hstart⟩ := h
  exact ⟨n, by rw [List.find?_cons_of_neg (by simp [hm]), hfind], hstart⟩

theorem firstListAt_list (depth : Nat) (s : Span Position) (ns : List (Node Position)) :
    FirstListAt depth ((Node.list s ns).preorder depth) s.start :=
  ⟨.list s ns, by simp [Node.preorder, Node.isListAt, Node.children?], rfl⟩

mutual
/-- An expression that nests deeper than `levels` begins with a fragment that is cut
off. -/
theorem Derivation.cut : (d : Derivation) → {levels : Nat} → {b : List Char} → d.Legal b →
    levels < d.depth →
    ∃ (f : Fragment) (b' : List Char), d.text ++ b = f.text ++ b' ∧ f.Stalls levels b' ∧
      f.cause b' = .tooDeep ∧ ∀ (p : Position) (k : Nat),
        FirstListAt (k + levels) ((d.node Position.after p).preorder k) (p.after f.text)
  | .atom us, levels, b, _, hdepth => absurd hdepth (Nat.not_lt_zero levels)
  | .string us, levels, b, _, hdepth => absurd hdepth (Nat.not_lt_zero levels)
  | .list gap items, 0, b, h, _ =>
    ⟨.cut, (Derivation.list gap items).text ++ b, rfl,
      ⟨rfl, Or.inl (Derivation.starting_text_append h b)⟩, rfl,
      fun _ k => firstListAt_list k _ _⟩
  | .quotation k gap body, 0, b, h, _ =>
    ⟨.cut, (Derivation.quotation k gap body).text ++ b, rfl,
      ⟨rfl, Or.inr (Derivation.starting_text_append h b)⟩, rfl,
      fun _ k => firstListAt_list k _ _⟩
  | .list gap items, levels + 1, b, h, hdepth => by
    have hdepth' : levels < items.depth := Nat.lt_of_succ_lt_succ hdepth
    obtain ⟨ds, f, b', htext, hds, hdsDepth, hf, hcause, hfirst⟩ :=
      Derivations.cut items h.2 hdepth'
    refine ⟨.list gap ds f, b', ?_, ?_, hcause, ?_⟩
    · simp only [Derivation.text, Fragment.text, List.cons_append, List.append_assoc,
        List.nil_append]
      rw [htext]
    · have hne : f ≠ .missing := by
        rintro rfl
        simp [Fragment.cause] at hcause
      refine ⟨Nat.lt_succ_of_le hdsDepth, ?_, hds, hne, hf⟩
      rw [← htext]
      exact h.1
    · intro p k
      have hinner := hfirst (p.after ('(' :: gap.text)) (k + 1)
      rw [← Position.after_append, Nat.add_right_comm] at hinner
      refine FirstListAt.cons hinner ?_
      simp [Node.isListAt]
  | .quotation k gap body, levels + 1, b, h, hdepth => by
    have hdepth' : levels < body.depth := Nat.lt_of_succ_lt_succ hdepth
    obtain ⟨f, b', htext, hf, hcause, hfirst⟩ := Derivation.cut body h.2.2 hdepth'
    refine ⟨.quotation k gap f, b', ?_, ?_, hcause, ?_⟩
    · simp only [Derivation.text, Fragment.text, List.append_assoc]
      rw [htext]
    · refine ⟨Nat.succ_pos levels, ?_, ?_, hf⟩
      · rw [← htext]
        exact h.1
      · rw [← htext]
        exact h.2.1
    · intro p j
      have hinner := hfirst (p.after (k.marker.toList ++ gap.text)) (j + 1)
      rw [← Position.after_append, List.append_assoc, Nat.add_right_comm] at hinner
      rw [← List.append_nil (Node.preorder _ _)] at hinner
      refine FirstListAt.cons (FirstListAt.cons hinner ?_) ?_
      · simp [Node.isListAt, Node.children?]
      · simp [Node.isListAt]

theorem Derivations.cut : (ds : Derivations) → {levels : Nat} → {b : List Char} → ds.Legal b →
    levels < ds.depth →
    ∃ (ds' : Derivations) (f : Fragment) (b' : List Char),
      ds.text ++ b = ds'.text ++ (f.text ++ b') ∧ ds'.Legal (f.text ++ b') ∧
        ds'.depth ≤ levels ∧ f.Stalls levels b' ∧ f.cause b' = .tooDeep ∧
        ∀ (p : Position) (k : Nat), FirstListAt (k + levels)
          (Node.preorderAll k (ds.nodes Position.after p)) (p.after (ds'.text ++ f.text))
  | .nil, levels, b, _, hdepth => absurd hdepth (Nat.not_lt_zero levels)
  | .cons head gap tail, levels, b, h, hdepth => by
    by_cases hhead : levels < head.depth
    · obtain ⟨f, b', htext, hf, hcause, hfirst⟩ := Derivation.cut head h.1 hhead
      refine ⟨.nil, f, b', ?_, trivial, Nat.zero_le levels, hf, hcause, ?_⟩
      · rw [Derivations.text, Derivations.text, List.nil_append, ← htext]
        simp only [List.append_assoc]
      · intro p k
        obtain ⟨n, hfind, hstart⟩ := hfirst p k
        refine ⟨n, ?_, hstart⟩
        rw [Derivations.nodes, Node.preorderAll, List.find?_append, hfind]
        rfl
    · have htail : levels < tail.depth := by
        have hmax : levels < max head.depth tail.depth := hdepth
        omega
      have hle : head.depth ≤ levels := Nat.le_of_not_lt hhead
      obtain ⟨ds, f, b', htext, hds, hdsDepth, hf, hcause, hfirst⟩ :=
        Derivations.cut tail h.2.2 htail
      refine ⟨.cons head gap ds, f, b', ?_, ⟨?_, ?_, hds⟩, ?_, hf, hcause, ?_⟩
      · simp only [Derivations.text, List.append_assoc]
        rw [htext]
      · rw [← htext]
        exact h.1
      · rw [← htext]
        exact h.2.1
      · exact Nat.max_le.2 ⟨hle, hdsDepth⟩
      · intro p k
        obtain ⟨n, hfind, hstart⟩ := hfirst (p.after (head.text ++ gap.text)) k
        have hskip : ((head.node Position.after p).preorder k).find?
            (Node.isListAt (k + levels)) = none :=
          Node.find?_preorder_eq_none _ (by rw [nesting_node]; omega)
        refine ⟨n, ?_, ?_⟩
        · rw [Derivations.nodes, Node.preorderAll, List.find?_append, hskip, hfind]
          rfl
        · rw [hstart, ← Position.after_append, Derivations.text]
          simp only [List.append_assoc]
end

end Grammar
end LispSyntax
