/-
Well-formed spans.

A span is well formed if it is in order and, for a list, encloses the children.  The
spans of all trees that are read are, and so are those of all trees that are built
without a source.  The places in a tree that was read lie in its source, so its
counts fit into a machine word if those of the source do.
-/
import LispSyntax.Proofs.Tiling

namespace LispSyntax

open Grammar Text

/-! ## Nodes of trees -/

/-- The span of the node is in order, and that of a list encloses its children. -/
def Node.WellFormed : Node Position → Prop
  | .atom s _ => s.start ≤ s.stop
  | .string s _ => s.start ≤ s.stop
  | .list s ns => s.start ≤ s.stop ∧ ∀ n ∈ ns, s.Encloses n.span

instance : (n : Node Position) → Decidable n.WellFormed
  | .atom s _ => inferInstanceAs (Decidable (s.start ≤ s.stop))
  | .string s _ => inferInstanceAs (Decidable (s.start ≤ s.stop))
  | .list s ns => inferInstanceAs (Decidable (s.start ≤ s.stop ∧ ∀ n ∈ ns, s.Encloses n.span))

/-- The counts of the place are numbers of 64 bits. -/
def Position.Fits (p : Position) : Prop :=
  p.offset < Nat.pow 2 64 ∧ p.line < Nat.pow 2 64 ∧ p.column < Nat.pow 2 64

instance (p : Position) : Decidable p.Fits := inferInstanceAs (Decidable (_ ∧ _ ∧ _))

/-- Both ends of the span fit. -/
def Span.Fits (s : Span Position) : Prop := s.start.Fits ∧ s.stop.Fits

instance (s : Span Position) : Decidable s.Fits := inferInstanceAs (Decidable (_ ∧ _))

theorem Node.exists_of_mem_preorderAll {π : Type} {depth : Nat} {m : Nat × Node π}
    {ns : List (Node π)} (h : m ∈ preorderAll depth ns) : ∃ n ∈ ns, m ∈ n.preorder depth := by
  induction ns with
  | nil => exact absurd h (by simp [preorderAll])
  | cons n ns ih =>
    rcases List.mem_append.1 h with h | h
    · exact ⟨n, List.mem_cons_self, h⟩
    · obtain ⟨n', hn', hm⟩ := ih h
      exact ⟨n', List.mem_cons_of_mem n hn', hm⟩

/-! ## Trees without a source -/

/-- The tree was built without a source. -/
inductive Node.Sourceless : Node Position → Prop where
  | atom (text : String) : Sourceless (ofAtom text)
  | string (text : String) : Sourceless (ofString text)
  | list {ns : List (Node Position)} (h : ∀ n ∈ ns, Sourceless n) : Sourceless (ofList ns)
  | quotation (k : QuoteKind) {body : Node Position} (h : Sourceless body) :
    Sourceless (ofQuotation k body)

namespace Node

theorem Sourceless.span_eq {n : Node Position} (h : n.Sourceless) : n.span = .origin := by
  cases h <;> rfl

theorem wellFormed_ofList {ns : List (Node Position)} (h : ∀ n ∈ ns, n.Sourceless) :
    (ofList ns).WellFormed := by
  refine ⟨Position.le_refl _, fun n hn => ?_⟩
  rw [(h n hn).span_eq]
  exact ⟨Position.le_refl _, Position.le_refl _⟩

theorem Sourceless.of_mem_preorder {n : Node Position} (h : n.Sourceless) {depth : Nat}
    {m : Nat × Node Position} (hm : m ∈ n.preorder depth) :
    m.2.WellFormed ∧ m.2.span = .origin := by
  induction h generalizing depth with
  | atom text =>
    rw [List.mem_singleton.1 hm]
    exact ⟨Position.le_refl _, rfl⟩
  | string text =>
    rw [List.mem_singleton.1 hm]
    exact ⟨Position.le_refl _, rfl⟩
  | list hns ih =>
    rcases List.mem_cons.1 hm with rfl | hm
    · exact ⟨wellFormed_ofList hns, rfl⟩
    · obtain ⟨n, hn, hm⟩ := exists_of_mem_preorderAll hm
      exact ih n hn hm
  | @quotation k body hbody ih =>
    have hchildren : ∀ n ∈ [ofAtom k.name, body], n.Sourceless := by
      intro n hn
      rcases List.mem_cons.1 hn with rfl | hn
      · exact .atom k.name
      · rw [List.mem_singleton.1 hn]
        exact hbody
    rcases List.mem_cons.1 hm with rfl | hm
    · exact ⟨wellFormed_ofList hchildren, rfl⟩
    · rcases List.mem_cons.1 hm with rfl | hm
      · exact ⟨Position.le_refl _, rfl⟩
      · exact ih (by simpa [preorderAll] using hm)

end Node

/-! ## Trees with a source -/

theorem Node.Tiled.wellFormed {source : List Char} {n : Node Position} (h : n.Tiled source) :
    n.WellFormed := by
  cases n with
  | atom s text => exact Or.inl h
  | string s text => exact Or.inl h
  | list s ns => exact ⟨Or.inl h.1, h.2.2.2⟩

namespace Position

theorem after_le (p : Position) (cs : List Char) :
    (p.after cs).line ≤ p.line + width cs ∧ (p.after cs).column ≤ p.column + width cs := by
  induction cs generalizing p with
  | nil => exact ⟨Nat.le_refl _, Nat.le_refl _⟩
  | cons c cs ih =>
    have hpos := c.utf8Size_pos
    obtain ⟨hline, hcolumn⟩ := ih (p.advance c)
    have hadvance : (p.advance c).line ≤ p.line + 1 ∧ (p.advance c).column ≤ p.column + 1 := by
      unfold advance
      split <;> simp
    rw [after_cons, width_cons]
    omega

theorem IsIn.fits {source : List Char} {p : Position} (h : p.IsIn source)
    (hsource : width source + 1 < Nat.pow 2 64) : p.Fits := by
  obtain ⟨past, behind, rfl, rfl⟩ := h
  have hoffset := offset_start_after past
  have hle := after_le start past
  rw [width_append] at hsource
  refine ⟨?_, ?_, ?_⟩
  · omega
  · exact Nat.lt_of_le_of_lt hle.1 (by simp only [start]; omega)
  · exact Nat.lt_of_le_of_lt hle.2 (by simp only [start]; omega)

end Position

namespace Locator

variable {source : List Char}

mutual
/-- Only places of the source are looked up. -/
theorem isIn_locate : (n : Node Nat) → (l : Locator source) → (depth : Nat) →
    ∀ m ∈ (l.locate n).1.preorder depth, m.2.span.start.IsIn source ∧ m.2.span.stop.IsIn source
  | .atom s text, l, depth => by
    intro m hm
    rw [List.mem_singleton.1 hm]
    exact ⟨Locator.reached _, Locator.reached _⟩
  | .string s text, l, depth => by
    intro m hm
    rw [List.mem_singleton.1 hm]
    exact ⟨Locator.reached _, Locator.reached _⟩
  | .list s ns, l, depth => by
    have hchildren := isIn_locateAll ns l (depth + 1)
    intro m hm
    rcases List.mem_cons.1 hm with rfl | hm
    · exact ⟨Locator.reached _, Locator.reached _⟩
    · exact hchildren m hm

theorem isIn_locateAll : (ns : List (Node Nat)) → (l : Locator source) → (depth : Nat) →
    ∀ m ∈ Node.preorderAll depth (l.locateAll ns).1,
      m.2.span.start.IsIn source ∧ m.2.span.stop.IsIn source
  | [], _, _ => fun m hm => absurd hm (by simp [locateAll, Node.preorderAll])
  | n :: ns, l, depth => by
    have hfirst := isIn_locate n l depth
    have hrest := isIn_locateAll ns (l.locate n).2 depth
    intro m hm
    rcases List.mem_append.1 hm with hm | hm
    · exact hfirst m hm
    · exact hrest m hm
end

end Locator

section Reading

variable {o : Options} {source : String} {ns : List (Node Position)}

theorem readWith_wellFormed (h : readWith o source = .ok ns) :
    ∀ m ∈ Node.preorderAll 0 ns, m.2.WellFormed := by
  obtain ⟨d, hd, htext, rfl⟩ := nodes_of_readWith h
  have hitems : source.toList =
      (ProgramDerivation.shebangText d.shebang ++ d.gap.text) ++ (d.items.text ++ []) := by
    rw [← htext]
    simp [ProgramDerivation.text]
  intro m hm
  exact (tiled_nodes d.items _ [] 0 hitems hd.items m hm).wellFormed

theorem readWith_isIn (h : readWith o source = .ok ns) : ∀ m ∈ Node.preorderAll 0 ns,
    m.2.span.start.IsIn source.toList ∧ m.2.span.stop.IsIn source.toList := by
  unfold readWith at h
  split at h
  · next ms _ =>
    obtain rfl := Except.ok.inj h
    exact Locator.isIn_locateAll ms _ 0
  · simp at h

end Reading

end LispSyntax
