/-
The spans of a program tile its text.

A row is a run of nodes in a stretch of the text, with nothing but gaps in front of
the first, between one and the next and behind the last.  The nodes of a program are
a row behind the shebang line, and the children of a list are a row between its
parentheses, unless the list was read from a marker: then the marker is its first
child, and the gap behind the marker and the body are the rest of it.
`readWith_tiling` says so of every node that is read.  Since a row moves over the
text from one end to the other, order and enclosure of the spans follow from it.
-/
import LispSyntax.Proofs.Acceptance

namespace LispSyntax

open Grammar Text

/-! ## Stretches of text -/

namespace Position

theorem le_after (p : Position) (cs : List Char) : p ≤ p.after cs := by
  cases cs with
  | nil => exact le_refl p
  | cons c cs =>
    have hoffset := offset_after p (c :: cs)
    have hpos := c.utf8Size_pos
    rw [width_cons] at hoffset
    rw [le_iff]
    omega

theorem offset_lt_after (p : Position) {cs : List Char} (h : cs ≠ []) :
    p.offset < (p.after cs).offset := by
  cases cs with
  | nil => exact absurd rfl h
  | cons c cs =>
    have hoffset := offset_after p (c :: cs)
    have hpos := c.utf8Size_pos
    rw [width_cons] at hoffset
    omega

end Position

/-- Between the places `p` and `q` of the source stands the text `cs`. -/
def TextBetween (source : List Char) (p : Position) (cs : List Char) (q : Position) : Prop :=
  ∃ past behind, source = past ++ (cs ++ behind) ∧ p = Position.start.after past ∧ q = p.after cs

/-- Between the places `p` and `q` of the source stand blanks and comments. -/
def GapBetween (source : List Char) (p q : Position) : Prop :=
  ∃ (past : List Char) (g : Gap) (behind : List Char), source = past ++ (g.text ++ behind) ∧
    g.Legal behind ∧ p = Position.start.after past ∧ q = p.after g.text

/-- From the place `p` to the place `q` there are the nodes in turn and gaps. -/
def Row (source : List Char) : Position → List (Node Position) → Position → Prop
  | p, [], q => GapBetween source p q
  | p, n :: ns, q => GapBetween source p n.span.start ∧ Row source n.span.stop ns q

/-- Each node ends before those behind it start. -/
def Ordered (ns : List (Node Position)) : Prop :=
  ns.Pairwise fun m n => m.span.stop ≤ n.span.start

/-- The list was read from parentheses with a row between them. -/
def Parenthesised (source : List Char) (s : Span Position) (ns : List (Node Position)) : Prop :=
  ∃ p q, TextBetween source s.start ['('] p ∧ Row source p ns q ∧
    TextBetween source q [')'] s.stop

/-- The list was read from a marker and a body behind it. -/
def Marked (source : List Char) (s : Span Position) (ns : List (Node Position)) : Prop :=
  ∃ (k : QuoteKind) (p : Position) (body : Node Position),
    ns = [.atom ⟨s.start, p⟩ k.name, body] ∧ TextBetween source s.start k.marker.toList p ∧
      GapBetween source p body.span.start ∧ body.span.stop = s.stop

/-- The node takes up a stretch of the source, and its children tile it. -/
def Node.Tiled (source : List Char) : Node Position → Prop
  | .atom s _ => s.start.offset < s.stop.offset
  | .string s _ => s.start.offset < s.stop.offset
  | .list s ns =>
    s.start.offset < s.stop.offset ∧ (Parenthesised source s ns ∨ Marked source s ns) ∧
      Ordered ns ∧ ∀ n ∈ ns, s.Encloses n.span

/-- The nodes tile the source behind its shebang line, and so do all nodes in
them. -/
structure Tiling (o : Options) (source : List Char) (ns : List (Node Position)) : Prop where
  row : ∃ (shebang : Option Line) (behind : List Char),
    source = ProgramDerivation.shebangText shebang ++ behind ∧
      (shebang.isSome ↔ o.skipShebang = true ∧ ['#', '!'] <+: source) ∧
      (∀ l ∈ shebang, l.Legal behind) ∧
      Row source (Position.start.after (ProgramDerivation.shebangText shebang)) ns
        (Position.start.after source)
  ordered : Ordered ns
  nodes : ∀ m ∈ Node.preorderAll 0 ns, m.2.Tiled source

/-! ## Rows -/

section Row

variable {source : List Char} {p q : Position} {ns : List (Node Position)}

theorem GapBetween.le (h : GapBetween source p q) : p ≤ q := by
  obtain ⟨_, g, _, _, _, _, rfl⟩ := h
  exact p.le_after g.text

/-- The nodes of a row lie between its ends. -/
theorem Row.bounds (h : Row source p ns q) (hspans : ∀ n ∈ ns, n.span.start ≤ n.span.stop) :
    p ≤ q ∧ ∀ n ∈ ns, p ≤ n.span.start ∧ n.span.stop ≤ q := by
  induction ns generalizing p with
  | nil =>
    have hgap : GapBetween source p q := h
    exact ⟨hgap.le, fun n hn => absurd hn (by simp)⟩
  | cons n ns ih =>
    obtain ⟨hgap, hrest⟩ := h
    have hn := hspans n List.mem_cons_self
    obtain ⟨hle, hbounds⟩ := ih hrest fun m hm => hspans m (List.mem_cons_of_mem n hm)
    have hstop : p ≤ n.span.stop := Position.le_trans hgap.le hn
    refine ⟨Position.le_trans hstop hle, ?_⟩
    intro m hm
    rcases List.mem_cons.1 hm with rfl | hm
    · exact ⟨hgap.le, hle⟩
    · have hm' := hbounds m hm
      exact ⟨Position.le_trans hstop hm'.1, hm'.2⟩

theorem Row.ordered (h : Row source p ns q) (hspans : ∀ n ∈ ns, n.span.start ≤ n.span.stop) :
    Ordered ns := by
  induction ns generalizing p with
  | nil => exact List.Pairwise.nil
  | cons n ns ih =>
    obtain ⟨_, hrest⟩ := h
    have hspans' : ∀ m ∈ ns, m.span.start ≤ m.span.stop :=
      fun m hm => hspans m (List.mem_cons_of_mem n hm)
    have hbounds := (hrest.bounds hspans').2
    exact List.Pairwise.cons (fun m hm => (hbounds m hm).1) (ih hrest hspans')

end Row

/-! ## Derivations -/

namespace Grammar

variable {source : List Char}

theorem exists_of_mem_nodes {π : Type} {step : π → List Char → π} {n : Node π} :
    (ds : Derivations) → (p : π) → n ∈ ds.nodes step p →
      ∃ (d : Derivation) (p' : π), n = d.node step p'
  | .nil, _, h => absurd h (by simp [Derivations.nodes])
  | .cons head gap tail, p, h => by
    rcases List.mem_cons.1 h with rfl | h
    · exact ⟨head, p, rfl⟩
    · exact exists_of_mem_nodes tail _ h

theorem start_le_stop_of_mem_nodes {ds : Derivations} {p : Position} :
    ∀ n ∈ ds.nodes Position.after p, n.span.start ≤ n.span.stop := by
  intro n hn
  obtain ⟨d, p', rfl⟩ := exists_of_mem_nodes ds p hn
  rw [Derivation.span_node]
  exact p'.le_after d.text

theorem row_nodes : (ds : Derivations) → (gap : Gap) → (past behind : List Char) →
    source = past ++ (gap.text ++ (ds.text ++ behind)) → gap.Legal (ds.text ++ behind) →
    ds.Legal behind →
    Row source (Position.start.after past)
      (ds.nodes Position.after ((Position.start.after past).after gap.text))
      (((Position.start.after past).after gap.text).after ds.text)
  | .nil, gap, past, behind, h, hgap, _ => ⟨past, gap, behind, h, hgap, rfl, rfl⟩
  | .cons head gap' tail, gap, past, behind, h, hgap, hds => by
    refine ⟨⟨past, gap, _, h, hgap, rfl, ?_⟩, ?_⟩
    · rw [Derivation.span_node]
    · have hsource : source = (past ++ (gap.text ++ head.text)) ++
          (gap'.text ++ (tail.text ++ behind)) := by
        simpa [Derivations.text] using h
      have hrest := row_nodes tail gap' _ behind hsource hds.2.1 hds.2.2
      rw [Derivation.span_node]
      simpa only [Derivations.text, Position.after_append] using hrest

/-- A list is tiled by its parentheses and what they hold. -/
theorem tiled_list {gap : Gap} {items : Derivations} {past behind : List Char}
    (h : source = past ++ ((Derivation.list gap items).text ++ behind))
    (hd : (Derivation.list gap items).Legal behind) :
    ((Derivation.list gap items).node Position.after (Position.start.after past)).Tiled source := by
  have hopen : source = past ++ (['('] ++ (gap.text ++ (items.text ++ ')' :: behind))) := by
    simpa [Derivation.text] using h
  have hinside : source = (past ++ ['(']) ++ (gap.text ++ (items.text ++ ')' :: behind)) := by
    rw [hopen, List.append_assoc]
  have hclose : source = (past ++ ('(' :: (gap.text ++ items.text))) ++ ([')'] ++ behind) := by
    rw [hopen]
    simp
  have hrow := row_nodes items gap _ _ hinside hd.1 hd.2
  rw [Position.after_append] at hrow
  have hspans : ∀ n ∈ items.nodes Position.after
      (((Position.start.after past).after ['(']).after gap.text), n.span.start ≤ n.span.stop :=
    start_le_stop_of_mem_nodes
  have hends : (((Position.start.after past).after ['(']).after gap.text).after items.text =
      Position.start.after (past ++ ('(' :: (gap.text ++ items.text))) := by
    simp [Position.after_append]
  have hstop : (Position.start.after past).after (Derivation.list gap items).text =
      (Position.start.after (past ++ ('(' :: (gap.text ++ items.text)))).after [')'] := by
    simp [Position.after_append, Derivation.text]
  have hbounds := (hrow.bounds hspans).2
  refine ⟨Position.offset_lt_after _ (Derivation.text_ne_nil hd), Or.inl ?_,
    hrow.ordered hspans, ?_⟩
  · refine ⟨_, _, ⟨past, _, hopen, rfl, rfl⟩, hrow, ⟨_, behind, hclose, hends, ?_⟩⟩
    rw [hends, hstop]
  · intro n hn
    obtain ⟨hstart, hle⟩ := hbounds n hn
    refine ⟨Position.le_trans (Position.le_after _ _) hstart, Position.le_trans hle ?_⟩
    show _ ≤ (Position.start.after past).after (Derivation.list gap items).text
    rw [hends, hstop]
    exact Position.le_after _ _

/-- A quotation is tiled by its marker, the gap behind it and its body. -/
theorem tiled_quotation {k : QuoteKind} {gap : Gap} {body : Derivation} {past behind : List Char}
    (h : source = past ++ ((Derivation.quotation k gap body).text ++ behind))
    (hd : (Derivation.quotation k gap body).Legal behind) :
    ((Derivation.quotation k gap body).node Position.after
      (Position.start.after past)).Tiled source := by
  have hmarker : source = past ++ (k.marker.toList ++ (gap.text ++ (body.text ++ behind))) := by
    simpa [Derivation.text] using h
  have hgap : source = (past ++ k.marker.toList) ++ (gap.text ++ (body.text ++ behind)) := by
    rw [hmarker, List.append_assoc]
  have hspan := Derivation.span_node Position.after
    ((Position.start.after past).after (k.marker.toList ++ gap.text)) body
  have hstart : (body.node Position.after
      ((Position.start.after past).after (k.marker.toList ++ gap.text))).span.start =
      ((Position.start.after past).after k.marker.toList).after gap.text := by
    rw [hspan, Position.after_append]
  have hstop : (body.node Position.after
      ((Position.start.after past).after (k.marker.toList ++ gap.text))).span.stop =
      (Position.start.after past).after (Derivation.quotation k gap body).text := by
    rw [hspan, Derivation.text, ← List.append_assoc, Position.after_append _ (_ ++ _)]
  have hbetween : GapBetween source ((Position.start.after past).after k.marker.toList)
      (((Position.start.after past).after k.marker.toList).after gap.text) :=
    ⟨_, gap, _, hgap, hd.2.1, by rw [Position.after_append], rfl⟩
  have hbody : ((Position.start.after past).after k.marker.toList).after gap.text ≤
      (Position.start.after past).after (Derivation.quotation k gap body).text := by
    rw [Derivation.text, ← List.append_assoc, Position.after_append _ (_ ++ _),
      Position.after_append _ k.marker.toList]
    exact Position.le_after _ _
  refine ⟨Position.offset_lt_after _ (Derivation.text_ne_nil hd), Or.inr ?_, ?_, ?_⟩
  · refine ⟨k, _, _, rfl, ⟨past, _, hmarker, rfl, rfl⟩, ?_, hstop⟩
    rw [hstart]
    exact hbetween
  · refine List.Pairwise.cons ?_ (List.Pairwise.cons (by simp) List.Pairwise.nil)
    intro n hn
    obtain rfl := List.mem_singleton.1 hn
    rw [hstart]
    exact hbetween.le
  · intro n hn
    rcases List.mem_cons.1 hn with rfl | hn
    · exact ⟨Position.le_refl _, Position.le_trans hbetween.le hbody⟩
    · obtain rfl := List.mem_singleton.1 hn
      constructor
      · rw [hstart]
        exact Position.le_trans (Position.le_after _ _) hbetween.le
      · rw [hstop]
        exact Position.le_refl _

mutual
theorem tiled_node : (d : Derivation) → (past behind : List Char) → (depth : Nat) →
    source = past ++ (d.text ++ behind) → d.Legal behind →
    ∀ m ∈ (d.node Position.after (Position.start.after past)).preorder depth, m.2.Tiled source
  | .atom us, past, behind, depth, h, hd => by
    intro m hm
    rw [List.mem_singleton.1 hm]
    exact Position.offset_lt_after _ (Derivation.text_ne_nil hd)
  | .string us, past, behind, depth, h, hd => by
    intro m hm
    rw [List.mem_singleton.1 hm]
    exact Position.offset_lt_after _ (Derivation.text_ne_nil hd)
  | .list gap items, past, behind, depth, h, hd => by
    have hitems : source = (past ++ '(' :: gap.text) ++ (items.text ++ ')' :: behind) := by
      simpa [Derivation.text] using h
    have hchildren := tiled_nodes items _ _ (depth + 1) hitems hd.2
    rw [Position.after_append] at hchildren
    intro m hm
    rcases List.mem_cons.1 hm with rfl | hm
    · exact tiled_list h hd
    · exact hchildren m hm
  | .quotation k gap body, past, behind, depth, h, hd => by
    have hbody : source = (past ++ (k.marker.toList ++ gap.text)) ++ (body.text ++ behind) := by
      simpa [Derivation.text] using h
    have hchild := tiled_node body _ _ (depth + 1) hbody hd.2.2
    rw [Position.after_append] at hchild
    intro m hm
    rcases List.mem_cons.1 hm with rfl | hm
    · exact tiled_quotation h hd
    · rcases List.mem_append.1 hm with hm | hm
      · obtain ⟨c, cs, hcs, _⟩ := QuoteKind.marker_cons k
        rw [List.mem_singleton.1 hm]
        exact Position.offset_lt_after _ (by simp [hcs])
      · rcases List.mem_append.1 hm with hm | hm
        · exact hchild m hm
        · exact absurd hm (by simp [Node.preorderAll])

theorem tiled_nodes : (ds : Derivations) → (past behind : List Char) → (depth : Nat) →
    source = past ++ (ds.text ++ behind) → ds.Legal behind →
    ∀ m ∈ Node.preorderAll depth (ds.nodes Position.after (Position.start.after past)),
      m.2.Tiled source
  | .nil, _, _, _, _, _ => fun m hm => absurd hm (by simp [Derivations.nodes, Node.preorderAll])
  | .cons head gap tail, past, behind, depth, h, hds => by
    have hhead : source = past ++ (head.text ++ (gap.text ++ (tail.text ++ behind))) := by
      simpa [Derivations.text] using h
    have htail : source = (past ++ (head.text ++ gap.text)) ++ (tail.text ++ behind) := by
      simpa [Derivations.text] using h
    have hfirst := tiled_node head past _ depth hhead hds.1
    have hrest := tiled_nodes tail _ _ depth htail hds.2.2
    rw [Position.after_append] at hrest
    intro m hm
    rcases List.mem_append.1 hm with hm | hm
    · exact hfirst m hm
    · exact hrest m hm
end

end Grammar

/-- What is read as a program tiles its source, at every level. -/
theorem readWith_tiling {o : Options} {source : String} {ns : List (Node Position)}
    (h : readWith o source = .ok ns) : Tiling o source.toList ns := by
  obtain ⟨d, hd, htext⟩ := derivation_of_readWith h
  have hread := readWith_of_derivation hd htext
  rw [h] at hread
  obtain rfl := Except.ok.inj hread
  have hlead : source.toList = ProgramDerivation.shebangText d.shebang ++
      (d.gap.text ++ (d.items.text ++ [])) := by
    rw [← htext, List.append_nil]
    rfl
  have hitems : source.toList = (ProgramDerivation.shebangText d.shebang ++ d.gap.text) ++
      (d.items.text ++ []) := by
    rw [hlead, List.append_assoc]
  have hgap : d.gap.Legal (d.items.text ++ []) := by
    rw [List.append_nil]
    exact hd.gap
  have hrow := row_nodes d.items d.gap _ _ hlead hgap hd.items
  have hend : ((Position.start.after (ProgramDerivation.shebangText d.shebang)).after
      d.gap.text).after d.items.text = Position.start.after source.toList := by
    rw [hlead, List.append_nil, Position.after_append, Position.after_append]
  rw [hend, ← Position.after_append] at hrow
  refine ⟨⟨d.shebang, d.gap.text ++ d.items.text, ?_, ?_, hd.shebang, hrow⟩,
    hrow.ordered start_le_stop_of_mem_nodes, tiled_nodes d.items _ [] 0 hitems hd.items⟩
  · rw [hlead, List.append_nil]
  · rw [← htext]
    exact hd.shebang_iff

/-- A shebang line, and a list over two lines with a comment and a quotation in it. -/
theorem readWith_tiling_shebang : ∃ ns, readWith {} "#!x\n(a ;b\n 'c)" = .ok ns ∧ ns.length = 1 ∧
    Tiling {} "#!x\n(a ;b\n 'c)".toList ns := by
  have hread : ∃ ns, readWith {} "#!x\n(a ;b\n 'c)" = .ok ns ∧ ns.length = 1 := ⟨_, rfl, rfl⟩
  obtain ⟨ns, hns, hlength⟩ := hread
  exact ⟨ns, hns, hlength, readWith_tiling hns⟩

end LispSyntax
