/-
Printed programs are read back.

Trees without empty atoms are printed one after the other, with blanks between them,
and the text is read as these trees again.  There is one exception: where shebang lines
are skipped, a text that starts like one loses its first line.  It starts so exactly if
the first tree is an atom whose text does.  Then no reading gives the trees back, since
every `#` of a printed text stands in the text of an atom or of a string.  What is left
behind the shebang line has one of them less than the trees, whatever it is read as.
-/
import LispSyntax.Proofs.Acceptance
import LispSyntax.Proofs.RoundTrip

namespace LispSyntax

open Text

/-! ## Hashes in trees -/

namespace Node

variable {π ρ : Type}

mutual
/-- How often `#` occurs in the texts of the tree. -/
def hashes : Node π → Nat
  | .atom _ t => t.toList.count '#'
  | .string _ t => t.toList.count '#'
  | .list _ ns => hashesAll ns

def hashesAll : List (Node π) → Nat
  | [] => 0
  | n :: ns => hashes n + hashesAll ns
end

mutual
theorem hashes_map (f : π → ρ) : (n : Node π) → (n.map f).hashes = n.hashes
  | .atom _ _ => rfl
  | .string _ _ => rfl
  | .list _ ns => hashesAll_mapAll f ns

theorem hashesAll_mapAll (f : π → ρ) : (ns : List (Node π)) →
    hashesAll (mapAll f ns) = hashesAll ns
  | [] => rfl
  | n :: ns => by rw [mapAll, hashesAll, hashesAll, hashes_map f n, hashesAll_mapAll f ns]
end

/-- The hashes of trees do not depend on their spans. -/
theorem hashesAll_map_eraseSpans (ns : List (Node π)) :
    hashesAll (ns.map eraseSpans) = hashesAll ns := by
  have hmap : ns.map eraseSpans = mapAll (fun _ => Position.start) ns := (mapAll_eq_map _ ns).symm
  rw [hmap, hashesAll_mapAll]

end Node

/-! ## Hashes in texts -/

theorem ne_hash_of_escaped {letter c : Char} (h : escaped? letter = some c) :
    letter ≠ '#' ∧ c ≠ '#' := by
  constructor
  · rintro rfl
    have hnone : escaped? '#' = none := rfl
    exact absurd (hnone.symm.trans h) (by simp)
  · rintro rfl
    unfold escaped? at h
    split at h <;> exact absurd h (by decide)

theorem count_flatMap_of_count {α : Type} {f : α → List Char} {g : α → Char} {l : List α}
    (h : ∀ a ∈ l, (f a).count '#' = [g a].count '#') :
    (l.flatMap f).count '#' = (l.map g).count '#' := by
  induction l with
  | nil => rfl
  | cons a l ih =>
    have hhead := h a List.mem_cons_self
    have htail := ih fun a' ha' => h a' (List.mem_cons_of_mem a ha')
    rw [List.flatMap_cons, List.count_append, hhead, htail, List.map_cons, ← List.count_append]
    rfl

theorem count_escaped (c : Char) : ['\\', c].count '#' = [c].count '#' :=
  List.count_cons_of_ne (by decide)

theorem count_writeInAtom (c : Char) : (writeInAtom c).count '#' = [c].count '#' := by
  unfold writeInAtom
  split
  · exact count_escaped c
  · rfl

theorem count_letter {letter c : Char} (h : escaped? letter = some c) :
    ['\\', letter].count '#' = [c].count '#' := by
  obtain ⟨hletter, hc⟩ := ne_hash_of_escaped h
  simp [hletter, hc]

theorem count_writeInString (c : Char) : (writeInString c).count '#' = [c].count '#' := by
  rcases Grammar.writeInString_cases c with ⟨hplain, _⟩ | ⟨letter, hescape, hletter⟩
  · rw [hplain]
  · rw [hescape, count_letter hletter]

namespace Node

variable {π : Type}

mutual
/-- In the text of a tree `#` stands in the texts of its atoms and strings only. -/
theorem count_write : (n : Node π) → (rest : List Char) →
    (n.write rest).count '#' = n.hashes + rest.count '#'
  | .atom _ t, rest => by
    rw [write, List.count_append, count_flatMap_of_count fun c _ => count_writeInAtom c,
      List.map_id']
    rfl
  | .string _ t, rest => by
    rw [write, List.count_cons_of_ne (by decide), List.count_append,
      count_flatMap_of_count fun c _ => count_writeInString c, List.map_id',
      List.count_cons_of_ne (by decide)]
    rfl
  | .list _ [], rest => by
    rw [write, List.count_cons_of_ne (by decide), List.count_cons_of_ne (by decide)]
    exact (Nat.zero_add _).symm
  | .list _ (n :: ns), rest => by
    rw [write, List.count_cons_of_ne (by decide), count_write n, count_writeMore ns,
      List.count_cons_of_ne (by decide), hashes, hashesAll, Nat.add_assoc]

theorem count_writeMore : (ns : List (Node π)) → (rest : List Char) →
    (writeMore ns rest).count '#' = hashesAll ns + rest.count '#'
  | [], rest => (Nat.zero_add _).symm
  | n :: ns, rest => by
    rw [writeMore, List.count_cons_of_ne (by decide), count_write n, count_writeMore ns, hashesAll,
      Nat.add_assoc]
end

theorem count_flatMap_write {sep : List Char} (hsep : sep.count '#' = 0) (ns : List (Node π)) :
    (ns.flatMap fun n => sep ++ n.write []).count '#' = hashesAll ns := by
  induction ns with
  | nil => rfl
  | cons n ns ih =>
    rw [List.flatMap_cons, List.count_append, List.count_append, hsep, count_write, ih, hashesAll,
      List.count_nil, Nat.add_zero, Nat.zero_add]

end Node

namespace Grammar

section Hashes

variable {π : Type} {step : π → List Char → π}

mutual
/-- The text of an expression has every `#` of its tree. -/
theorem hashes_node_le : (d : Derivation) → {b : List Char} → (p : π) → d.Legal b →
    (d.node step p).hashes ≤ d.text.count '#'
  | .atom us, b, p, _ => by
    have hunits : (us.flatMap AtomUnit.text).count '#' = (us.map AtomUnit.char).count '#' := by
      refine count_flatMap_of_count fun u _ => ?_
      cases u with
      | plain c => rfl
      | escaped c => exact count_escaped c
    refine Nat.le_of_eq ?_
    rw [Derivation.node, Node.hashes, String.toList_ofList, Derivation.text, hunits]
  | .string us, b, p, h => by
    have hunits : (us.flatMap StringUnit.text).count '#' = (us.map StringUnit.char).count '#' := by
      refine count_flatMap_of_count fun u hu => ?_
      cases u with
      | plain c => rfl
      | escape letter c => exact count_letter (h _ hu)
    rw [Derivation.node, Node.hashes, String.toList_ofList, Derivation.text,
      List.count_cons_of_ne (by decide), List.count_append, hunits]
    omega
  | .list gap items, b, p, ⟨_, hitems⟩ => by
    have hchildren := hashesAll_nodes_le items (step p ('(' :: gap.text)) hitems
    rw [Derivation.node, Node.hashes, Derivation.text, List.count_cons_of_ne (by decide),
      List.count_append, List.count_append]
    omega
  | .quotation k gap body, b, p, ⟨_, _, hbody⟩ => by
    have hchild := hashes_node_le body (step p (k.marker.toList ++ gap.text)) hbody
    have hname : k.name.toList.count '#' = 0 := by
      cases k <;> decide
    rw [Derivation.node, Node.hashes, Node.hashesAll, Node.hashesAll, Node.hashesAll, Node.hashes,
      Derivation.text, List.count_append, List.count_append, hname]
    omega

theorem hashesAll_nodes_le : (ds : Derivations) → {b : List Char} → (p : π) → ds.Legal b →
    Node.hashesAll (ds.nodes step p) ≤ ds.text.count '#'
  | .nil, b, p, _ => Nat.le_refl 0
  | .cons head gap tail, b, p, ⟨hhead, _, htail⟩ => by
    have hfirst := hashes_node_le head p hhead
    have hrest := hashesAll_nodes_le tail (step p (head.text ++ gap.text)) htail
    rw [Derivations.nodes, Node.hashesAll, Derivations.text, List.count_append, List.count_append]
    omega
end

end Hashes

/-! ## Printed programs -/

theorem intercalate_cons_flatMap (sep cs : List Char) (css : List (List Char)) :
    sep.intercalate (cs :: css) = cs ++ css.flatMap (sep ++ ·) := by
  induction css generalizing cs with
  | nil => simp
  | cons ds css ih => simp [ih]

/-- A gap that is not empty ends an atom. -/
theorem Gap.endsAtom_text_append {g : Gap} {b : List Char} (h : g.Legal b) (hne : g ≠ [])
    (b' : List Char) : EndsAtom (g.text ++ b') := by
  obtain ⟨c, cs, htext, hblank | rfl⟩ := Gap.text_eq_cons h hne
  · rw [htext]
    exact endsAtom_cons_of_isBlank hblank _
  · rw [htext]
    intro d hd
    obtain rfl : ';' = d := by simpa using hd
    decide

/-- The gap that blanks make up. -/
theorem exists_gap_of_blanks {sep : List Char} (hsep : ∀ c ∈ sep, isBlank c = true) :
    ∃ g : Gap, g.text = sep ∧ ∀ b, g.Legal b := by
  induction sep with
  | nil => exact ⟨[], rfl, fun _ => trivial⟩
  | cons c sep ih =>
    obtain ⟨g, htext, hg⟩ := ih fun d hd => hsep d (List.mem_cons_of_mem c hd)
    have hc : isBlank c = true := hsep c List.mem_cons_self
    exact ⟨.blank c :: g, by rw [Gap.text, htext]; rfl, fun b => ⟨hc, hg b⟩⟩

section Program

variable {π : Type} {sep : List Char} {o : Options}

theorem endsAtom_flatMap_write (hne : sep ≠ []) (hsep : ∀ c ∈ sep, isBlank c = true)
    (ns : List (Node π)) : EndsAtom (ns.flatMap fun n => sep ++ n.write []) := by
  cases ns with
  | nil => exact endsAtom_nil
  | cons n ns =>
    cases sep with
    | nil => exact absurd rfl hne
    | cons c sep => exact endsAtom_cons_of_isBlank (hsep c List.mem_cons_self) _

/-- The text of a tree without empty atoms has a derivation that gives the tree again. -/
theorem exists_printed_of_text (n : Node π) {depth : Nat}
    (hempty : ∀ m ∈ n.preorder depth, m.2.atomText? ≠ some "") :
    ∃ d : Derivation, d.text = n.write [] ∧ (∀ b, EndsAtom b → d.Legal b) ∧ d.depth = n.nesting ∧
      d.node nowhere .start = n.eraseSpans := by
  have hn : n.atomText? ≠ some "" := hempty (depth, n) (Node.mem_preorder n depth)
  obtain ⟨d, htext, hd, hdepth, hnode⟩ := exists_printed n hn
  exact ⟨d, htext, hd, hdepth, hnode.trans ((Node.map_dropEmpty_eq_iff _ n depth hn).2 hempty)⟩

/-- Trees printed one after the other, each with a text behind it that is a gap, have a
derivation, and that gives them again. -/
theorem exists_printedItems {tail : Node π → List Char}
    (hgap : ∀ n, ∃ g : Gap, g ≠ [] ∧ g.text = tail n ++ sep ∧ ∀ b, g.Legal b)
    (hlast : ∀ n, ∃ g : Gap, g.text = tail n ∧ g.Legal []) (n : Node π) (ns : List (Node π))
    (hempty : ∀ m ∈ Node.preorderAll 0 (n :: ns), m.2.atomText? ≠ some "") :
    ∃ ds : Derivations, ds.text =
        (n.write [] ++ tail n) ++ ns.flatMap (fun n => sep ++ (n.write [] ++ tail n)) ∧
      ds.Legal [] ∧ ds.depth = Node.nestingAll (n :: ns) ∧
      ds.nodes nowhere .start = (n :: ns).map Node.eraseSpans := by
  induction ns generalizing n with
  | nil =>
    obtain ⟨d, htext, hd, hdepth, hnode⟩ := exists_printed_of_text n fun m hm =>
      hempty m (List.mem_append_left _ hm)
    obtain ⟨gap, hgapText, hlegal⟩ := hlast n
    refine ⟨.cons d gap .nil, ?_, ⟨hd _ ?_, hlegal, trivial⟩, ?_, ?_⟩
    · simp [Derivations.text, htext, hgapText]
    · cases gap with
      | nil => exact endsAtom_nil
      | cons f gap => exact Gap.endsAtom_text_append hlegal (by simp) _
    · rw [Derivations.depth, hdepth]
      rfl
    · rw [Derivations.nodes, hnode]
      rfl
  | cons n' ns ih =>
    obtain ⟨d, htext, hd, hdepth, hnode⟩ := exists_printed_of_text n fun m hm =>
      hempty m (List.mem_append_left _ hm)
    obtain ⟨ds, hdsText, hds, hdsDepth, hdsNodes⟩ := ih n' fun m hm =>
      hempty m (List.mem_append_right _ hm)
    obtain ⟨gap, hne, hgapText, hlegal⟩ := hgap n
    refine ⟨.cons d gap ds, ?_, ⟨hd _ (Gap.endsAtom_text_append (hlegal []) hne _), hlegal _, hds⟩,
      ?_, ?_⟩
    · rw [Derivations.text, htext, hgapText, hdsText, List.flatMap_cons]
      simp only [List.append_assoc]
    · rw [Derivations.depth, hdepth, hdsDepth]
      rfl
    · rw [Derivations.nodes, hnode, hdsNodes]
      rfl

/-- A text without reserved characters begins a printed atom if it begins the text of the
atom: nothing of it is escaped, and what stands behind the atom begins otherwise. -/
theorem isPrefix_writeInAtom {as cs tail : List Char} (has : ∀ a ∈ as, isReserved a = false)
    (htail : EndsAtom tail) : as <+: cs.flatMap writeInAtom ++ tail ↔ as <+: cs := by
  induction as generalizing cs with
  | nil => simp
  | cons a as ih =>
    have ha : isReserved a = false := has a List.mem_cons_self
    have has' : ∀ a' ∈ as, isReserved a' = false :=
      fun a' ha' => has a' (List.mem_cons_of_mem a ha')
    cases cs with
    | nil =>
      cases tail with
      | nil => simp
      | cons d tail =>
        have hne : a ≠ d := by
          rintro rfl
          exact absurd (ha.symm.trans (htail a rfl).1) (by decide)
        simp [hne]
    | cons c cs =>
      rw [List.flatMap_cons, List.append_assoc]
      by_cases hc : isReserved c = true
      · have hslash : a ≠ '\\' := by
          rintro rfl
          exact absurd ha (by decide)
        have hne : a ≠ c := by
          rintro rfl
          exact absurd (ha.symm.trans hc) (by decide)
        simp [writeInAtom, hc, hslash, hne]
      · rw [writeInAtom, if_neg hc, List.singleton_append, List.cons_prefix_cons,
          List.cons_prefix_cons, ih has']

/-- A printed text starts like a shebang line exactly if its first tree is an atom whose
text does. -/
theorem isPrefix_write (n : Node π) {tail : List Char} (htail : EndsAtom tail) :
    ['#', '!'] <+: n.write [] ++ tail ↔ ∃ t, n.atomText? = some t ∧ ['#', '!'] <+: t.toList := by
  have hplain : ∀ a ∈ ['#', '!'], isReserved a = false := by
    intro a ha
    rcases List.mem_cons.1 ha with rfl | ha
    · decide
    · rw [List.mem_singleton.1 ha]
      decide
  cases n with
  | atom s t =>
    rw [Node.write, List.append_nil, isPrefix_writeInAtom hplain htail]
    simp [Node.atomText?]
  | string s t => simp [Node.write, Node.atomText?]
  | list s ns =>
    rw [Node.write_list]
    simp [Node.atomText?]

theorem toList_intercalate_map {α : Type} (f : α → String) (a : α) (as : List α) :
    ((String.ofList sep).intercalate ((a :: as).map f)).toList =
      (f a).toList ++ as.flatMap fun a => sep ++ (f a).toList := by
  rw [String.toList_intercalate, String.toList_ofList, List.map_map, List.map_cons,
    intercalate_cons_flatMap, List.flatMap_map]
  rfl

/-- Behind a shebang line there are fewer hashes than in the text, so no reading has all
of them in its trees. -/
theorem hashesAll_nodes_lt {pd : ProgramDerivation} (h : pd.Legal o)
    (hskip : o.skipShebang = true ∧ ['#', '!'] <+: pd.text) :
    Node.hashesAll pd.nodes < pd.text.count '#' := by
  obtain ⟨l, hl⟩ := Option.isSome_iff_exists.1 (h.shebang_iff.2 hskip)
  have htext : pd.text = '#' :: ('!' :: l.text ++ (pd.gap.text ++ pd.items.text)) := by
    rw [ProgramDerivation.text, hl]
    rfl
  have hitems : Node.hashesAll pd.nodes ≤ pd.items.text.count '#' :=
    hashesAll_nodes_le pd.items _ h.items
  rw [htext, List.count_cons_self, List.count_append, List.count_append]
  omega

/-- Printed trees with blanks between them are read as these trees, unless shebang lines
are skipped and the first tree is an atom that looks like one. -/
theorem readWith_print_iff (n : Node π) (ns : List (Node π))
    (hempty : ∀ m ∈ Node.preorderAll 0 (n :: ns), m.2.atomText? ≠ some "") (hne : sep ≠ [])
    (hsep : ∀ c ∈ sep, isBlank c = true) (hdepth : Node.nestingAll (n :: ns) ≤ o.maxDepth) :
    (∃ out, readWith o ((String.ofList sep).intercalate ((n :: ns).map Node.print)) = .ok out ∧
      out.map Node.eraseSpans = (n :: ns).map Node.eraseSpans) ↔
    ¬(o.skipShebang = true ∧ ∃ t, n.atomText? = some t ∧ ['#', '!'] <+: t.toList) := by
  have hsource : ((String.ofList sep).intercalate ((n :: ns).map Node.print)).toList =
      n.write [] ++ ns.flatMap fun n => sep ++ n.write [] := by
    simp only [toList_intercalate_map, Node.print, String.toList_ofList]
  have hprefix := isPrefix_write n (endsAtom_flatMap_write hne hsep ns)
  constructor
  -- the hashes are counted in the text, and again in the trees that were read from it
  · rintro ⟨out, hread, hout⟩ ⟨hskip, hatom⟩
    obtain ⟨pd, hpd, htext, rfl⟩ := nodes_of_readWith hread
    rw [hsource] at htext
    have hlt := hashesAll_nodes_lt hpd ⟨hskip, htext ▸ hprefix.2 hatom⟩
    have hblank : sep.count '#' = 0 := by
      refine List.count_eq_zero.2 fun hmem => ?_
      exact absurd (hsep _ hmem) (by decide)
    have hcount : pd.text.count '#' = Node.hashesAll (n :: ns) := by
      rw [htext, List.count_append, Node.count_write, Node.count_flatMap_write hblank,
        Node.hashesAll]
      rfl
    have hsame : Node.hashesAll pd.nodes = Node.hashesAll (n :: ns) := by
      rw [← Node.hashesAll_map_eraseSpans, hout, Node.hashesAll_map_eraseSpans]
    omega
  · intro hno
    obtain ⟨gap, hgapText, hgap⟩ := exists_gap_of_blanks hsep
    have hgapNe : gap ≠ [] := by
      rintro rfl
      exact hne hgapText.symm
    obtain ⟨ds, htext, hds, hdsDepth, hnodes⟩ := @exists_printedItems _ sep (fun _ => [])
      (fun _ => ⟨gap, hgapNe, hgapText, hgap⟩) (fun _ => ⟨[], rfl, trivial⟩) n ns hempty
    simp only [List.append_nil] at htext
    have hpd : (ProgramDerivation.mk none [] ds).Legal o := by
      refine ⟨?_, by simp, trivial, hds, hdsDepth ▸ hdepth⟩
      show _ ↔ o.skipShebang = true ∧ ['#', '!'] <+: ds.text
      rw [htext, hprefix]
      simpa using hno
    refine ⟨_, readWith_of_derivation hpd (htext.trans hsource.symm), ?_⟩
    rw [map_eraseSpans_nodes]
    exact hnodes

end Program

/-- An atom that looks like a shebang line, in front of a list. -/
theorem readWith_print_iff_shebang :
    (¬∃ out, readWith ⟨1, true⟩ ((String.ofList [' ']).intercalate
        ([Node.ofAtom "#!\n(", .ofList [.ofString "#"]].map Node.print)) = .ok out ∧
      out.map Node.eraseSpans =
        [Node.ofAtom "#!\n(", .ofList [.ofString "#"]].map Node.eraseSpans) ∧
    ∃ out, readWith ⟨1, false⟩ ((String.ofList [' ']).intercalate
        ([Node.ofAtom "#!\n(", .ofList [.ofString "#"]].map Node.print)) = .ok out ∧
      out.map Node.eraseSpans =
        [Node.ofAtom "#!\n(", .ofList [.ofString "#"]].map Node.eraseSpans := by
  have hsep : ∀ c ∈ [' '], isBlank c = true := by
    intro c hc
    rw [List.mem_singleton.1 hc]
    decide
  constructor
  · intro hread
    have hno := (readWith_print_iff _ _ (by decide) (by simp) hsep (by decide)).1 hread
    exact hno ⟨rfl, "#!\n(", rfl, by decide⟩
  · exact (readWith_print_iff _ _ (by decide) (by simp) hsep (by decide)).2 (by simp)

end Grammar
end LispSyntax
