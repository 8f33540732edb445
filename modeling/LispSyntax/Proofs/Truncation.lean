/-
Texts that are cut off between two nodes.

No expression needs more of the text behind it than the character that ends it, and
where the text ends it ends as well.  So a program that is cut off behind one of its
expressions, and not behind the start of the next, is a program of the expressions
before the cut.  The cut lies in the gap between the two, be it inside a comment: what is
left of the comment then ends the text.  Places are counted from the start, so they stay
what they were.
-/
import LispSyntax.Proofs.Acceptance

namespace LispSyntax
namespace Grammar

open Text

/-! ## Beginnings of gaps -/

/-- What ends an atom in front of a text ends it where the text is cut off as well. -/
theorem EndsAtom.of_append {cs ds : List Char} (h : EndsAtom (cs ++ ds)) : EndsAtom cs := by
  cases cs with
  | nil => exact endsAtom_nil
  | cons c cs => exact h

/-- The beginning of a line is a line that the text ends, unless it is all of the line. -/
theorem Line.exists_beginning {l : Line} {cs ds : List Char} (hl : '\n' ∉ l.body)
    (h : l.text = cs ++ ds) : ∃ l' : Line, l'.text = cs ∧ l'.Legal [] := by
  rcases cut_append h with ⟨mid, hbody, _⟩ | ⟨mid, hne, hcs, hend⟩
  · refine ⟨⟨cs, false⟩, by simp [Line.text], fun hmem => hl ?_, fun _ => rfl⟩
    rw [hbody]
    exact List.mem_append_left mid hmem
  · -- nothing is left of a newline behind its first character
    have hds : ds = [] := by
      cases mid with
      | nil => exact absurd rfl hne
      | cons c mid =>
        split at hend
        · exact (List.append_eq_nil_iff.1 (List.cons.inj hend).2.symm).2
        · simp at hend
    refine ⟨l, ?_, hl, fun _ => rfl⟩
    rw [h, hds, List.append_nil]

/-- The beginning of a gap is a gap at the end of a text. -/
theorem Gap.exists_beginning {g : Gap} {b cs ds : List Char} (hg : g.Legal b)
    (h : g.text = cs ++ ds) : ∃ g' : Gap, g'.text = cs ∧ g'.Legal [] := by
  induction g generalizing cs with
  | nil =>
    have hnil : cs = [] := (List.append_eq_nil_iff.1 h.symm).1
    exact ⟨[], hnil.symm, trivial⟩
  | cons f g ih =>
    cases cs with
    | nil => exact ⟨[], rfl, trivial⟩
    | cons c cs =>
      cases f with
      | blank c' =>
        obtain ⟨rfl, hrest⟩ : c' = c ∧ Gap.text g = cs ++ ds := List.cons.inj h
        obtain ⟨g', htext, hg'⟩ := ih hg.2 hrest
        exact ⟨.blank c' :: g', by rw [Gap.text, htext]; rfl, hg.1, hg'⟩
      | comment l =>
        obtain ⟨rfl, hrest⟩ : ';' = c ∧ l.text ++ Gap.text g = cs ++ ds := List.cons.inj h
        rcases cut_append hrest with ⟨mid, hline, _⟩ | ⟨mid, hne, hcs, hmid⟩
        · obtain ⟨l', htext, hl'⟩ := Line.exists_beginning hg.1.1 hline
          exact ⟨[.comment l'], by simp [Gap.text, Filler.text, htext], hl', trivial⟩
        · obtain ⟨g', htext, hg'⟩ := ih hg.2 hmid
          refine ⟨.comment l :: g', ?_, ⟨hg.1.1, fun hopen => ?_⟩, hg'⟩
          · rw [Gap.text, htext, hcs]
            rfl
          · -- something of the gap is left behind the comment, so a newline ends it
            have hbehind := (List.append_eq_nil_iff.1 (hg.1.2 hopen)).1
            rw [hmid] at hbehind
            exact absurd (List.append_eq_nil_iff.1 hbehind).1 hne

/-! ## Expressions before a cut -/

section Cut

variable {ds : Derivations} {past front back : List Char}
  {before after : List (Node Position)} {n : Node Position}

/-- A cut behind the first expression, and not behind the start of the second, leaves the
first expression and the beginning of the gap behind it. -/
theorem exists_cut_behind {head : Derivation} {gap : Gap} {tail : Derivations} {p : Position}
    (hds : (Derivations.cons head gap tail).Legal [])
    (hcut : past ++ (Derivations.cons head gap tail).text = front ++ back)
    (hp : p.offset = width past) (hstop : (p.after head.text).offset ≤ width front)
    (hnext : ∀ m ∈ (tail.nodes Position.after (p.after (head.text ++ gap.text))).head?,
      width front ≤ m.span.start.offset) :
    ∃ g : Gap, (Derivations.cons head gap tail).text = head.text ++ (g.text ++ back) ∧
      (Derivations.cons head g .nil).Legal [] := by
  obtain ⟨hhead, hgap, _⟩ := hds
  have hbehind : (past ++ head.text) ++ (gap.text ++ tail.text) = front ++ back := by
    rw [← hcut, Derivations.text, List.append_assoc]
  rw [Position.offset_after, hp] at hstop
  obtain ⟨mid, hfront, hmid⟩ :=
    exists_append_of_width_le hbehind (by rw [width_append]; exact hstop)
  -- the cut is no further than the start of the second, so it is inside the gap
  have hwidth : width mid ≤ width gap.text := by
    have hsum := congrArg width hmid
    rw [width_append, width_append] at hsum
    cases tail with
    | nil =>
      rw [Derivations.text, width_nil] at hsum
      omega
    | cons second gap' tail =>
      have hle := hnext _ rfl
      rw [Derivation.span_node] at hle
      change width front ≤ (p.after (head.text ++ gap.text)).offset at hle
      rw [Position.offset_after, hp, hfront, width_append, width_append, width_append] at hle
      omega
  obtain ⟨left, hleft, _⟩ := exists_append_of_width_le hmid.symm hwidth
  obtain ⟨g, hgText, hg⟩ := Gap.exists_beginning hgap hleft
  refine ⟨g, ?_, ⟨?_, hg, trivial⟩⟩
  · rw [Derivations.text, hmid, hgText]
  · refine hhead.congr fun hends => ?_
    rw [hleft, List.append_assoc] at hends
    rw [hgText, Derivations.text, List.nil_append, List.append_nil]
    exact hends.of_append

/-- Expressions that are cut off behind one of them, and not behind the start of the next,
leave those before the cut. -/
theorem Derivations.exists_beginning : (ds : Derivations) → (past : List Char) →
    (before : List (Node Position)) → ds.Legal [] → past ++ ds.text = front ++ back →
    ds.nodes Position.after (Position.start.after past) = before ++ n :: after →
    n.span.stop.offset ≤ width front → (∀ m ∈ after.head?, width front ≤ m.span.start.offset) →
    ∃ ds' : Derivations, ds.text = ds'.text ++ back ∧ ds'.Legal [] ∧ ds'.depth ≤ ds.depth ∧
      ds'.nodes Position.after (Position.start.after past) = before ++ [n]
  | .nil, past, before, _, _, hnodes, _, _ => absurd hnodes (by simp [Derivations.nodes])
  | .cons head gap tail, past, [], hds, hcut, hnodes, hstop, hnext => by
    obtain ⟨rfl, rfl⟩ := List.cons.inj hnodes
    rw [Derivation.span_node] at hstop
    obtain ⟨g, htext, hlegal⟩ :=
      exists_cut_behind hds hcut (Position.offset_start_after past) hstop hnext
    refine ⟨.cons head g .nil, ?_, hlegal, ?_, rfl⟩
    · rw [htext, Derivations.text, Derivations.text, List.append_nil, List.append_assoc]
    · show max head.depth 0 ≤ max head.depth tail.depth
      omega
  | .cons head gap tail, past, m :: before, hds, hcut, hnodes, hstop, hnext => by
    obtain ⟨hhead, htail⟩ := List.cons.inj hnodes
    obtain ⟨hheadLegal, hgapLegal, htailLegal⟩ := hds
    have hcut' : (past ++ (head.text ++ gap.text)) ++ tail.text = front ++ back := by
      rw [← hcut, Derivations.text]
      simp only [List.append_assoc]
    rw [← Position.after_append] at htail
    obtain ⟨ds', htext, hds', hdepth, hnodes'⟩ :=
      Derivations.exists_beginning tail _ before htailLegal hcut' htail hstop hnext
    refine ⟨.cons head gap ds', ?_, ⟨?_, ?_, hds'⟩, ?_, ?_⟩
    · rw [Derivations.text, htext, Derivations.text]
      simp only [List.append_assoc]
    · refine hheadLegal.congr fun hends => ?_
      rw [htext, List.append_nil, ← List.append_assoc] at hends
      rw [List.append_nil]
      exact hends.of_append
    · refine hgapLegal.congr fun hnil => ?_
      rw [htext, List.append_nil] at hnil
      rw [(List.append_eq_nil_iff.1 hnil).1, List.append_nil]
    · show max head.depth ds'.depth ≤ max head.depth tail.depth
      omega
    · rw [Derivations.nodes, ← Position.after_append, hnodes', hhead, List.cons_append]

end Cut

/-- A program may lose what stands behind some of its expressions. -/
theorem ProgramDerivation.Legal.beginning {o : Options} {pd : ProgramDerivation}
    {items : Derivations} {back : List Char} (h : pd.Legal o)
    (htext : pd.items.text = items.text ++ back) (hitems : items.Legal [])
    (hdepth : items.depth ≤ pd.items.depth) :
    (ProgramDerivation.mk pd.shebang pd.gap items).Legal o := by
  have hwhole : pd.text = (ProgramDerivation.mk pd.shebang pd.gap items).text ++ back := by
    simp [ProgramDerivation.text, htext]
  have hiff := h.shebang_iff
  refine ⟨⟨fun hsome => ⟨(hiff.1 hsome).1, ?_⟩, ?_⟩, ?_, ?_, hitems,
    Nat.le_trans hdepth h.depth_le⟩
  · obtain ⟨l, hl⟩ := Option.isSome_iff_exists.1 hsome
    have hline : shebangText pd.shebang = ['#', '!'] ++ l.text := by
      rw [hl]
      rfl
    rw [ProgramDerivation.text, hline, List.append_assoc]
    exact List.prefix_append _ _
  · intro hline
    rw [hwhole] at hiff
    exact hiff.2 ⟨hline.1, hline.2.trans (List.prefix_append _ back)⟩
  · intro l hl
    refine (h.shebang l hl).congr fun hnil => ?_
    rw [htext, ← List.append_assoc] at hnil
    exact (List.append_eq_nil_iff.1 hnil).1
  · refine h.gap.congr fun hnil => ?_
    rw [htext] at hnil
    exact (List.append_eq_nil_iff.1 hnil).1

end Grammar

open Grammar Text

variable {o : Options} {source : String}

/-- A program that is cut off at a place behind one of its nodes, and not behind the start
of the next, is read as the nodes before that place, their spans included.  The place may
lie inside a comment. -/
theorem readWith_cut {before after : List (Node Position)} {n : Node Position} {p : Nat}
    {front back : List Char} (h : readWith o source = .ok (before ++ n :: after))
    (hcut : cut? p source.toList = some (front, back)) (hstop : n.span.stop.offset ≤ p)
    (hnext : ∀ m ∈ after.head?, p ≤ m.span.start.offset) :
    readWith o (String.ofList front) = .ok (before ++ [n]) := by
  obtain ⟨pd, hpd, htext, hnodes⟩ := nodes_of_readWith h
  obtain ⟨hsource, rfl⟩ := cut?_eq_some hcut
  have hwhole : (ProgramDerivation.shebangText pd.shebang ++ pd.gap.text) ++ pd.items.text =
      front ++ back := by
    rw [← hsource, ← htext, ProgramDerivation.text, List.append_assoc]
  obtain ⟨items, hitemsText, hitems, hdepth, hitemsNodes⟩ :=
    Derivations.exists_beginning pd.items _ before hpd.items hwhole hnodes.symm hstop hnext
  have hfront : (ProgramDerivation.mk pd.shebang pd.gap items).text = front := by
    rw [hitemsText, ← List.append_assoc] at hwhole
    rw [ProgramDerivation.text, ← List.append_assoc]
    exact List.append_cancel_right hwhole
  have hlegal := hpd.beginning hitemsText hitems hdepth
  rw [readWith_of_derivation hlegal (hfront.trans String.toList_ofList.symm)]
  exact congrArg Except.ok hitemsNodes

/-- A shebang line, two of three expressions, and a cut inside the comment between the
second and the third, behind a character of two bytes. -/
theorem readWith_cut_comment : ∃ m n last : Node Position,
    readWith {} "#!x\na 'b ;é\n\"c\"" = .ok [m, n, last] ∧
    n.span.stop = ⟨8, 2, 5⟩ ∧ last.span.start = ⟨13, 3, 1⟩ ∧
    cut? 12 "#!x\na 'b ;é\n\"c\"".toList = some ("#!x\na 'b ;é".toList, "\n\"c\"".toList) ∧
    readWith {} (String.ofList "#!x\na 'b ;é".toList) = .ok [m, n] := by
  have hprogram : program {} "#!x\na 'b ;é\n\"c\"".toList = .ok
      [.atom ⟨4, 5⟩ "a", .list ⟨6, 8⟩ [.atom ⟨6, 7⟩ "quote", .atom ⟨7, 8⟩ "b"],
        .string ⟨13, 16⟩ "c"] := rfl
  have hread : readWith {} "#!x\na 'b ;é\n\"c\"" = .ok ([.atom ⟨⟨4, 2, 1⟩, ⟨5, 2, 2⟩⟩ "a"] ++
      Node.list ⟨⟨6, 2, 3⟩, ⟨8, 2, 5⟩⟩ [.atom ⟨⟨6, 2, 3⟩, ⟨7, 2, 4⟩⟩ "quote",
        .atom ⟨⟨7, 2, 4⟩, ⟨8, 2, 5⟩⟩ "b"] :: [.string ⟨⟨13, 3, 1⟩, ⟨16, 3, 4⟩⟩ "c"]) :=
    readWith_of_program hprogram (by decide +kernel)
  have hcut : cut? 12 "#!x\na 'b ;é\n\"c\"".toList =
      some ("#!x\na 'b ;é".toList, "\n\"c\"".toList) := by decide +kernel
  exact ⟨_, _, _, hread, rfl, rfl, hcut, readWith_cut hread hcut (by decide) (by simp [Node.span])⟩

end LispSyntax
