/-
Texts below each other.

A program with a newline behind it is a program in front of anything: the newline
closes the shebang line, the comment or the atom that the text ended.  What is read
below it is read as it is alone, so the layout of the whole is that of the first
text, with the gap and the expressions of the second added at its end and the
fragment of the second left over.  Places in the second text lie below the first.
-/
import LispSyntax.Proofs.Acceptance
import LispSyntax.Proofs.Completion
import LispSyntax.Proofs.ErrorPlace

namespace LispSyntax

open Grammar Text

/-! ## Places -/

/-- The place `p` of a text when the text stands below `cs`. -/
def Position.below (cs : List Char) (p : Position) : Position :=
  ⟨p.offset + width cs + 1, p.line + cs.count '\n' + 1, p.column⟩

namespace Position

theorem below_advance (cs : List Char) (p : Position) (c : Char) :
    (p.advance c).below cs = (p.below cs).advance c := by
  unfold advance
  split
  · simp only [below, mk.injEq, and_true]
    omega
  · simp only [below, mk.injEq, and_true]
    omega

theorem below_after (cs : List Char) (p : Position) (ds : List Char) :
    (p.after ds).below cs = (p.below cs).after ds := by
  induction ds generalizing p with
  | nil => rfl
  | cons d ds ih => rw [after_cons, ih, below_advance, after_cons]

/-- A text below another begins where its start is put. -/
theorem start_after_newline (cs : List Char) : start.after (cs ++ ['\n']) = start.below cs := by
  have hoffset := offset_start_after cs
  have hline := line_after start cs
  have hnewline : '\n'.utf8Size = 1 := by decide
  rw [after_append]
  show (start.after cs).advance '\n' = _
  rw [advance, if_pos rfl, hoffset, hline, hnewline, below]
  simp [start]

end Position

namespace Grammar

/-! ## Expressions behind expressions -/

/-- The gap in front of the expressions when another gap comes behind them. -/
def Gap.join (gap : Gap) : Derivations → Gap → Gap
  | .nil, gap' => gap ++ gap'
  | .cons _ _ _, _ => gap

/-- The expressions with a gap and more expressions behind them. -/
def Derivations.join : Derivations → Gap → Derivations → Derivations
  | .nil, _, items' => items'
  | .cons head gap tail, gap', items' => .cons head (gap.join tail gap') (tail.join gap' items')

section Join

variable {g' : Gap} {ds' : Derivations}

theorem text_join : (ds : Derivations) → (g : Gap) →
    (g.join ds g').text ++ (ds.join g' ds').text = g.text ++ (ds.text ++ (g'.text ++ ds'.text))
  | .nil, g => by
    rw [Gap.join, Derivations.join, Gap.text_append, List.append_assoc]
    rfl
  | .cons head gap tail, g => by
    rw [Gap.join, Derivations.join, Derivations.text, text_join tail gap, Derivations.text]
    simp only [List.append_assoc]

theorem depth_join : (ds : Derivations) → (ds.join g' ds').depth = max ds.depth ds'.depth
  | .nil => (Nat.zero_max _).symm
  | .cons head gap tail => by
    rw [Derivations.join, Derivations.depth, depth_join tail, Derivations.depth, Nat.max_assoc]

theorem legal_join : (ds : Derivations) → (g : Gap) → {b : List Char} →
    g.Legal (ds.text ++ (g'.text ++ (ds'.text ++ b))) → ds.Legal (g'.text ++ (ds'.text ++ b)) →
    g'.Legal (ds'.text ++ b) → ds'.Legal b →
    (g.join ds g').Legal ((ds.join g' ds').text ++ b) ∧ (ds.join g' ds').Legal b
  | .nil, g, b, hg, _, hg', hds' => ⟨Gap.Legal.append hg hg', hds'⟩
  | .cons head gap tail, g, b, hg, hds, hg', hds' => by
    have hjoin := legal_join tail gap hds.2.1 hds.2.2 hg' hds'
    have htext : (gap.join tail g').text ++ ((tail.join g' ds').text ++ b) =
        gap.text ++ (tail.text ++ (g'.text ++ (ds'.text ++ b))) := by
      rw [← List.append_assoc, text_join]
      simp only [List.append_assoc]
    refine ⟨?_, ?_, hjoin⟩
    · rw [Gap.join, Derivations.join, Derivations.text, List.append_assoc, List.append_assoc, htext]
      rw [Derivations.text, List.append_assoc, List.append_assoc] at hg
      exact hg
    · rw [htext]
      exact hds.1

theorem nodes_join : (ds : Derivations) → (g : Gap) → (p : Position) →
    (ds.join g' ds').nodes Position.after (p.after (g.join ds g').text) =
      ds.nodes Position.after (p.after g.text) ++
        ds'.nodes Position.after (p.after (g.text ++ (ds.text ++ g'.text)))
  | .nil, g, p => by
    rw [Gap.join, Gap.text_append]
    rfl
  | .cons head gap tail, g, p => by
    have htail := nodes_join tail gap (p.after (g.text ++ head.text))
    have hplace : g.text ++ ((Derivations.cons head gap tail).text ++ g'.text) =
        (g.text ++ head.text) ++ (gap.text ++ (tail.text ++ g'.text)) := by
      simp only [Derivations.text, List.append_assoc]
    rw [hplace, Position.after_append p (g.text ++ head.text), Gap.join, Derivations.join,
      Derivations.nodes, Derivations.nodes, Position.after_append _ head.text,
      Position.after_append _ head.text, ← Position.after_append p, htail]
    rfl

end Join

/-! ## Programs that a newline ends -/

theorem isPrefix_append_newline (cs ds : List Char) :
    ['#', '!'] <+: cs ++ '\n' :: ds ↔ ['#', '!'] <+: cs := by
  match cs with
  | [] => simp
  | [c] => simp
  | c :: c' :: cs => simp

namespace ProgramDerivation

variable {o : Options} {pd : ProgramDerivation} {l : Layout} {b : List Char}

/-- The program may stand in front of anything. -/
structure Closed (pd : ProgramDerivation) : Prop where
  shebang : ∀ s ∈ pd.shebang, ∀ b, s.Legal b
  gap : ∀ b, pd.gap.Legal (pd.items.text ++ b)
  items : ∀ b, pd.items.Legal b

theorem Legal.newline (h : pd.Legal o) :
    ∃ pd' : ProgramDerivation, pd'.Closed ∧ pd'.text = pd.text ++ ['\n'] ∧
      (pd'.shebang.isSome ↔ pd.shebang.isSome) ∧ pd'.items.depth = pd.items.depth ∧
      pd'.nodes = pd.nodes := by
  obtain ⟨shebang, gap, items⟩ := pd
  have hgap : gap.Legal (items.text ++ []) := by
    rw [List.append_nil]
    exact h.gap
  by_cases hopen : ∃ body, shebang = some ⟨body, false⟩
  · -- The shebang line ends the text, so there is nothing else for the newline to end.
    obtain ⟨body, rfl⟩ := hopen
    obtain ⟨hbody, hbehind⟩ := h.shebang _ rfl
    obtain ⟨hgapText, hitemsText⟩ := List.append_eq_nil_iff.1 (hbehind rfl)
    have hitems : items = .nil := by
      cases items with
      | nil => rfl
      | cons head gap tail => exact absurd hitemsText (Derivations.text_ne_nil_of_cons h.items)
    refine ⟨⟨some ⟨body, true⟩, [], .nil⟩, ⟨?_, fun _ => trivial, fun _ => trivial⟩, ?_, ?_, ?_, ?_⟩
    · intro s hs b
      obtain rfl : ⟨body, true⟩ = s := Option.some.inj hs
      exact ⟨hbody, fun hclosed => absurd hclosed (by simp)⟩
    · simp [text, shebangText, Line.text, hgapText, hitemsText, Gap.text, Derivations.text]
    · simp
    · rw [hitems]
    · simp [nodes, hitems, Derivations.nodes]
  · obtain ⟨gap', items', htext, hgap', hitems', hdepth, hnodes⟩ :=
      newline_completes items gap hgap h.items
    refine ⟨⟨shebang, gap', items'⟩, ⟨?_, hgap', hitems'⟩, ?_, Iff.rfl, hdepth, ?_⟩
    · intro s hs b
      refine ⟨(h.shebang s hs).1, fun hclosed => ?_⟩
      obtain ⟨body, closed⟩ := s
      obtain rfl : closed = false := hclosed
      exact absurd ⟨body, hs⟩ hopen
    · rw [text, text, htext]
      simp only [List.append_assoc]
    · rw [nodes, Position.after_append, hnodes, ← Position.after_append]
      rfl

/-! ## Layouts behind programs -/

/-- The layout of a text behind a program. -/
def followedBy (pd : ProgramDerivation) (l : Layout) : Layout :=
  ⟨pd.shebang, pd.gap.join pd.items l.gap, pd.items.join l.gap l.items, l.inner⟩

theorem text_followedBy (hl : l.shebang = none) : (pd.followedBy l).text = pd.text ++ l.text := by
  have hjoin := @text_join l.gap l.items pd.items pd.gap
  rw [followedBy, Layout.text, Layout.lead, List.append_assoc, ← List.append_assoc (Gap.text _),
    hjoin, Layout.text, Layout.lead, hl, text]
  simp only [shebangText, List.append_assoc, List.nil_append]

theorem Closed.followedBy (h : pd.Closed) (hdepth : pd.items.depth ≤ o.maxDepth)
    (hl : l.Legal ⟨o.maxDepth, false⟩ b)
    (hshebang : pd.shebang.isSome ↔ o.skipShebang = true ∧ ['#', '!'] <+: pd.text ++ (l.text ++ b)) :
    (pd.followedBy l).Legal o b := by
  have hnone : l.shebang = none := by
    have hiff := hl.shebang_iff
    simpa using hiff
  obtain ⟨hgap, hitems⟩ := legal_join pd.items pd.gap (h.gap _) (h.items _) hl.gap hl.items
  refine ⟨?_, ?_, hgap, hitems, ?_, hl.inner⟩
  · rw [text_followedBy hnone, List.append_assoc]
    exact hshebang
  · intro s hs
    exact h.shebang s hs _
  · show (pd.items.join l.gap l.items).depth ≤ o.maxDepth
    rw [depth_join]
    exact Nat.max_le.2 ⟨hdepth, hl.depth_le⟩

theorem nodes_followedBy (hl : l.shebang = none) :
    (pd.followedBy l).items.nodes Position.after (Position.start.after (pd.followedBy l).lead) =
      pd.nodes ++ l.items.nodes Position.after ((Position.start.after pd.text).after l.lead) := by
  have hjoin := @nodes_join l.gap l.items pd.items pd.gap
    (Position.start.after (shebangText pd.shebang))
  rw [← Position.after_append, ← Position.after_append, ← Position.after_append] at hjoin
  have hlead : shebangText pd.shebang ++ (pd.gap.text ++ (pd.items.text ++ l.gap.text)) =
      pd.text ++ l.lead := by
    rw [Layout.lead, hl, text]
    simp only [shebangText, List.append_assoc, List.nil_append]
  rw [hlead, Position.after_append _ pd.text] at hjoin
  exact hjoin

end ProgramDerivation
end Grammar

/-! ## Reading -/

/-- What a text is read as below another one, given what it is read as alone.  The other
text is `above`, and `ns` is what that is read as. -/
def ReadBelow (above : String) (ns : List (Node Position)) :
    (alone below : Except SyntaxError (List (Node Position))) → Prop
  | .ok ms, r => r = .ok (ns ++ ms.map (Node.map (Position.below above.toList)))
  | .error e, r => ∃ e', r = .error e' ∧ e'.kind = e.kind ∧ e'.expected = e.expected ∧
      e'.found = e.found ∧ e'.position = e.position.below above.toList

section Reading

variable {o : Options} {above : String} {ns : List (Node Position)}

/-- Below a text that is read as a program, a layout goes on as it does alone. -/
theorem exists_layout_below (h : readWith o above = .ok ns) {l : Layout} {source b : List Char}
    (hl : l.Legal ⟨o.maxDepth, false⟩ b) (hsource : source = l.text ++ b) :
    ∃ l' : Layout, l'.Legal o b ∧ above.toList ++ '\n' :: source = l'.text ++ b ∧
      l'.inner = l.inner ∧
      Position.start.after l'.text = (Position.start.after l.text).below above.toList ∧
      l'.items.nodes Position.after (Position.start.after l'.lead) =
        ns ++ (l.items.nodes Position.after (Position.start.after l.lead)).map
          (Node.map (Position.below above.toList)) := by
  obtain ⟨pd, hpd, htext, rfl⟩ := nodes_of_readWith h
  obtain ⟨pd', hclosed, htext', hsome, hdepth, hnodes⟩ := hpd.newline
  have hnone : l.shebang = none := by
    have hiff := hl.shebang_iff
    simpa using hiff
  have hplace : Position.start.after pd'.text = Position.start.below above.toList := by
    rw [htext', htext, Position.start_after_newline]
  have hshebang : pd'.shebang.isSome ↔
      o.skipShebang = true ∧ ['#', '!'] <+: pd'.text ++ (l.text ++ b) := by
    rw [hsome, hpd.shebang_iff, htext', List.append_assoc, List.singleton_append,
      isPrefix_append_newline]
  refine ⟨pd'.followedBy l, hclosed.followedBy (hdepth ▸ hpd.depth_le) hl hshebang, ?_, rfl, ?_, ?_⟩
  · rw [ProgramDerivation.text_followedBy hnone, htext', htext, hsource, List.append_assoc,
      List.append_assoc, List.singleton_append]
  · rw [ProgramDerivation.text_followedBy hnone, Position.after_append, hplace,
      Position.below_after]
  · rw [ProgramDerivation.nodes_followedBy hnone, hnodes, hplace, ← Node.mapAll_eq_map,
      mapAll_nodes (Position.below_after above.toList), Position.below_after]

/-- Below a text that is read as a program, any text is read as it is alone. -/
theorem readBelow_of_readWith (h : readWith o above = .ok ns) (source : String) :
    ReadBelow above ns (readWith ⟨o.maxDepth, false⟩ source)
      (readWith o (above ++ "\n" ++ source)) := by
  obtain ⟨l, b, hsource, hl⟩ := layout_split ⟨o.maxDepth, false⟩ source.toList
  obtain ⟨l', hl', htext, hinner, hplace, hnodes⟩ := exists_layout_below h hl hsource
  have hwhole : (above ++ "\n" ++ source).toList = l'.text ++ b := by
    rw [← htext]
    simp
  by_cases hcomplete : l.Complete b
  · have hcomplete' : l'.Complete b := ⟨hinner.trans hcomplete.1, hcomplete.2⟩
    rw [readWith_of_complete hl hcomplete hsource, readWith_of_complete hl' hcomplete' hwhole]
    exact congrArg Except.ok hnodes
  · have hcomplete' : ¬l'.Complete b := fun hdone => hcomplete ⟨hinner.symm.trans hdone.1, hdone.2⟩
    have hcause : l'.cause b = l.cause b := by rw [Layout.cause, hinner, Layout.cause]
    have halone := program_of_stalls hl hcomplete
    have hbelow := program_of_stalls hl' hcomplete'
    rw [← hsource] at halone
    rw [← hwhole, hcause] at hbelow
    rw [readWith, halone, readWith, hbelow]
    obtain ⟨hposition, hfound⟩ := SyntaxError.ofStall_append l.text b (l.cause b)
    obtain ⟨hposition', hfound'⟩ := SyntaxError.ofStall_append l'.text b (l.cause b)
    rw [← hsource] at hposition hfound
    rw [← hwhole] at hposition' hfound'
    refine ⟨_, rfl, rfl, rfl, hfound'.trans hfound.symm, ?_⟩
    rw [hposition', hplace, hposition]

/-- What may stand in front of a program: a gap, and in front of that a shebang line
where those are skipped. -/
def IsLead (o : Options) (cs : List Char) : Prop :=
  ∃ g : Gap, g.Legal [] ∧ (cs = g.text ∨
    o.skipShebang = true ∧ ∃ s : Line, s.Legal g.text ∧ cs = '#' :: '!' :: (s.text ++ g.text))

theorem readWith_of_isLead {lead : String} (h : IsLead o lead.toList) :
    readWith o lead = .ok [] := by
  have hread : ∀ pd : ProgramDerivation, pd.Legal o → pd.items = .nil → pd.text = lead.toList →
      readWith o lead = .ok [] := by
    intro pd hpd hitems htext
    rw [readWith_of_derivation hpd htext, hitems]
    rfl
  obtain ⟨g, hg, htext | ⟨hskip, s, hs, htext⟩⟩ := h
  · refine hread ⟨none, g, .nil⟩ ⟨?_, by simp, hg, trivial, Nat.zero_le _⟩ rfl ?_
    · have hstart : ¬['#', '!'] <+: g.text := by
        rintro ⟨cs, hcs⟩
        have hne : g ≠ [] := by
          rintro rfl
          simp [Gap.text] at hcs
        obtain ⟨c, cs', hhead, hc⟩ := Gap.text_eq_cons hg hne
        rw [hhead] at hcs
        obtain rfl : '#' = c := (List.cons.inj hcs).1
        exact absurd hc (by decide)
      simp [ProgramDerivation.text, ProgramDerivation.shebangText, Derivations.text, hstart]
    · simp [ProgramDerivation.text, ProgramDerivation.shebangText, Derivations.text, htext]
  · refine hread ⟨some s, g, .nil⟩ ⟨?_, ?_, hg, trivial, Nat.zero_le _⟩ rfl ?_
    · simp [ProgramDerivation.text, ProgramDerivation.shebangText, hskip]
    · intro s' hs'
      obtain rfl : s = s' := Option.some.inj hs'
      simpa [Derivations.text] using hs
    · simp [ProgramDerivation.text, ProgramDerivation.shebangText, Derivations.text, htext]

/-- Characters that are not reserved make an atom, be it one that starts like a shebang
line where these are not skipped. -/
theorem readWith_of_plain {d : Nat} {word : String} (hne : word.toList ≠ [])
    (h : ∀ c ∈ word.toList, isReserved c = false) :
    readWith ⟨d, false⟩ word =
      .ok [.atom ⟨.start, Position.start.after word.toList⟩ word] := by
  have htext : (word.toList.map AtomUnit.plain).flatMap AtomUnit.text = word.toList := by
    simp [List.flatMap_map, AtomUnit.text]
  have hchars : (word.toList.map AtomUnit.plain).map AtomUnit.char = word.toList := by
    simp [AtomUnit.char, Function.comp_def]
  have hpd : ProgramDerivation.Legal ⟨d, false⟩
      ⟨none, [], .cons (.atom (word.toList.map .plain)) [] .nil⟩ := by
    refine ⟨by simp, by simp, trivial, ⟨⟨?_, ?_, endsAtom_nil⟩, trivial, trivial⟩, Nat.zero_le _⟩
    · simpa using hne
    · intro u hu
      obtain ⟨c, hc, rfl⟩ := List.mem_map.1 hu
      exact h c hc
  have hread := readWith_of_derivation hpd (show _ = word.toList by
    simp [ProgramDerivation.text, ProgramDerivation.shebangText, Gap.text, Derivations.text,
      Derivation.text, htext])
  rw [hread, Derivations.nodes, Derivation.node, htext, hchars, String.ofList_toList]
  rfl

/-- Below a text that is read as a program, any text is read as it is alone, and its
error too.  So a shebang line and a gap do no more than move what comes below them, and
below another text an atom may start like a shebang line. -/
theorem readWith_append_newline (h : readWith o above = .ok ns) :
    (∀ source, ReadBelow above ns (readWith ⟨o.maxDepth, false⟩ source)
      (readWith o (above ++ "\n" ++ source))) ∧
    (∀ lead source, IsLead o lead.toList → ReadBelow lead [] (readWith ⟨o.maxDepth, false⟩ source)
      (readWith o (lead ++ "\n" ++ source))) ∧
    (∀ gap : Gap, gap.Legal [] → readWith o (above ++ "\n" ++ String.ofList gap.text) = .ok ns) ∧
    ∀ word : String, ['#', '!'] <+: word.toList → (∀ c ∈ word.toList, isReserved c = false) →
      readWith o (above ++ "\n" ++ word) = .ok (ns ++
        [.atom ⟨Position.start.below above.toList,
          (Position.start.after word.toList).below above.toList⟩ word]) := by
  refine ⟨readBelow_of_readWith h, ?_, ?_, ?_⟩
  · intro lead source hlead
    exact readBelow_of_readWith (readWith_of_isLead hlead) source
  · intro gap hgap
    have hlead : readWith ⟨o.maxDepth, false⟩ (String.ofList gap.text) = .ok [] :=
      readWith_of_isLead ⟨gap, hgap, Or.inl String.toList_ofList⟩
    have hbelow := readBelow_of_readWith h (String.ofList gap.text)
    rw [hlead] at hbelow
    rw [hbelow, List.map_nil, List.append_nil]
  · intro word hshebang hplain
    have hne : word.toList ≠ [] := by
      rintro hnil
      rw [hnil] at hshebang
      simp at hshebang
    have hbelow := readBelow_of_readWith h word
    rw [readWith_of_plain hne hplain] at hbelow
    exact hbelow

/-- A shebang line, an atom and a comment, and below them what is no shebang line and
what is not read. -/
theorem readWith_append_newline_shebang : ∃ ns, readWith {} "#!x\na ;c" = .ok ns ∧
    readWith {} ("#!x\na ;c" ++ "\n" ++ "#!b") =
      .ok (ns ++ [.atom ⟨⟨9, 3, 1⟩, ⟨12, 3, 4⟩⟩ "#!b"]) ∧
    ∃ e, readWith {} ("#!x\na ;c" ++ "\n" ++ "b)") = .error e ∧ e.position = ⟨10, 3, 2⟩ := by
  have habove : program {} "#!x\na ;c".toList = .ok [.atom ⟨4, 5⟩ "a"] := rfl
  have hread : readWith {} "#!x\na ;c" = .ok [.atom ⟨⟨4, 2, 1⟩, ⟨5, 2, 2⟩⟩ "a"] :=
    readWith_of_program habove (by decide +kernel)
  have hprogram : program ⟨Node.maxNesting, false⟩ "b)".toList =
      .error ⟨⟨1, [')']⟩, .strayContent⟩ := rfl
  have herror : readWith ⟨Node.maxNesting, false⟩ "b)" =
      .error (.ofStall "b)".toList ⟨⟨1, [')']⟩, .strayContent⟩) := by
    rw [readWith, hprogram]
  have hplain : ∀ c ∈ "#!b".toList, isReserved c = false := by
    intro c hc
    have hcases : c = '#' ∨ c = '!' ∨ c = 'b' := by simpa using hc
    rcases hcases with rfl | rfl | rfl
    · decide
    · decide
    · decide
  obtain ⟨hbelow, _, _, hword⟩ := readWith_append_newline hread
  have hfails := hbelow "b)"
  rw [herror] at hfails
  obtain ⟨e, he, _, _, _, hplace⟩ := hfails
  exact ⟨_, hread, hword "#!b" ⟨['b'], rfl⟩ hplain, e, he, hplace⟩

end Reading

end LispSyntax
