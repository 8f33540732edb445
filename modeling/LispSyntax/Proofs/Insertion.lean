/-
Gaps may be put in between any two tokens.

A gap is inserted into a derivation at a place of its text.  If the place is not inside
a comment and not inside a token, then the text with the gap has a derivation as well,
and it stands for the same trees: the place lies in some gap of the derivation, be it
empty, and the gap with the new one in it is a gap.  By induction on the derivation this
is so at every depth.  A comment that ends the whole text is the one case where more
happens: what is put behind it goes into the comment as far as the first newline.
-/
import LispSyntax.Proofs.Acceptance
import LispSyntax.Proofs.RoundTrip
import LispSyntax.Proofs.Scanning

namespace LispSyntax
namespace Grammar

open Text

/-! ## Texts cut in two -/

/-- A cut of a text in parentheses lies between them, unless it lies at an end. -/
theorem cut_between {c d : Char} {cs past rest : List Char} (h : c :: (cs ++ [d]) = past ++ rest)
    (hpast : past ≠ []) (hrest : rest ≠ []) :
    ∃ past' rest', past = c :: past' ∧ rest = rest' ++ [d] ∧ cs = past' ++ rest' := by
  cases past with
  | nil => exact absurd rfl hpast
  | cons a past =>
    obtain ⟨rfl, htail⟩ : c = a ∧ cs ++ [d] = past ++ rest := List.cons.inj h
    rcases cut_append htail with ⟨mid, hcs, hmid⟩ | ⟨mid, hne, _, hlast⟩
    · exact ⟨past, mid, rfl, hmid, hcs⟩
    · cases mid with
      | nil => exact absurd rfl hne
      | cons e mid =>
        have hnil : [] = mid ++ rest := (List.cons.inj hlast).2
        exact absurd (List.append_eq_nil_iff.1 hnil.symm).2 hrest

/-! ## The gap that is put in -/

/-- The filler is a blank or a comment that a newline ends. -/
def Filler.Closed : Filler → Prop
  | .blank c => isBlank c = true
  | .comment l => '\n' ∉ l.body ∧ l.closed = true

instance : (f : Filler) → Decidable f.Closed
  | .blank c => inferInstanceAs (Decidable (isBlank c = true))
  | .comment l => inferInstanceAs (Decidable ('\n' ∉ l.body ∧ l.closed = true))

namespace Gap

/-- The gap consists of blanks and of comments that newlines end. -/
def Closed (w : Gap) : Prop := ∀ f ∈ w, f.Closed

instance (w : Gap) : Decidable w.Closed := inferInstanceAs (Decidable (∀ f ∈ w, f.Closed))

theorem Closed.legal {w : Gap} (hw : w.Closed) (b : List Char) : w.Legal b := by
  induction w with
  | nil => trivial
  | cons f w ih =>
    refine ⟨?_, ih fun f' hf' => hw f' (List.mem_cons_of_mem f hf')⟩
    have hf := hw f List.mem_cons_self
    cases f with
    | blank c => exact hf
    | comment l => exact ⟨hf.1, fun hopen => absurd (hf.2.symm.trans hopen) (by decide)⟩

/-- The first character of a text changes at most to one that starts a gap. -/
theorem Closed.head? {w : Gap} (hw : w.Closed) (past rest : List Char) :
    (past ++ (w.text ++ rest)).head? = (past ++ rest).head? ∨
      ∃ c, (past ++ (w.text ++ rest)).head? = some c ∧ (isBlank c = true ∨ c = ';') := by
  cases past with
  | cons c past => exact Or.inl rfl
  | nil =>
    by_cases hne : w = []
    · subst hne
      exact Or.inl rfl
    · obtain ⟨c, cs, hcs, hc⟩ := text_eq_cons (hw.legal []) hne
      exact Or.inr ⟨c, by rw [hcs]; rfl, hc⟩

theorem Closed.endsAtom {w : Gap} (hw : w.Closed) {past rest : List Char}
    (h : EndsAtom (past ++ rest)) : EndsAtom (past ++ (w.text ++ rest)) := by
  rcases hw.head? past rest with hsame | ⟨c, hhead, hc⟩
  · exact h.congr hsame.symm
  · intro d hd
    obtain rfl : c = d := by simpa [hhead] using hd
    rcases hc with hblank | rfl
    · exact endsAtom_cons_of_isBlank hblank [] c rfl
    · decide

theorem Closed.not_at {w : Gap} (hw : w.Closed) {past rest : List Char}
    (h : (past ++ rest).head? ≠ some '@') : (past ++ (w.text ++ rest)).head? ≠ some '@' := by
  rcases hw.head? past rest with hsame | ⟨c, hhead, hc⟩
  · rwa [hsame]
  · rw [hhead]
    rintro heq
    obtain rfl := Option.some.inj heq
    exact absurd hc (by decide)

end Gap

/-- What is put in at the end of a line lengthens the line up to the first newline. -/
theorem Line.insert {w : Gap} {l : Line} {b : List Char} (hw : w.Closed) (hl : l.Legal b) :
    ∃ (l' : Line) (g : Gap),
      l'.text ++ g.text = l.body ++ (w.text ++ if l.closed then ['\n'] else []) ∧
        l'.Legal (g.text ++ b) ∧ g.Legal b := by
  induction w generalizing l with
  | nil => exact ⟨l, [], by simp [Line.text, Gap.text], hl, trivial⟩
  | cons f w ih =>
    obtain ⟨body, closed⟩ := l
    have hw' : Gap.Closed w := fun f' hf' => hw f' (List.mem_cons_of_mem f hf')
    have hf := hw f List.mem_cons_self
    -- the newline that closed the line is left over
    obtain ⟨g, hgText, hg⟩ : ∃ g : Gap,
        g.text = Gap.text w ++ (if closed then ['\n'] else []) ∧ g.Legal b := by
      cases closed with
      | true =>
        have hblank : isBlank '\n' = true := by decide
        have hend : Gap.Legal b [.blank '\n'] := ⟨hblank, trivial⟩
        exact ⟨w ++ [.blank '\n'], by simp [Gap.text, Filler.text],
          Gap.Legal.append (hw'.legal _) hend⟩
      | false => exact ⟨w, by simp, hw'.legal b⟩
    have hclosed : ∀ cs : List Char, '\n' ∉ cs →
        (Line.mk (body ++ cs) true).Legal (g.text ++ b) := by
      intro cs hcs
      refine ⟨?_, fun hopen => absurd hopen (by simp)⟩
      simp [hl.1, hcs]
    cases f with
    | blank c =>
      by_cases hc : c = '\n'
      · subst hc
        refine ⟨⟨body ++ [], true⟩, g, ?_, hclosed [] (by simp), hg⟩
        rw [hgText]
        simp [Line.text, Gap.text, Filler.text]
      · have hlonger : (Line.mk (body ++ [c]) closed).Legal b :=
          ⟨by simp [hl.1, Ne.symm hc], hl.2⟩
        obtain ⟨l', g', htext, hl', hg'⟩ := ih hw' hlonger
        exact ⟨l', g', by simpa [Gap.text, Filler.text] using htext, hl', hg'⟩
    | comment l =>
      obtain ⟨body', closed'⟩ := l
      obtain ⟨hbody', rfl⟩ : '\n' ∉ body' ∧ closed' = true := hf
      refine ⟨⟨body ++ ';' :: body', true⟩, g, ?_, hclosed _ (by simp [hbody']), hg⟩
      rw [hgText]
      simp [Line.text, Gap.text, Filler.text]

/-! ## Where a gap may be put in -/

/-- The place behind `past` lies in no comment, except that `rest` may begin with the
newline that ends it. -/
def Scan.OutsideComment (s : Scan) (past rest : List Char) : Prop :=
  (s.run past).mode = .comment → ∀ c ∈ rest.head?, c = '\n'

/-- The place at the offset `k` lies strictly inside none of the atoms and strings among
the nodes that a traversal meets. -/
def OutsideTokens (k : Nat) (ms : List (Nat × Node Position)) : Prop :=
  ∀ m ∈ ms, m.2.children? = none → ¬(m.2.span.start.offset < k ∧ k < m.2.span.stop.offset)

section Insert

variable {w : Gap} {m : Mode} {n : Nat} {t : Option Token} {past rest b : List Char}

theorem width_pos {cs : List Char} (h : cs ≠ []) : 0 < width cs := by
  cases cs with
  | nil => exact absurd rfl h
  | cons c cs =>
    have hpos := c.utf8Size_pos
    rw [width_cons]
    omega

/-- A token has no place strictly inside of it where a gap may be put in. -/
theorem not_outsideTokens {p : Position} {ms : List (Nat × Node Position)} {depth : Nat}
    {leaf : Node Position} (hpast : past ≠ []) (hrest : rest ≠ []) (hmem : (depth, leaf) ∈ ms)
    (hleaf : leaf.children? = none) (hspan : leaf.span = ⟨p, p.after (past ++ rest)⟩) :
    ¬OutsideTokens (p.offset + width past) ms := by
  intro htokens
  have hstart := width_pos hpast
  have hstop := width_pos hrest
  apply htokens _ hmem hleaf
  show leaf.span.start.offset < _ ∧ _ < leaf.span.stop.offset
  rw [hspan]
  show p.offset < _ ∧ _ < (p.after (past ++ rest)).offset
  rw [Position.offset_after, width_append]
  omega

/-! ## Lines and gaps -/

/-- Outside the comment, a place in front of or behind the end of the line is left. -/
theorem Line.cut {l : Line} (hl : l.Legal b) (h : l.text ++ b = past ++ rest)
    (hout : Scan.OutsideComment ⟨.comment, n, t⟩ past rest) :
    (l.closed = true ∧ ∃ mid, past = l.text ++ mid ∧ b = mid ++ rest) ∨
      past = l.body ∧ rest = (if l.closed then ['\n'] else []) ++ b := by
  obtain ⟨body, closed⟩ := l
  obtain ⟨hbody, hclosed⟩ := hl
  -- in front of the end of the line the scanner is in the comment
  have hinside : ∀ mid, body = past ++ mid → (∀ c ∈ mid.head?, c = '\n') → mid = [] := by
    intro mid hmid hhead
    cases mid with
    | nil => rfl
    | cons c mid =>
      obtain rfl : c = '\n' := hhead c rfl
      exact absurd (hmid ▸ List.mem_append_right _ List.mem_cons_self) hbody
  have hcomment : ∀ mid, body = past ++ mid → ∀ c ∈ rest.head?, c = '\n' := by
    intro mid hmid
    refine hout (congrArg Scan.mode (Scan.run_comment fun hmem => hbody ?_))
    rw [hmid]
    exact List.mem_append_left _ hmem
  rw [Line.text, List.append_assoc] at h
  rcases cut_append h with ⟨mid, hmid, hrest⟩ | ⟨mid, hne, hpast, htail⟩
  · right
    have hnil : mid = [] := by
      refine hinside mid hmid fun c hc => hcomment mid hmid c ?_
      rw [hrest]
      cases mid with
      | nil => simp at hc
      | cons d mid => exact hc
    subst hnil
    exact ⟨by simpa using hmid.symm, hrest⟩
  · cases closed with
    | false =>
      obtain rfl : b = [] := hclosed rfl
      simp only [Bool.false_eq_true, if_false, List.nil_append] at htail
      exact absurd (List.append_eq_nil_iff.1 htail.symm).1 hne
    | true =>
      left
      cases mid with
      | nil => exact absurd rfl hne
      | cons c mid =>
        obtain ⟨rfl, hb⟩ := List.cons.inj htail
        exact ⟨rfl, mid, by simp [Line.text, hpast], hb⟩

theorem insert_gap (hw : w.Closed) {g : Gap} (hg : g.Legal b) (hm : m.Idle (g.text ++ b))
    (h : g.text = past ++ rest) (hout : Scan.OutsideComment ⟨m, n, t⟩ past (rest ++ b)) :
    ∃ g' : Gap, g'.text = past ++ (w.text ++ rest) ∧ g'.Legal b := by
  induction g generalizing m past with
  | nil =>
    obtain ⟨rfl, rfl⟩ : past = [] ∧ rest = [] := List.append_eq_nil_iff.1 h.symm
    exact ⟨w, by simp, hw.legal b⟩
  | cons f g ih =>
    cases past with
    | nil => exact ⟨w ++ f :: g, by rw [Gap.text_append, h]; rfl, Gap.Legal.append (hw.legal _) hg⟩
    | cons a past =>
      cases f with
      | blank c =>
        obtain ⟨rfl, hrest⟩ : c = a ∧ Gap.text g = past ++ rest := List.cons.inj h
        have hstep : Scan.step ⟨m, n, t⟩ c = ⟨.gap, n, t⟩ :=
          hm.step_eq.trans (Scan.fresh_blank hg.1)
        have hout' : Scan.OutsideComment ⟨.gap, n, t⟩ past (rest ++ b) := by
          rwa [Scan.OutsideComment, Scan.run_cons, hstep] at hout
        obtain ⟨g', htext, hg'⟩ := ih (m := .gap) hg.2 trivial hrest hout'
        exact ⟨.blank c :: g', by rw [Gap.text, htext]; rfl, hg.1, hg'⟩
      | comment l =>
        obtain ⟨rfl, hrest⟩ : ';' = a ∧ l.text ++ Gap.text g = past ++ rest := List.cons.inj h
        have hstep : Scan.step ⟨m, n, t⟩ ';' = ⟨.comment, n, t⟩ := hm.step_eq
        have hout' : Scan.OutsideComment ⟨.comment, n, t⟩ past (rest ++ b) := by
          rwa [Scan.OutsideComment, Scan.run_cons, hstep] at hout
        have hline : l.text ++ (Gap.text g ++ b) = past ++ (rest ++ b) := by
          rw [← List.append_assoc, hrest, List.append_assoc]
        rcases Line.cut hg.1 hline hout' with ⟨hclosed, mid, rfl, hmid⟩ | ⟨rfl, htail⟩
        · rw [← List.append_assoc] at hmid
          have hgap : Gap.text g = mid ++ rest := List.append_cancel_right hmid
          obtain ⟨m₁, hm₁, hrun⟩ := Scan.run_line (n := n) (t := t) hg.1
          have hbehind : Scan.OutsideComment ⟨m₁, n, t⟩ mid (rest ++ b) := by
            rwa [Scan.OutsideComment, Scan.run_append, hrun] at hout'
          obtain ⟨g', htext, hg'⟩ := ih hg.2 hm₁ hgap hbehind
          refine ⟨.comment l :: g', ?_, ⟨hg.1.1, fun hopen => ?_⟩, hg'⟩
          · rw [Gap.text, htext]
            simp [Filler.text]
          · exact absurd (hclosed.symm.trans hopen) (by decide)
        · rw [← List.append_assoc] at htail
          have hrest' : rest = (if l.closed then ['\n'] else []) ++ Gap.text g :=
            List.append_cancel_right htail
          obtain ⟨l', g₁, htext, hl', hg₁⟩ := Line.insert hw hg.1
          refine ⟨.comment l' :: (g₁ ++ g), ?_, ?_, Gap.Legal.append hg₁ hg.2⟩
          · show ';' :: (l'.text ++ Gap.text (g₁ ++ g)) = _
            rw [Gap.text_append, ← List.append_assoc, htext, hrest']
            simp
          · show l'.Legal (Gap.text (g₁ ++ g) ++ b)
            rw [Gap.text_append, List.append_assoc]
            exact hl'

/-! ## Expressions -/

theorem OutsideTokens.mono {k : Nat} {ms ms' : List (Nat × Node Position)}
    (h : OutsideTokens k ms) (hsub : ∀ m ∈ ms', m ∈ ms) : OutsideTokens k ms' :=
  fun m hm => h m (hsub m hm)

/-- The offset of a place in the second of two texts, counted from either. -/
theorem offset_after_add (p : Position) (cs ds : List Char) :
    (p.after cs).offset + width ds = p.offset + width (cs ++ ds) := by
  rw [Position.offset_after, width_append, Nat.add_assoc]

/-- The gap may be put into the expression wherever the place is inside of no comment and
of no token, and the expression stands for the same tree. -/
def Derivation.Admits (w : Gap) (d : Derivation) : Prop :=
  ∀ (m : Mode) (n : Nat) (t : Option Token) (past rest b : List Char) (p : Position) (depth : Nat),
    d.Legal b → m.Idle (d.text ++ b) → d.text = past ++ rest → past ≠ [] → rest ≠ [] →
    Scan.OutsideComment ⟨m, n, t⟩ past (rest ++ b) →
    OutsideTokens (p.offset + width past) ((d.node Position.after p).preorder depth) →
    ∃ d' : Derivation, d'.text = past ++ (w.text ++ rest) ∧ d'.Legal b ∧ d'.depth = d.depth ∧
      d'.node nowhere .start = d.node nowhere .start

/-- The same of expressions with a gap in front. -/
def Derivations.Admits (w : Gap) (ds : Derivations) : Prop :=
  ∀ (g : Gap) (m : Mode) (n : Nat) (t : Option Token) (past rest b : List Char) (p : Position)
    (depth : Nat), g.Legal (ds.text ++ b) → ds.Legal b → m.Idle (g.text ++ (ds.text ++ b)) →
    g.text ++ ds.text = past ++ rest → Scan.OutsideComment ⟨m, n, t⟩ past (rest ++ b) →
    OutsideTokens (p.offset + width past)
      (Node.preorderAll depth (ds.nodes Position.after (p.after g.text))) →
    ∃ (g' : Gap) (ds' : Derivations), g'.text ++ ds'.text = past ++ (w.text ++ rest) ∧
      g'.Legal (ds'.text ++ b) ∧ ds'.Legal b ∧ ds'.depth = ds.depth ∧
      ds'.nodes nowhere .start = ds.nodes nowhere .start

namespace Derivation

theorem admits_atom (us : List AtomUnit) : (atom us).Admits w := by
  intro m n t past rest b p depth _ _ htext hpast hrest _ htokens
  have hspan : ((atom us).node Position.after p).span = ⟨p, p.after (past ++ rest)⟩ := by
    rw [← htext]
    rfl
  exact absurd htokens (not_outsideTokens hpast hrest List.mem_cons_self rfl hspan)

theorem admits_string (us : List StringUnit) : (string us).Admits w := by
  intro m n t past rest b p depth _ _ htext hpast hrest _ htokens
  have hspan : ((string us).node Position.after p).span = ⟨p, p.after (past ++ rest)⟩ := by
    rw [← htext]
    rfl
  exact absurd htokens (not_outsideTokens hpast hrest List.mem_cons_self rfl hspan)

theorem admits_list {gap : Gap} {items : Derivations} (hadmits : items.Admits w) :
    (list gap items).Admits w := by
  rintro m n t past rest b p depth ⟨hgap, hitems⟩ hm htext hpast hrest hout htokens
  rw [text, ← List.append_assoc] at htext
  obtain ⟨past', rest', rfl, rfl, hinner⟩ := cut_between htext hpast hrest
  have hparen : Scan.step ⟨m, n, t⟩ '(' = ⟨.gap, n + 1, some .opening⟩ := hm.step_eq
  have hout' : Scan.OutsideComment ⟨.gap, n + 1, some .opening⟩ past' (rest' ++ ')' :: b) := by
    rw [Scan.OutsideComment, Scan.run_cons, hparen, List.append_assoc] at hout
    exact hout
  have htokens' : OutsideTokens ((p.after ['(']).offset + width past') (Node.preorderAll (depth + 1)
      (items.nodes Position.after ((p.after ['(']).after gap.text))) := by
    rw [offset_after_add]
    exact htokens.mono fun m hm => List.mem_cons_of_mem _ hm
  obtain ⟨gap', items', htext', hgap', hitems', hdepth, hnodes⟩ :=
    hadmits gap .gap _ _ past' rest' _ _ _ hgap hitems trivial hinner hout' htokens'
  refine ⟨.list gap' items', ?_, ⟨hgap', hitems'⟩, ?_, ?_⟩
  · rw [text, ← List.append_assoc, htext']
    simp
  · rw [Derivation.depth, Derivation.depth, hdepth]
  · show Node.list _ _ = Node.list _ _
    rw [hnodes]

/-- A marker stays the marker that it is when a gap is put in behind it. -/
theorem legal_quotation (hw : w.Closed) {k : QuoteKind} {gap gap' : Gap} {body body' : Derivation}
    (h : (quotation k gap body).Legal b) (htext : gap.text ++ body.text = past ++ rest)
    (htext' : gap'.text ++ body'.text = past ++ (w.text ++ rest))
    (hgap' : gap'.Legal (body'.text ++ b)) (hbody' : body'.Legal b) :
    (quotation k gap' body').Legal b := by
  refine ⟨fun hk => ?_, hgap', hbody'⟩
  have hat := h.1 hk
  rw [← List.append_assoc, htext, List.append_assoc] at hat
  rw [← List.append_assoc, htext', List.append_assoc, List.append_assoc]
  exact hw.not_at hat

theorem admits_quotation (hw : w.Closed) {k : QuoteKind} {gap : Gap} {body : Derivation}
    (hadmits : body.Admits w) : (quotation k gap body).Admits w := by
  intro m n t past rest b p depth hlegal hm htext hpast hrest hout htokens
  obtain ⟨hat, hgap, hbody⟩ := id hlegal
  rcases cut_append' htext with ⟨mid, rfl, hmid⟩ | ⟨mid, hmidNe, hmarker, _⟩
  · rw [text, List.append_assoc, List.append_assoc] at hm
    obtain ⟨m₁, hm₁, hrun⟩ := Scan.run_marker (n := n) (t := t) k hm hat
    have hout₁ : Scan.OutsideComment ⟨m₁, n, some .marker⟩ mid (rest ++ b) := by
      rwa [Scan.OutsideComment, Scan.run_append, hrun] at hout
    rcases cut_append hmid with ⟨mid', hgapText, rfl⟩ | ⟨mid', hmid'Ne, rfl, hbodyText⟩
    · rw [List.append_assoc] at hout₁
      obtain ⟨gap', htext', hgap'⟩ := insert_gap hw hgap hm₁ hgapText hout₁
      have hinside : gap'.text ++ body.text = mid ++ (w.text ++ (mid' ++ body.text)) := by
        rw [htext']
        simp only [List.append_assoc]
      have hlegal' := legal_quotation hw hlegal hmid hinside hgap' hbody
      refine ⟨.quotation k gap' body, ?_, hlegal', rfl, rfl⟩
      rw [text, hinside, List.append_assoc]
    · obtain ⟨m₂, hm₂, hrun₂⟩ := Scan.run_gap (n := n) (t := some .marker) hgap hm₁
      have hout₂ : Scan.OutsideComment ⟨m₂, n, some .marker⟩ mid' (rest ++ b) := by
        rwa [Scan.OutsideComment, Scan.run_append, hrun₂] at hout₁
      have htokens₂ : OutsideTokens ((p.after (k.marker.toList ++ gap.text)).offset + width mid')
          ((body.node Position.after (p.after (k.marker.toList ++ gap.text))).preorder
            (depth + 1)) := by
        rw [offset_after_add, List.append_assoc]
        refine htokens.mono fun m hm => List.mem_cons_of_mem _ (List.mem_append_right _ ?_)
        exact List.mem_append_left _ hm
      obtain ⟨body', htext', hbody', hdepth, hnode⟩ :=
        hadmits _ _ _ mid' rest b _ _ hbody hm₂ hbodyText hmid'Ne hrest hout₂ htokens₂
      have hinside : gap.text ++ body'.text = (gap.text ++ mid') ++ (w.text ++ rest) := by
        rw [htext', List.append_assoc]
      have hgap' : gap.Legal (body'.text ++ b) := hgap.congr fun hnil =>
        absurd (List.append_eq_nil_iff.1 hnil).1 (text_ne_nil hbody)
      have hlegal' := legal_quotation hw hlegal hmid hinside hgap' hbody'
      refine ⟨.quotation k gap body', ?_, hlegal', ?_, ?_⟩
      · rw [text, hinside, ← List.append_assoc]
      · rw [Derivation.depth, Derivation.depth, hdepth]
      · show Node.list _ [_, _] = Node.list _ [_, _]
        rw [hnode]
  -- a marker is a token of its own, the head of the quotation
  · have hspan : (Node.atom ⟨p, p.after k.marker.toList⟩ k.name).span =
        ⟨p, p.after (past ++ mid)⟩ := by
      rw [← hmarker]
      rfl
    have hmem : (depth + 1, Node.atom ⟨p, p.after k.marker.toList⟩ k.name) ∈
        ((quotation k gap body).node Position.after p).preorder depth :=
      List.mem_cons_of_mem _ List.mem_cons_self
    exact absurd htokens (not_outsideTokens hpast hmidNe hmem rfl hspan)

end Derivation

namespace Derivations

theorem admits_nil (hw : w.Closed) : nil.Admits w := by
  intro g m n t past rest b p depth hg _ hm htext hout _
  rw [text, List.append_nil] at htext
  obtain ⟨g', htext', hg'⟩ := insert_gap hw hg hm htext hout
  exact ⟨g', nil, by rw [text, List.append_nil, htext'], hg', trivial, rfl, rfl⟩

/-- An expression may stand in front of a text that a gap is put into. -/
theorem legal_head (hw : w.Closed) {head : Derivation} {gap gap' : Gap} {tail tail' : Derivations}
    (h : head.Legal (gap.text ++ (tail.text ++ b))) (htext : gap.text ++ tail.text = past ++ rest)
    (htext' : gap'.text ++ tail'.text = past ++ (w.text ++ rest)) :
    head.Legal (gap'.text ++ (tail'.text ++ b)) := by
  refine h.congr fun hends => ?_
  rw [← List.append_assoc, htext, List.append_assoc] at hends
  rw [← List.append_assoc, htext', List.append_assoc, List.append_assoc]
  exact hw.endsAtom hends

theorem admits_cons (hw : w.Closed) {head : Derivation} {gap : Gap} {tail : Derivations}
    (hadmitsHead : head.Admits w) (hadmitsTail : tail.Admits w) :
    (cons head gap tail).Admits w := by
  intro g m n t past rest b p depth hg hds hm htext hout htokens
  have hne := text_ne_nil_of_cons hds
  obtain ⟨hhead, hgap, htail⟩ := hds
  rcases cut_append htext with ⟨mid, hmid, rfl⟩ | ⟨mid, hmidNe, rfl, hmid⟩
  · rw [List.append_assoc] at hout
    obtain ⟨g', htext', hg'⟩ := insert_gap hw hg hm hmid hout
    refine ⟨g', .cons head gap tail, ?_, hg', ⟨hhead, hgap, htail⟩, rfl, rfl⟩
    rw [htext']
    simp only [List.append_assoc]
  · have hg' : ∀ ds' : Derivations, g.Legal (ds'.text ++ b) := fun ds' =>
      hg.congr fun hnil => absurd (List.append_eq_nil_iff.1 hnil).1 hne
    obtain ⟨m₁, hm₁, hrun⟩ := Scan.run_gap (n := n) (t := t) hg hm
    have hout₁ : Scan.OutsideComment ⟨m₁, n, t⟩ mid (rest ++ b) := by
      rwa [Scan.OutsideComment, Scan.run_append, hrun] at hout
    rw [← offset_after_add] at htokens
    rw [text, List.append_assoc, List.append_assoc] at hm₁
    rcases cut_append' hmid with ⟨mid', rfl, hrest⟩ | ⟨mid', hmid'Ne, hheadText, rfl⟩
    · obtain ⟨m₂, t₂, hm₂, _, hrun₂⟩ := Scan.run_derivation head (n := n) (t := t) hhead hm₁
      have hout₂ : Scan.OutsideComment ⟨m₂, n, some t₂⟩ mid' (rest ++ b) := by
        rwa [Scan.OutsideComment, Scan.run_append, hrun₂] at hout₁
      have htokens₂ : OutsideTokens (((p.after g.text).after head.text).offset + width mid')
          (Node.preorderAll depth
            (tail.nodes Position.after (((p.after g.text).after head.text).after gap.text))) := by
        rw [offset_after_add, ← Position.after_append (p.after g.text)]
        exact htokens.mono fun m hm => List.mem_append_right _ hm
      obtain ⟨gap', tail', htext', hgap', htail', hdepth, hnodes⟩ :=
        hadmitsTail gap _ _ _ mid' rest b _ _ hgap htail hm₂ hrest hout₂ htokens₂
      have hhead' := legal_head hw hhead hrest htext'
      refine ⟨g, .cons head gap' tail', ?_, hg' _, ⟨hhead', hgap', htail'⟩, ?_, ?_⟩
      · rw [text, htext']
        simp only [List.append_assoc]
      · rw [Derivations.depth, Derivations.depth, hdepth]
      · show _ :: _ = _ :: _
        rw [hnodes]
    · have hout₂ : Scan.OutsideComment ⟨m₁, n, t⟩ mid (mid' ++ (gap.text ++ (tail.text ++ b))) := by
        simpa only [List.append_assoc] using hout₁
      obtain ⟨head', htext', hhead', hdepth, hnode⟩ := hadmitsHead _ _ _ mid mid' _ _ _ hhead hm₁
        hheadText hmidNe hmid'Ne hout₂ (htokens.mono fun m hm => List.mem_append_left _ hm)
      refine ⟨g, .cons head' gap tail, ?_, hg' _, ⟨hhead', hgap, htail⟩, ?_, ?_⟩
      · rw [text, htext']
        simp only [List.append_assoc]
      · rw [Derivations.depth, Derivations.depth, hdepth]
      · show _ :: _ = _ :: _
        rw [hnode]

end Derivations

mutual
theorem Derivation.admits (hw : w.Closed) : (d : Derivation) → d.Admits w
  | .atom us => Derivation.admits_atom us
  | .string us => Derivation.admits_string us
  | .list _ items => Derivation.admits_list (Derivations.admits hw items)
  | .quotation _ _ body => Derivation.admits_quotation hw (Derivation.admits hw body)

theorem Derivations.admits (hw : w.Closed) : (ds : Derivations) → ds.Admits w
  | .nil => Derivations.admits_nil hw
  | .cons head _ tail =>
    Derivations.admits_cons hw (Derivation.admits hw head) (Derivations.admits hw tail)
end

/-! ## Programs -/

/-- A gap does not make a shebang line of the text that it is put into. -/
theorem Gap.Closed.isPrefix (hw : w.Closed) (h : ['#', '!'] <+: past ++ (w.text ++ rest)) :
    ['#', '!'] <+: past ++ rest := by
  cases w with
  | nil => exact h
  | cons f w =>
    obtain ⟨c, cs, hcs, hc⟩ := Gap.text_eq_cons (hw.legal []) (List.cons_ne_nil f w)
    have hne : c ≠ '#' ∧ c ≠ '!' := by
      constructor
      · rintro rfl
        exact absurd hc (by decide)
      · rintro rfl
        exact absurd hc (by decide)
    rw [hcs] at h
    match past with
    | [] => exact absurd h (by simp [hne.1.symm])
    | [a] => exact absurd h (by simp [hne.2.symm])
    | a :: a' :: past => simpa using h

namespace ProgramDerivation

variable {o : Options} {pd : ProgramDerivation}

theorem insert_plain (hw : w.Closed) (h : pd.Legal o) (hshebang : pd.shebang = none)
    (htext : pd.text = past ++ rest)
    (hout : (Scan.atStart o (past ++ rest)).OutsideComment past rest)
    (htokens : OutsideTokens (width past) (Node.preorderAll 0 pd.nodes)) :
    ∃ pd' : ProgramDerivation, pd'.Legal o ∧ pd'.text = past ++ (w.text ++ rest) ∧
      pd'.values = pd.values := by
  obtain ⟨shebang, gap, items⟩ := pd
  obtain rfl : shebang = none := hshebang
  have hno : ¬(o.skipShebang = true ∧ ['#', '!'] <+: past ++ rest) := by
    rw [← htext, ← h.shebang_iff]
    simp
  have hout' : Scan.OutsideComment ⟨.gap, 0, none⟩ past (rest ++ []) := by
    rw [Scan.atStart, if_neg hno] at hout
    rwa [List.append_nil]
  have htokens' : OutsideTokens (Position.start.offset + width past) (Node.preorderAll 0
      (items.nodes Position.after (Position.start.after gap.text))) := by
    rw [show Position.start.offset + width past = width past from Nat.zero_add _]
    exact htokens
  obtain ⟨gap', items', htext', hgap', hitems', hdepth, hnodes⟩ :=
    items.admits hw gap .gap 0 none past rest [] .start 0 (by simpa using h.gap) h.items trivial
      htext hout' htokens'
  refine ⟨⟨none, gap', items'⟩, ⟨?_, by simp, ?_, hitems', ?_⟩, htext', hnodes⟩
  · have hno' : ¬(o.skipShebang = true ∧ ['#', '!'] <+: past ++ (w.text ++ rest)) :=
      fun hskip => hno ⟨hskip.1, hw.isPrefix hskip.2⟩
    rw [← htext'] at hno'
    simpa [text, shebangText] using hno'
  · simpa using hgap'
  · show items'.depth ≤ _
    rw [hdepth]
    exact h.depth_le

theorem insert_line_end (hw : w.Closed) {l : Line} {gap : Gap} {items : Derivations}
    (h : (ProgramDerivation.mk (some l) gap items).Legal o) :
    ∃ pd' : ProgramDerivation, pd'.Legal o ∧ pd'.text = '#' :: '!' :: l.body ++
        (w.text ++ ((if l.closed then ['\n'] else []) ++ (gap.text ++ items.text))) ∧
      pd'.values = (ProgramDerivation.mk (some l) gap items).values := by
  have hskip := h.shebang_iff.1 rfl
  obtain ⟨l', g, htext, hl', hg⟩ := Line.insert hw (h.shebang l rfl)
  refine ⟨⟨some l', g ++ gap, items⟩, ⟨?_, ?_, ?_, h.items, h.depth_le⟩, ?_, rfl⟩
  · simp [text, shebangText, hskip.1]
  · intro l₁ hl₁
    obtain rfl : l' = l₁ := Option.some.inj hl₁
    show l'.Legal (Gap.text (g ++ gap) ++ items.text)
    rw [Gap.text_append, List.append_assoc]
    exact hl'
  · exact Gap.Legal.append hg h.gap
  · show '#' :: '!' :: l'.text ++ (Gap.text (g ++ gap) ++ items.text) = _
    rw [Gap.text_append, List.append_assoc, List.cons_append, List.cons_append,
      ← List.append_assoc l'.text, htext]
    simp

theorem insert_shebang (hw : w.Closed) (h : pd.Legal o) {l : Line} (hshebang : pd.shebang = some l)
    (htext : pd.text = past ++ rest)
    (hout : (Scan.atStart o (past ++ rest)).OutsideComment past rest)
    (htokens : OutsideTokens (width past) (Node.preorderAll 0 pd.nodes)) :
    ∃ pd' : ProgramDerivation, pd'.Legal o ∧ pd'.text = past ++ (w.text ++ rest) ∧
      pd'.values = pd.values := by
  obtain ⟨shebang, gap, items⟩ := pd
  obtain rfl : shebang = some l := hshebang
  have hskip := h.shebang_iff.1 rfl
  have hline : l.Legal (gap.text ++ items.text) := h.shebang l rfl
  have hout' : Scan.OutsideComment ⟨.comment, 0, none⟩ past rest := by
    rw [htext] at hskip
    rw [Scan.atStart, if_pos hskip] at hout
    exact hout
  -- the marks of the shebang line are part of the line
  have hwhole : (Line.mk ('#' :: '!' :: l.body) l.closed).Legal (gap.text ++ items.text) :=
    ⟨by simpa using hline.1, hline.2⟩
  rcases Line.cut hwhole htext hout' with ⟨hclosed, mid, rfl, hmid⟩ | ⟨rfl, rfl⟩
  · obtain ⟨m₁, hm₁, hrun⟩ := Scan.run_line (n := 0) (t := none) hwhole
    have hbehind : Scan.OutsideComment ⟨m₁, 0, none⟩ mid (rest ++ []) := by
      rwa [Scan.OutsideComment, Scan.run_append, hrun, ← List.append_nil rest] at hout'
    have htokens' : OutsideTokens ((Position.start.after ('#' :: '!' :: l.text)).offset + width mid)
        (Node.preorderAll 0 (items.nodes Position.after
          ((Position.start.after ('#' :: '!' :: l.text)).after gap.text))) := by
      rw [offset_after_add, ← Position.after_append,
        show Position.start.offset + _ = _ from Nat.zero_add _]
      exact htokens
    obtain ⟨gap', items', htext', hgap', hitems', hdepth, hnodes⟩ :=
      items.admits hw gap m₁ 0 none mid rest [] _ 0 (by simpa using h.gap) h.items
        (by simpa using hm₁) hmid hbehind htokens'
    rw [List.append_nil] at hgap'
    refine ⟨⟨some l, gap', items'⟩, ⟨?_, ?_, hgap', hitems', ?_⟩, ?_, hnodes⟩
    · simp [text, shebangText, hskip.1]
    · intro l' hl'
      obtain rfl : l = l' := Option.some.inj hl'
      exact ⟨hline.1, fun hopen => absurd (hclosed.symm.trans hopen) (by decide)⟩
    · show items'.depth ≤ _
      rw [hdepth]
      exact h.depth_le
    · show '#' :: '!' :: l.text ++ (gap'.text ++ items'.text) = _
      rw [htext', ← List.append_assoc]
      rfl
  · exact insert_line_end hw h

end ProgramDerivation

theorem ProgramDerivation.exists_insert {o : Options} {pd : ProgramDerivation} (hw : w.Closed)
    (h : pd.Legal o) (htext : pd.text = past ++ rest)
    (hout : (Scan.atStart o (past ++ rest)).OutsideComment past rest)
    (htokens : OutsideTokens (width past) (Node.preorderAll 0 pd.nodes)) :
    ∃ pd' : ProgramDerivation, pd'.Legal o ∧ pd'.text = past ++ (w.text ++ rest) ∧
      pd'.values = pd.values := by
  cases hshebang : pd.shebang with
  | none => exact insert_plain hw h hshebang htext hout htokens
  | some l => exact insert_shebang hw h hshebang htext hout htokens

end Insert

/-- Blanks and closed comments may be put into a program anywhere but inside a comment,
the shebang line, an atom, a string or a marker, and its trees stay the same up to their
spans.  Directly in front of the newline that ends a comment, and behind a comment that
ends the text, they may be put in as well. -/
theorem readWith_insert {o : Options} {source : String} {ns : List (Node Position)}
    {past rest : List Char} {w : Gap} (h : readWith o source = .ok ns)
    (hsource : source.toList = past ++ rest) (hw : w.Closed)
    (hcomment : (scan o past rest).mode = .comment → ∀ c ∈ rest.head?, c = '\n')
    (htokens : ∀ m ∈ Node.preorderAll 0 ns, m.2.children? = none →
      ¬(m.2.span.start.offset < width past ∧ width past < m.2.span.stop.offset)) :
    ∃ ns', readWith o (String.ofList (past ++ (w.text ++ rest))) = .ok ns' ∧
      ns'.map Node.eraseSpans = ns.map Node.eraseSpans := by
  obtain ⟨pd, hpd, htext, rfl⟩ := nodes_of_readWith h
  obtain ⟨pd', hpd', htext', hvalues⟩ :=
    pd.exists_insert hw hpd (htext.trans hsource) hcomment htokens
  have hsource' : pd'.text = (String.ofList (past ++ (w.text ++ rest))).toList := by
    rw [htext', String.toList_ofList]
  refine ⟨_, readWith_of_derivation hpd' hsource', ?_⟩
  rw [map_eraseSpans_nodes, ProgramDerivation.nodes, map_eraseSpans_nodes]
  exact hvalues

/-- Between a marker and what it quotes, and behind a comment that ends the text. -/
theorem readWith_insert_marker :
    (∃ ns', readWith {} "(' ;,\na)" = .ok ns' ∧
      ns'.map Node.eraseSpans = [.ofList [.ofQuotation .quote (.ofAtom "a")]]) ∧
    ∃ ns', readWith {} "a;b \n" = .ok ns' ∧ ns'.map Node.eraseSpans = [.ofAtom "a"] := by
  constructor
  · have hprogram : program {} "('a)".toList = .ok
        [.list ⟨0, 4⟩ [.list ⟨1, 3⟩ [.atom ⟨1, 2⟩ "quote", .atom ⟨2, 3⟩ "a"]]] := rfl
    have hread : readWith {} "('a)" = .ok [.list ⟨⟨0, 1, 1⟩, ⟨4, 1, 5⟩⟩
        [.list ⟨⟨1, 1, 2⟩, ⟨3, 1, 4⟩⟩ [.atom ⟨⟨1, 1, 2⟩, ⟨2, 1, 3⟩⟩ "quote",
          .atom ⟨⟨2, 1, 3⟩, ⟨3, 1, 4⟩⟩ "a"]]] :=
      readWith_of_program hprogram (by decide +kernel)
    have hsource : "('a)".toList = ['(', '\x27'] ++ ['a', ')'] := rfl
    have hw : Gap.Closed [.blank ' ', .comment ⟨[','], true⟩] := by decide
    exact readWith_insert hread hsource hw (fun h => absurd h (by decide)) (by decide)
  · have hprogram : program {} "a;b".toList = .ok [.atom ⟨0, 1⟩ "a"] := rfl
    have hread : readWith {} "a;b" = .ok [.atom ⟨⟨0, 1, 1⟩, ⟨1, 1, 2⟩⟩ "a"] :=
      readWith_of_program hprogram (by decide +kernel)
    have hsource : "a;b".toList = ['a', ';', 'b'] ++ [] := rfl
    have hw : Gap.Closed [.blank ' ', .blank '\n'] := by decide
    exact readWith_insert hread hsource hw (fun _ c hc => absurd hc (by simp)) (by decide)

end Grammar
end LispSyntax
