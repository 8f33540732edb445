/-
What reading makes of a derivation and of a fragment.

An expression is read where the text of a derivation stands, in front of a text
that the derivation may stand in front of, and gives the tree of the derivation.
This is `expression_matched`.  Where the text of a fragment stands the reader goes
over it and stalls, which is `expression_stalls`.  Both are by induction on the
derivation or the fragment, one level of the reader for each level of nesting.
-/
import LispSyntax.Proofs.Chain
import LispSyntax.Proofs.Fragment
import LispSyntax.Proofs.Tokens

namespace LispSyntax
namespace Grammar

open Text

variable {c d e : Cursor} {levels : Nat}

theorem Cursor.Over.offset_eq {past : List Char} (h : c.Over past d) :
    d.offset = byBytes c.offset past := h.2

theorem expression_of_starting {f : Form} (h : Form.starting c.rest = some f) :
    expression levels c = f.rule (below levels) c := by
  rw [expression_eq, h]

theorem expression_of_derivation {d : Derivation} (hover : c.Over d.text e)
    (h : d.Legal e.rest) : expression levels c = d.form.rule (below levels) c := by
  refine expression_of_starting ?_
  rw [hover.1]
  exact Derivation.starting_text_append h e.rest

theorem expression_of_fragment {f : Fragment} {form : Form} {levels' : Nat}
    (hover : c.Over f.text e) (h : f.Stalls levels' e.rest) (hform : f.form? = some form) :
    expression levels c = form.rule (below levels) c := by
  refine expression_of_starting ?_
  rw [hover.1]
  exact Fragment.starting_text_append h hform e.rest

theorem expression_missing (h : ∀ a ∈ c.rest.head?, a = ')') :
    expression levels c = .declined ⟨c, .noExpression⟩ := by
  rw [expression_eq, (Form.starting_eq_none_iff (endsGap_of_closes h)).2 h]

/-! ## Lists and quotations -/

theorem open_list {gap : Gap} {cs : List Char} (hover : c.Over ('(' :: (gap.text ++ cs)) e)
    (hgap : gap.Legal (cs ++ e.rest)) (hends : EndsGap (cs ++ e.rest)) :
    ∃ (as : List Char) (first : Cursor), c.rest = '(' :: as ∧
      Cursor.pastGap ⟨c.offset + 1, as⟩ = first ∧ first.Over cs e ∧
      first.offset = byBytes c.offset ('(' :: gap.text) := by
  obtain ⟨m, hopen, hinside⟩ := hover.split_cons
  obtain ⟨first, hgapOver, hrest⟩ := hinside.split
  obtain ⟨hc, hm⟩ := hopen.eq_of_singleton
  have hskip : m.pastGap = first :=
    Cursor.pastGap_eq_of_endsGap hgapOver (hrest.1 ▸ hgap) (hrest.1 ▸ hends)
  refine ⟨m.rest, first, congrArg Cursor.rest hc, ?_, hrest, (hopen.trans hgapOver).offset_eq⟩
  rw [← hskip, hm]
  rfl

theorem open_quotation {k : QuoteKind} {gap : Gap} {cs : List Char}
    (hover : c.Over (k.marker.toList ++ (gap.text ++ cs)) e)
    (hat : k = .unquote → (gap.text ++ (cs ++ e.rest)).head? ≠ some '@')
    (hgap : gap.Legal (cs ++ e.rest)) (hends : EndsGap (cs ++ e.rest)) :
    ∃ m first : Cursor, markerToken c = .matched k m ∧ m.pastGap = first ∧ first.Over cs e ∧
      m.offset = byBytes c.offset k.marker.toList ∧
      first.offset = byBytes c.offset (k.marker.toList ++ gap.text) := by
  obtain ⟨m, hmarker, hinside⟩ := hover.split
  obtain ⟨first, hgapOver, hrest⟩ := hinside.split
  have hskip : m.pastGap = first :=
    Cursor.pastGap_eq_of_endsGap hgapOver (hrest.1 ▸ hgap) (hrest.1 ▸ hends)
  have htoken : markerToken c = .matched k m := by
    refine markerToken_eq hmarker fun hk => ?_
    rw [hgapOver.1, hrest.1]
    exact hat hk
  exact ⟨m, first, htoken, hskip, hrest, hmarker.offset_eq, (hmarker.trans hgapOver).offset_eq⟩

theorem length_le_of_pastGap {o : Nat} {as : List Char} {first : Cursor}
    (h : Cursor.pastGap ⟨o, as⟩ = first) : first.rest.length ≤ as.length := by
  rw [← h]
  exact (Cursor.pastGap_reaches ⟨o, as⟩).length_le

theorem listRule_matched {rule : Rule} (hrule : rule.Reads) {first last : Cursor}
    {ns : List (Node Nat)} {s : Stall} {as : List Char} (hopen : c.rest = '(' :: as)
    (hfirst : Cursor.pastGap ⟨c.offset + 1, as⟩ = first) (hchain : Chain rule first ns last)
    (hstop : rule last = .declined s) (hclose : last.Over [')'] e) :
    listRule (some rule) c = .matched (.list ⟨c.offset, e.offset⟩ ns) e.pastGap := by
  have hlength := length_le_of_pastGap hfirst
  have hseq := sequence_declined hrule hchain hstop hlength
  obtain ⟨hlast, he⟩ := hclose.eq_of_singleton
  have hrest : last.rest = ')' :: e.rest := congrArg Cursor.rest hlast
  have hend : e = ⟨last.offset + 1, e.rest⟩ := he
  unfold listRule
  rw [hopen]
  simp only [hfirst, hseq, hrest]
  rw [hend]

/-- A list whose expressions come to a stop where it does not close. -/
theorem listRule_failed {rule : Rule} (hrule : rule.Reads) {first last : Cursor}
    {ns : List (Node Nat)} {s : Stall} {as : List Char} (hopen : c.rest = '(' :: as)
    (hfirst : Cursor.pastGap ⟨c.offset + 1, as⟩ = first) (hchain : Chain rule first ns last)
    (hstop : rule last = .failed s ∨
      rule last = .declined s ∧ last.offset < s.place.offset ∧ last.rest.head? ≠ some ')') :
    listRule (some rule) c = .failed s := by
  have hlength := length_le_of_pastGap hfirst
  unfold listRule
  rw [hopen]
  rcases hstop with hfailed | ⟨hdeclined, hfurther, hhead⟩
  · have hseq := sequence_failed hrule hchain hfailed hlength
    simp only [hfirst, hseq]
  · have hseq := sequence_declined hrule hchain hdeclined hlength
    simp only [hfirst, hseq]
    split
    · next after hafter =>
      rw [hafter] at hhead
      exact absurd rfl hhead
    · rw [Stall.further, if_pos hfurther]

/-- A list that the text ends in, behind an expression or before the first. -/
theorem listRule_unclosed {rule : Rule} (hrule : rule.Reads) {first last : Cursor}
    {ns : List (Node Nat)} {as : List Char} (hopen : c.rest = '(' :: as)
    (hfirst : Cursor.pastGap ⟨c.offset + 1, as⟩ = first) (hchain : Chain rule first ns last)
    (hstop : rule last = .declined ⟨last, .noExpression⟩) (hend : last.rest = []) :
    listRule (some rule) c = .failed ⟨last, .openList⟩ := by
  have hlength := length_le_of_pastGap hfirst
  have hseq := sequence_declined hrule hchain hstop hlength
  unfold listRule
  rw [hopen]
  simp only [hfirst, hseq, hend, Stall.further, Nat.lt_irrefl, if_false]

/-! ## Derivations -/

theorem Derivation.span_node {π : Type} (step : π → List Char → π) (p : π) (d : Derivation) :
    (d.node step p).span = ⟨p, step p d.text⟩ := by
  cases d <;> rfl

mutual
/-- The text of a derivation is read, and gives the tree of the derivation. -/
theorem expression_matched : (d : Derivation) → {levels : Nat} → {c e : Cursor} →
    c.Over d.text e → d.Legal e.rest → d.depth ≤ levels →
    expression levels c = .matched (d.node byBytes c.offset) e.pastGap
  | .atom us, levels, c, e, hover, hlegal, _ => by
    have htoken := atomToken_matched hlegal.1 hlegal.2.1 hover hlegal.2.2
    rw [expression_of_derivation hover hlegal]
    show atomRule c = _
    rw [atomRule, htoken]
    show Outcome.matched _ _ = Outcome.matched _ _
    rw [hover.offset_eq]
    rfl
  | .string us, levels, c, e, hover, hlegal, _ => by
    have htoken := stringToken_matched hlegal hover
    rw [expression_of_derivation hover hlegal]
    show stringRule c = _
    rw [stringRule, htoken]
    show Outcome.matched _ _ = Outcome.matched _ _
    rw [hover.offset_eq]
    rfl
  | .list gap items, levels, c, e, hover, hlegal, hdepth => by
    cases levels with
    | zero => exact absurd hdepth (by simp [Derivation.depth])
    | succ levels =>
      have hdepth' : items.depth ≤ levels := Nat.le_of_succ_le_succ hdepth
      have hover' : c.Over ('(' :: (gap.text ++ (items.text ++ [')']))) e := hover
      have hinside : items.text ++ [')'] ++ e.rest = items.text ++ ')' :: e.rest := by simp
      obtain ⟨as, first, hopen, hskip, hrest, hoffset⟩ := open_list hover'
        (hinside ▸ hlegal.1)
        (hinside ▸ Derivations.endsGap_text_append hlegal.2 (endsGap_close e.rest))
      obtain ⟨last, hitems, hclose⟩ := hrest.split
      have hlast : last.rest = ')' :: e.rest := hclose.1
      have hcloses : ∀ a ∈ last.rest.head?, a = ')' := by simp [hlast]
      have hchain := chain_matched items hitems (hlast ▸ hlegal.2) hdepth'
        (endsGap_of_closes hcloses)
      rw [expression_of_derivation hover hlegal]
      show listRule (some (expression levels)) c = _
      rw [listRule_matched (expression_reads levels) hopen hskip hchain
        (expression_missing hcloses) hclose, hover.offset_eq, hoffset]
      rfl
  | .quotation k gap body, levels, c, e, hover, hlegal, hdepth => by
    cases levels with
    | zero => exact absurd hdepth (by simp [Derivation.depth])
    | succ levels =>
      have hdepth' : body.depth ≤ levels := Nat.le_of_succ_le_succ hdepth
      have hover' : c.Over (k.marker.toList ++ (gap.text ++ body.text)) e := hover
      obtain ⟨m, first, htoken, hskip, hbody, hm, hoffset⟩ := open_quotation hover' hlegal.1
        hlegal.2.1 (Derivation.endsGap_text_append hlegal.2.2 e.rest)
      have hread := expression_matched body hbody hlegal.2.2 hdepth'
      have hstop : byBytes first.offset body.text = byBytes c.offset
          (Derivation.quotation k gap body).text := by
        rw [← hbody.offset_eq, hover.offset_eq]
      rw [hoffset] at hstop
      rw [expression_of_derivation hover hlegal]
      show quotationRule (some (expression levels)) c = _
      simp only [quotationRule, htoken, hskip, hread, Derivation.span_node, hm, hoffset, hstop]
      rfl

theorem chain_matched : (ds : Derivations) → {levels : Nat} → {c e : Cursor} →
    c.Over ds.text e → ds.Legal e.rest → ds.depth ≤ levels → EndsGap e.rest →
    Chain (expression levels) c (ds.nodes byBytes c.offset) e
  | .nil, levels, c, e, hover, _, _, _ => by
    rw [Cursor.Over.eq_of_nil hover]
    exact .nil e
  | .cons head gap tail, levels, c, e, hover, hlegal, hdepth, hends => by
    have hdepths : head.depth ≤ levels ∧ tail.depth ≤ levels := Nat.max_le.1 hdepth
    obtain ⟨m, hhead, hinside⟩ := hover.split
    obtain ⟨next, hgap, htail⟩ := hinside.split
    have hm : m.rest = gap.text ++ (tail.text ++ e.rest) := by rw [hgap.1, htail.1]
    have hnext : EndsGap next.rest := by
      rw [htail.1]
      exact Derivations.endsGap_text_append hlegal.2.2 hends
    have hskip : m.pastGap = next :=
      Cursor.pastGap_eq_of_endsGap hgap (htail.1 ▸ hlegal.2.1) hnext
    have hread := expression_matched head hhead (hm ▸ hlegal.1) hdepths.1
    rw [hskip] at hread
    have hrest := chain_matched tail htail hlegal.2.2 hdepths.2 hends
    have hoffset : next.offset = byBytes c.offset (head.text ++ gap.text) :=
      (hhead.trans hgap).offset_eq
    rw [hoffset] at hrest
    exact .cons hread hrest
end

/-! ## Fragments -/

theorem cut_stalls (hstart : Form.starting c.rest = some .list ∨
    Form.starting c.rest = some .quotation) : expression 0 c = .failed ⟨c, .tooDeep⟩ := by
  rcases hstart with hlist | hquotation
  · obtain ⟨as, has⟩ := Form.starting_list hlist
    rw [expression_of_starting hlist]
    show listRule none c = _
    unfold listRule
    rw [has]
    rfl
  · obtain ⟨k, next, hmarker⟩ := markerToken_of_starting hquotation
    rw [expression_of_starting hquotation]
    show quotationRule none c = _
    unfold quotationRule
    rw [hmarker]

theorem atom_stalls {us : List AtomUnit}
    (hover : c.Over (Fragment.atom us).text e) (h : (Fragment.atom us).Stalls levels e.rest) :
    expression levels c = .failed ⟨e, .loneEscape⟩ := by
  have hread : expression levels c = Form.rule (below levels) .atom c :=
    expression_of_fragment hover h rfl
  rw [hread]
  show atomRule c = _
  rw [atomRule, atomToken_failed h.1 hover h.2]

theorem string_stalls {us : List StringUnit} {slash : Bool}
    (hover : c.Over (Fragment.string us slash).text e)
    (h : (Fragment.string us slash).Stalls levels e.rest) :
    expression levels c = .failed ⟨e, (Fragment.string us slash).cause e.rest⟩ := by
  have hread : expression levels c = Form.rule (below levels) .string c :=
    expression_of_fragment hover h rfl
  rw [hread]
  show stringRule c = _
  obtain ⟨hus, hbehind⟩ := h
  cases slash with
  | false =>
    have hnil : e.rest = [] := hbehind
    have hover' : c.Over ('"' :: us.flatMap StringUnit.text) e := by
      simpa [Fragment.text] using hover
    rw [stringRule, stringToken_open hus hover' hnil]
    simp [Fragment.cause, hnil]
  | true =>
    rw [stringRule, stringToken_backslash hus hover hbehind]
    rfl

theorem unclosed_stalls {gap : Gap} {items : Derivations}
    (hover : c.Over (Fragment.unclosed gap items).text e)
    (h : (Fragment.unclosed gap items).Stalls levels e.rest) :
    expression levels c = .failed ⟨e, .openList⟩ := by
  have hread : expression levels c = Form.rule (below levels) .list c :=
    expression_of_fragment hover h rfl
  obtain ⟨hdepth, hgap, hitems, hnil⟩ := h
  cases levels with
  | zero => exact absurd hdepth (by simp)
  | succ levels =>
    have hdepth' : items.depth ≤ levels := Nat.le_of_lt_succ hdepth
    have hcloses : ∀ a ∈ e.rest.head?, a = ')' := by simp [hnil]
    have hends := endsGap_of_closes hcloses
    have hover' : c.Over ('(' :: (gap.text ++ items.text)) e := hover
    obtain ⟨as, first, hopen, hskip, hrest, _⟩ := open_list hover' hgap
      (Derivations.endsGap_text_append hitems hends)
    have hchain := chain_matched items hrest hitems hdepth' hends
    rw [hread]
    exact listRule_unclosed (expression_reads levels) hopen hskip hchain
      (expression_missing hcloses) hnil

/-- Only a quotation declines behind its start, and it has a marker. -/
theorem Fragment.text_eq_cons_of_soft {f : Fragment} (hsoft : f.soft = true)
    (hne : f ≠ .missing) : ∃ a cs, f.text = a :: cs ∧ a ≠ ')' := by
  cases f with
  | missing => exact absurd rfl hne
  | quotation k gap inner =>
    obtain ⟨a, cs, hmarker, ha⟩ := QuoteKind.marker_cons k
    refine ⟨a, cs ++ (gap.text ++ inner.text), by simp [text, hmarker], ?_⟩
    rintro rfl
    simp at ha
  | _ => simp [soft] at hsoft

section Inner

variable {gap : Gap} {inner : Fragment}

/-- A list fails where an expression in it breaks off. -/
theorem list_stalls {items : Derivations} (hover : c.Over (Fragment.list gap items inner).text e)
    (h : (Fragment.list gap items inner).Stalls levels e.rest)
    (hstall : ∀ last : Cursor, last.Over inner.text e → expression (levels - 1) last =
      if inner.soft then .declined ⟨e, inner.cause e.rest⟩
      else .failed ⟨e, inner.cause e.rest⟩) :
    expression levels c = .failed ⟨e, inner.cause e.rest⟩ := by
  have hread : expression levels c = Form.rule (below levels) .list c :=
    expression_of_fragment hover h rfl
  obtain ⟨hdepth, hgap, hitems, hne, hinner⟩ := h
  cases levels with
  | zero => exact absurd hdepth (by simp)
  | succ levels =>
    have hdepth' : items.depth ≤ levels := Nat.le_of_lt_succ hdepth
    have hends := Fragment.endsGap_text_append hinner
    have hover' : c.Over ('(' :: (gap.text ++ (items.text ++ inner.text))) e := hover
    obtain ⟨as, first, hopen, hskip, hrest, _⟩ := open_list hover'
      (by rwa [List.append_assoc])
      (by rw [List.append_assoc]; exact Derivations.endsGap_text_append hitems hends)
    obtain ⟨last, hitemsOver, hinnerOver⟩ := hrest.split
    have hlast : last.rest = inner.text ++ e.rest := hinnerOver.1
    have hchain := chain_matched items hitemsOver (hlast ▸ hitems) hdepth' (hlast ▸ hends)
    have hitem := hstall last hinnerOver
    rw [hread]
    refine listRule_failed (expression_reads levels) hopen hskip hchain ?_
    by_cases hsoft : inner.soft = true
    · rw [if_pos hsoft] at hitem
      obtain ⟨a, cs, htext, ha⟩ := Fragment.text_eq_cons_of_soft hsoft hne
      have hpasses : last.Passes e := ⟨_, by simp [htext], hinnerOver⟩
      refine Or.inr ⟨hitem, hpasses.offset_lt, ?_⟩
      simpa [hlast, htext] using ha
    · rw [if_neg hsoft] at hitem
      exact Or.inl hitem

/-- A quotation stalls as its body does. -/
theorem quotation_stalls {k : QuoteKind} (hover : c.Over (Fragment.quotation k gap inner).text e)
    (h : (Fragment.quotation k gap inner).Stalls levels e.rest)
    (hstall : ∀ first : Cursor, first.Over inner.text e → expression (levels - 1) first =
      if inner.soft then .declined ⟨e, inner.cause e.rest⟩
      else .failed ⟨e, inner.cause e.rest⟩) :
    expression levels c =
      if inner.soft then .declined ⟨e, inner.cause e.rest⟩
      else .failed ⟨e, inner.cause e.rest⟩ := by
  have hread : expression levels c = Form.rule (below levels) .quotation c :=
    expression_of_fragment hover h rfl
  obtain ⟨hlevels, hat, hgap, hinner⟩ := h
  cases levels with
  | zero => exact absurd hlevels (by simp)
  | succ levels =>
    have hover' : c.Over (k.marker.toList ++ (gap.text ++ inner.text)) e := hover
    obtain ⟨m, first, htoken, hskip, hinnerOver, _, _⟩ := open_quotation hover' hat hgap
      (Fragment.endsGap_text_append hinner)
    have hbody : expression levels first = _ := hstall first hinnerOver
    rw [hread]
    show quotationRule (some (expression levels)) c = _
    by_cases hsoft : inner.soft = true
    · rw [if_pos hsoft] at hbody ⊢
      simp only [quotationRule, htoken, hskip, hbody]
    · rw [if_neg hsoft] at hbody ⊢
      simp only [quotationRule, htoken, hskip, hbody]

end Inner

/-- The reader goes over the text of a fragment and stalls. -/
theorem expression_stalls (f : Fragment) {levels : Nat} {c e : Cursor} (hover : c.Over f.text e)
    (h : f.Stalls levels e.rest) :
    expression levels c =
      if f.soft then .declined ⟨e, f.cause e.rest⟩ else .failed ⟨e, f.cause e.rest⟩ := by
  induction f generalizing levels c with
  | missing =>
    obtain rfl := Cursor.Over.eq_of_nil hover
    exact expression_missing h
  | cut =>
    obtain rfl := Cursor.Over.eq_of_nil hover
    obtain ⟨rfl, hstart⟩ := h
    exact cut_stalls hstart
  | atom us => exact atom_stalls hover h
  | string us slash => exact string_stalls hover h
  | unclosed gap items => exact unclosed_stalls hover h
  | list gap items inner ih =>
    have hinner := h.2.2.2.2
    have hlist := list_stalls hover h fun last hlast => ih hlast hinner
    exact hlist
  | quotation k gap inner ih =>
    have hinner := h.2.2.2
    have hquotation := quotation_stalls hover h fun first hfirst => ih hfirst hinner
    exact hquotation

end Grammar
end LispSyntax
