/-
The depth limit only cuts.

A fragment that stalls for another reason than its depth stalls alike under a higher
limit, so a text whose layout is not cut off is read alike.  A text that is accepted
under the higher limit is cut off at its first list below the lower one.  Where a
layout is cut off, one more level lets the reader over the character that it stopped
at, and what it has read then can be completed: the error under a higher limit lies
further on, by the correct prefix property.
-/
import LispSyntax.Proofs.Acceptance
import LispSyntax.Proofs.Cut
import LispSyntax.Proofs.ErrorPlace

namespace LispSyntax

open Grammar Text

/-- The first list in the trees, each node before its children, that has `depth` lists
around it. -/
def Node.firstListAt {π : Type} (depth : Nat) (ns : List (Node π)) : Option (Node π) :=
  ((Node.preorderAll 0 ns).find? (Node.isListAt depth)).map (·.2)

namespace Grammar

variable {skip : Bool} {d d' levels levels' : Nat} {b : List Char}

theorem Cause.kind_eq_tooDeeplyNested {k : Cause} :
    k.kind = .tooDeeplyNested ↔ k = .tooDeep := by
  cases k <;> simp [Cause.kind]

/-! ## A higher limit -/

/-- A fragment that is not cut off stalls under any higher limit. -/
theorem Fragment.Stalls.mono {f : Fragment} (h : f.Stalls levels b) (hcause : f.cause b ≠ .tooDeep)
    (hle : levels ≤ levels') : f.Stalls levels' b := by
  induction f generalizing levels levels' with
  | missing => exact h
  | cut => exact absurd rfl hcause
  | atom us => exact h
  | string us slash => exact h
  | unclosed gap items =>
    obtain ⟨hdepth, hrest⟩ := h
    exact ⟨Nat.lt_of_lt_of_le hdepth hle, hrest⟩
  | list gap items inner ih =>
    obtain ⟨hdepth, hgap, hitems, hne, hinner⟩ := h
    exact ⟨Nat.lt_of_lt_of_le hdepth hle, hgap, hitems, hne, ih hinner hcause (by omega)⟩
  | quotation k gap inner ih =>
    obtain ⟨hlevels, hat, hgap, hinner⟩ := h
    exact ⟨Nat.lt_of_lt_of_le hlevels hle, hat, hgap, ih hinner hcause (by omega)⟩

theorem Layout.cause_eq_tooDeep {l : Layout} :
    l.cause b = .tooDeep ↔ l.inner.cause b = .tooDeep := by
  unfold Layout.cause
  split
  · next h => simp [h, Fragment.cause]
  · rfl

theorem Layout.Legal.mono {l : Layout} (h : l.Legal ⟨d, skip⟩ b) (hcause : l.cause b ≠ .tooDeep)
    (hle : d ≤ d') : l.Legal ⟨d', skip⟩ b where
  shebang_iff := h.shebang_iff
  shebang := h.shebang
  gap := h.gap
  items := h.items
  depth_le := Nat.le_trans h.depth_le hle
  inner := h.inner.mono (fun hinner => hcause (Layout.cause_eq_tooDeep.2 hinner)) hle

/-- A text that is not cut off is read alike under a higher limit. -/
theorem program_mono (cs : List Char)
    (hcut : ∀ s, program ⟨d, skip⟩ cs = .error s → s.cause ≠ .tooDeep) (hle : d ≤ d') :
    program ⟨d', skip⟩ cs = program ⟨d, skip⟩ cs := by
  obtain ⟨l, b, rfl, hl⟩ := layout_split ⟨d, skip⟩ cs
  by_cases hcomplete : l.Complete b
  · have hcause : l.cause b ≠ .tooDeep := by
      rw [Layout.cause, hcomplete.1]
      simp
    rw [program_of_complete hl hcomplete, program_of_complete (hl.mono hcause hle) hcomplete]
  · have hstalls := program_of_stalls hl hcomplete
    have hcause := hcut _ hstalls
    rw [hstalls, program_of_stalls (hl.mono hcause hle) hcomplete]

/-! ## A lower limit -/

/-- A program that nests too deep is cut off at its first list below the limit. -/
theorem program_of_too_deep {o : Options} {pd : ProgramDerivation} (h : pd.Legal o)
    (hdepth : d < pd.items.depth) :
    ∃ past rest, pd.text = past ++ rest ∧
      program ⟨d, o.skipShebang⟩ pd.text = .error ⟨⟨width past, rest⟩, .tooDeep⟩ ∧
      FirstListAt d (Node.preorderAll 0 (pd.items.nodes Position.after (Position.start.after
        (ProgramDerivation.shebangText pd.shebang ++ pd.gap.text)))) (Position.start.after past) := by
  obtain ⟨ds, f, b, hcut, hds, hdsDepth, hf, hcause, hfirst⟩ :=
    Derivations.cut pd.items h.items hdepth
  rw [List.append_nil] at hcut
  have htext : (Layout.mk pd.shebang pd.gap ds f).text ++ b = pd.text := by
    rw [Layout.text_append, ← hcut]
    rfl
  have hl : (Layout.mk pd.shebang pd.gap ds f).Legal ⟨d, o.skipShebang⟩ b := by
    refine ⟨?_, ?_, ?_, hds, hdsDepth, hf⟩
    · rw [htext]
      exact h.shebang_iff
    · intro s hs
      rw [← hcut]
      exact h.shebang s hs
    · rw [← hcut]
      exact h.gap
  have hinner : f ≠ .missing := by
    rintro rfl
    simp [Fragment.cause] at hcause
  have hstalls := program_of_stalls hl fun hdone => hinner hdone.1
  rw [htext, Layout.cause_eq_tooDeep.2 hcause] at hstalls
  refine ⟨_, b, htext.symm, hstalls, ?_⟩
  have hplace := hfirst (Position.start.after
    (ProgramDerivation.shebangText pd.shebang ++ pd.gap.text)) 0
  rw [Nat.zero_add, ← Position.after_append] at hplace
  exact hplace

/-! ## Behind the cut -/

/-- One more level takes the reader over the character where a fragment is cut off. -/
theorem Fragment.Stalls.grow {f : Fragment} (h : f.Stalls levels b)
    (hcause : f.cause b = .tooDeep) :
    ∃ (f' : Fragment) (c : Char), b.head? = some c ∧ f'.text = f.text ++ [c] ∧
      f'.Stalls (levels + 1) [] ∧ f' ≠ .missing := by
  induction f generalizing levels with
  | missing => simp [cause] at hcause
  | atom us => simp [cause] at hcause
  | string us slash =>
    simp only [cause] at hcause
    split at hcause <;> simp at hcause
  | unclosed gap items => simp [cause] at hcause
  | cut =>
    rcases h.2 with hlist | hquotation
    · obtain ⟨as, rfl⟩ := Form.starting_list hlist
      exact ⟨.unclosed [] .nil, '(', rfl, rfl, ⟨Nat.succ_pos _, trivial, trivial, rfl⟩, by simp⟩
    · obtain ⟨a, as, rfl, ha⟩ := Form.starting_quotation hquotation
      have hstalls : ∀ k, (Fragment.quotation k [] .missing).Stalls (levels + 1) [] :=
        fun k => ⟨Nat.succ_pos _, by simp [Gap.text, text], trivial, by simp [Stalls]⟩
      rcases ha with rfl | rfl | rfl
      · exact ⟨.quotation .quote [] .missing, _, rfl, rfl, hstalls _, by simp⟩
      · exact ⟨.quotation .quasiquote [] .missing, _, rfl, rfl, hstalls _, by simp⟩
      · exact ⟨.quotation .unquote [] .missing, _, rfl, rfl, hstalls _, by simp⟩
  | list gap items inner ih =>
    obtain ⟨hdepth, hgap, hitems, hne, hinner⟩ := h
    obtain ⟨f', c, hc, htext, hf', hne'⟩ := ih hinner hcause
    have hhead : (inner.text ++ b).head? = (f'.text ++ []).head? := by
      rw [htext]
      cases inner.text <;> simp [hc]
    refine ⟨.list gap items f', c, hc, by simp [text, htext], ⟨?_, ?_, ?_, hne', ?_⟩, by simp⟩
    · omega
    · exact hgap.congr_head? (head?_append_of_head?_eq hhead items.text)
    · exact hitems.congr_head? hhead
    · rwa [Nat.add_sub_cancel, ← Nat.sub_add_cancel (show 1 ≤ levels by omega)]
  | quotation k gap inner ih =>
    obtain ⟨hlevels, hat, hgap, hinner⟩ := h
    obtain ⟨f', c, hc, htext, hf', hne'⟩ := ih hinner hcause
    have hhead : (inner.text ++ b).head? = (f'.text ++ []).head? := by
      rw [htext]
      cases inner.text <;> simp [hc]
    refine ⟨.quotation k gap f', c, hc, by simp [text, htext], ⟨?_, ?_, ?_, ?_⟩, by simp⟩
    · omega
    · rw [← head?_append_of_head?_eq hhead gap.text]
      exact hat
    · exact hgap.congr_head? hhead
    · rwa [Nat.add_sub_cancel, ← Nat.sub_add_cancel (show 1 ≤ levels by omega)]

/-- Where a layout is cut off, one more level lets the text go on. -/
theorem exists_program_of_cut {l : Layout} (h : l.Legal ⟨d, skip⟩ b)
    (hcause : l.cause b = .tooDeep) :
    ∃ (c : Char) (t : List Char) (ns : List (Node Nat)), b.head? = some c ∧
      program ⟨d + 1, skip⟩ (l.text ++ c :: t) = .ok ns := by
  have hinner := Layout.cause_eq_tooDeep.1 hcause
  obtain ⟨f, c, hc, htext, hf, hne⟩ := h.inner.grow hinner
  have hhead : (l.inner.text ++ b).head? = (f.text ++ []).head? := by
    rw [htext]
    cases l.inner.text <;> simp [hc]
  have hall : (Layout.mk l.shebang l.gap l.items f).text = l.text ++ [c] := by
    simp [Layout.text, Layout.lead, htext]
  have hl : (Layout.mk l.shebang l.gap l.items f).Legal ⟨d + 1, skip⟩ [] := by
    have hitems := head?_append_of_head?_eq hhead l.items.text
    have hgap := head?_append_of_head?_eq hitems l.gap.text
    refine ⟨?_, ?_, h.gap.congr_head? hitems, h.items.congr_head? hhead,
      Nat.le_succ_of_le h.depth_le, hf⟩
    · rw [hall, List.append_nil, ← Layout.isPrefix_congr h]
      · exact h.shebang_iff
      · intro hform a ha
        obtain rfl : c = a := by simpa using ha
        exact Fragment.head_of_atStart h.inner hform c hc
    · intro s hs
      exact (h.shebang s hs).congr (eq_nil_of_head?_eq hgap)
  obtain ⟨l', t, hl'text, hl', hdone⟩ := hl.completes fun hdone => hne hdone.1
  have hread := program_of_complete hl' hdone
  rw [List.append_nil, hl'text, hall, List.append_assoc] at hread
  exact ⟨c, t, _, hc, hread⟩

/-- If a text is cut off and fails under a higher limit too, it fails further on. -/
theorem program_error_lt {cs : List Char} {s s' : Stall} (hlt : d < d')
    (h : program ⟨d, skip⟩ cs = .error s) (hcause : s.cause = .tooDeep)
    (h' : program ⟨d', skip⟩ cs = .error s') : s.place.offset < s'.place.offset := by
  obtain ⟨l, b, rfl, hl⟩ := layout_split ⟨d, skip⟩ cs
  have hcomplete : ¬l.Complete b := by
    intro hdone
    rw [program_of_complete hl hdone] at h
    simp at h
  rw [program_of_stalls hl hcomplete] at h
  obtain rfl := Except.error.inj h
  obtain ⟨c, t, ns, hc, hread⟩ := exists_program_of_cut hl hcause
  have hread' : program ⟨d', skip⟩ (l.text ++ c :: t) = .ok ns := by
    rw [program_mono _ (fun s hs => by rw [hread] at hs; simp at hs) hlt, hread]
  obtain ⟨past, rest, hsplit, hplace, _, hfails⟩ := program_correctPrefix _ _ _ h'
  rw [hplace]
  by_cases hle : width past ≤ width l.text
  · -- The text up to the cut goes on from the error, and there nothing can follow.
    exfalso
    obtain ⟨as, rfl⟩ := List.head?_eq_some_iff.1 hc
    obtain ⟨mid, hmid, hrest⟩ := exists_append_of_width_le hsplit.symm hle
    cases mid with
    | nil =>
      have hagain := hfails c (by simp [hrest]) t
      rw [hmid, List.append_nil, hagain] at hread'
      simp at hread'
    | cons a mid =>
      have hagain := hfails a (by simp [hrest]) (mid ++ c :: t)
      rw [hmid, List.append_assoc, List.cons_append, hagain] at hread'
      simp at hread'
  · show width l.text < width past
    omega

end Grammar

/-! ## Reading -/

section Reading

variable {source : String} {o : Options}

theorem readWith_congr {o' : Options} (h : program o' source.toList = program o source.toList) :
    readWith o' source = readWith o source := by
  rw [readWith, readWith, h]

theorem stall_of_readWith {e : SyntaxError} (h : readWith o source = .error e) :
    ∃ s, program o source.toList = .error s ∧ e = .ofStall source.toList s := by
  unfold readWith at h
  split at h
  · simp at h
  · next s hs => exact ⟨s, hs, (Except.error.inj h).symm⟩

/-- The error of a program stands at the byte offset of its stall. -/
theorem offset_of_program_error {s : Stall} (h : program o source.toList = .error s) :
    (SyntaxError.ofStall source.toList s).position.offset = s.place.offset := by
  obtain ⟨past, rest, htext, hplace, _⟩ := program_correctPrefix _ _ _ h
  obtain ⟨place, cause⟩ := s
  obtain rfl : place = ⟨width past, rest⟩ := hplace
  rw [htext, (SyntaxError.ofStall_append past rest cause).1, Position.offset_start_after]

/-- Of two depth limits the lower one only refuses, for no other reason than depth and
at the first list that lies too deep; and where it does, the higher one reads on. -/
theorem readWith_maxDepth {d d' : Nat} (hle : d ≤ d') (skip : Bool) (source : String) :
    ((∀ e, readWith ⟨d, skip⟩ source = .error e → e.kind ≠ .tooDeeplyNested) →
      readWith ⟨d', skip⟩ source = readWith ⟨d, skip⟩ source) ∧
    (∀ ns, readWith ⟨d', skip⟩ source = .ok ns →
      if Node.nestingAll ns ≤ d then readWith ⟨d, skip⟩ source = .ok ns
      else ∃ e n, readWith ⟨d, skip⟩ source = .error e ∧ e.kind = .tooDeeplyNested ∧
        e.expected = "shallower nesting" ∧ Node.firstListAt d ns = some n ∧
        e.position = n.span.start) ∧
    ∀ e e', readWith ⟨d, skip⟩ source = .error e → e.kind = .tooDeeplyNested → d < d' →
      readWith ⟨d', skip⟩ source = .error e' → e.position.offset < e'.position.offset := by
  refine ⟨?_, ?_, ?_⟩
  · intro hkind
    refine readWith_congr (program_mono _ (fun s hs hcause => ?_) hle)
    refine hkind (.ofStall source.toList s) (by rw [readWith, hs]) ?_
    exact Cause.kind_eq_tooDeeplyNested.2 hcause
  · intro ns hns
    obtain ⟨pd, hpd, htext, rfl⟩ := nodes_of_readWith hns
    rw [ProgramDerivation.nodes, nestingAll_nodes]
    split
    · next hdepth =>
      have hpd' : pd.Legal ⟨d, skip⟩ :=
        ⟨hpd.shebang_iff, hpd.shebang, hpd.gap, hpd.items, hdepth⟩
      exact readWith_of_derivation hpd' htext
    · next hdepth =>
      obtain ⟨past, rest, hsplit, hprogram, n, hfind, hstart⟩ :=
        program_of_too_deep hpd (Nat.lt_of_not_le hdepth)
      rw [htext] at hprogram hsplit
      refine ⟨.ofStall source.toList _, n, by rw [readWith, hprogram], rfl, rfl, ?_, ?_⟩
      · rw [Node.firstListAt, hfind]
        rfl
      · rw [hstart, hsplit]
        exact (SyntaxError.ofStall_append past rest .tooDeep).1
  · intro e e' he hkind hlt he'
    obtain ⟨s, hs, rfl⟩ := stall_of_readWith he
    obtain ⟨s', hs', rfl⟩ := stall_of_readWith he'
    rw [offset_of_program_error hs, offset_of_program_error hs']
    exact program_error_lt hlt hs (Cause.kind_eq_tooDeeplyNested.1 hkind) hs'

/-- A list that does not close, a quotation in the second of two lists, and a quotation
in a list that does not close. -/
theorem readWith_maxDepth_quotation :
    (∃ e, readWith ⟨1, true⟩ "(a" = .error e ∧ readWith ⟨2, true⟩ "(a" = .error e) ∧
    (∃ ns e n, readWith ⟨2, true⟩ "(a) ('b)" = .ok ns ∧
      readWith ⟨1, true⟩ "(a) ('b)" = .error e ∧ e.kind = .tooDeeplyNested ∧
      Node.firstListAt 1 ns = some n ∧ e.position = n.span.start) ∧
    ∃ e e', readWith ⟨1, true⟩ "('b" = .error e ∧ e.kind = .tooDeeplyNested ∧
      readWith ⟨2, true⟩ "('b" = .error e' ∧ e.position.offset < e'.position.offset := by
  refine ⟨?_, ?_, ?_⟩
  · have hprogram : program ⟨1, true⟩ "(a".toList = .error ⟨⟨2, []⟩, .openList⟩ := rfl
    have hread : readWith ⟨1, true⟩ "(a" = .error (.ofStall "(a".toList ⟨⟨2, []⟩, .openList⟩) := by
      rw [readWith, hprogram]
    have hsame := (readWith_maxDepth (Nat.le_succ 1) true "(a").1 fun e he => by
      rw [hread] at he
      obtain rfl := Except.error.inj he
      show Cause.openList.kind ≠ _
      decide
    exact ⟨_, hread, hsame.trans hread⟩
  · have hprogram : program ⟨2, true⟩ "(a) ('b)".toList = .ok
        [.list ⟨0, 3⟩ [.atom ⟨1, 2⟩ "a"],
          .list ⟨4, 8⟩ [.list ⟨5, 7⟩ [.atom ⟨5, 6⟩ "quote", .atom ⟨6, 7⟩ "b"]]] := rfl
    have hread : readWith ⟨2, true⟩ "(a) ('b)" = .ok
        [.list ⟨⟨0, 1, 1⟩, ⟨3, 1, 4⟩⟩ [.atom ⟨⟨1, 1, 2⟩, ⟨2, 1, 3⟩⟩ "a"],
          .list ⟨⟨4, 1, 5⟩, ⟨8, 1, 9⟩⟩
            [.list ⟨⟨5, 1, 6⟩, ⟨7, 1, 8⟩⟩ [.atom ⟨⟨5, 1, 6⟩, ⟨6, 1, 7⟩⟩ "quote",
              .atom ⟨⟨6, 1, 7⟩, ⟨7, 1, 8⟩⟩ "b"]]] :=
      readWith_of_program hprogram (by decide +kernel)
    have hcut := (readWith_maxDepth (Nat.le_succ 1) true "(a) ('b)").2.1 _ hread
    rw [if_neg (by decide)] at hcut
    obtain ⟨e, n, he, hkind, _, hfirst, hplace⟩ := hcut
    exact ⟨_, e, n, hread, he, hkind, hfirst, hplace⟩
  · have hcut : program ⟨1, true⟩ "('b".toList = .error ⟨⟨1, ['\x27', 'b']⟩, .tooDeep⟩ := rfl
    have hopen : program ⟨2, true⟩ "('b".toList = .error ⟨⟨3, []⟩, .openList⟩ := rfl
    have hlow : readWith ⟨1, true⟩ "('b" =
        .error (.ofStall "('b".toList ⟨⟨1, ['\x27', 'b']⟩, .tooDeep⟩) := by
      rw [readWith, hcut]
    have hhigh : readWith ⟨2, true⟩ "('b" =
        .error (.ofStall "('b".toList ⟨⟨3, []⟩, .openList⟩) := by
      rw [readWith, hopen]
    have hlt := (readWith_maxDepth (Nat.le_succ 1) true "('b").2.2 _ _ hlow rfl
      (Nat.lt_succ_self 1) hhigh
    exact ⟨_, _, hlow, rfl, hhigh, hlt⟩

end Reading

end LispSyntax
