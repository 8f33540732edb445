/-
Errors stand where a text stops being completable.

A reader of texts has the correct prefix property if the place of each of its errors
splits the text so that what is in front can be completed, and what is in front
together with the next character cannot: however the text goes on behind that
character, the error is the same.  `program_correctPrefix` shows this of programs and
`alone_correctPrefix` of texts with one expression.  The first half is the completion
of fragments, and the second holds since a fragment stalls by reason of one
character.
-/
import LispSyntax.Proofs.Alone
import LispSyntax.Proofs.Layout

namespace LispSyntax
namespace Grammar

open Text

/-- Every error of the reader splits the text where it stops being completable. -/
def CorrectPrefix {α : Type} (reader : List Char → Except Stall α) : Prop :=
  ∀ cs s, reader cs = .error s → ∃ past rest, cs = past ++ rest ∧
    s.place = ⟨width past, rest⟩ ∧ (∃ t a, reader (past ++ t) = .ok a) ∧
    ∀ c ∈ rest.head?, ∀ t, reader (past ++ c :: t) = .error ⟨⟨width past, c :: t⟩, s.cause⟩

/-! ## One expression alone -/

theorem Derivation.Legal.alone {d : Derivation} {g : Gap} {b : List Char}
    (hd : d.Legal (g.text ++ b)) : d.Legal g.text := by
  refine hd.congr fun hends => ?_
  cases hg : g.text with
  | nil => exact endsAtom_nil
  | cons c cs =>
    rw [hg] at hends
    exact hends.congr rfl

section Alone

variable {rule : Rule}

theorem alone_completes (account : Rule.Account rule) {g : Gap} {f : Fragment} {b : List Char}
    (hg : g.Legal (f.text ++ b)) (hf : account.Stalls f b) :
    ∃ t n, alone rule (g.text ++ f.text ++ t) = .ok n := by
  cases hform : f.form? with
  | none =>
    rw [Fragment.text_eq_nil hform] at hg ⊢
    obtain ⟨g', htext, hg'⟩ := hg.newline
    obtain ⟨d, hd, htakes⟩ := account.nonempty
    have hread := alone_ok account (hg' _) (hd (Gap.text []) endsAtom_nil) htakes trivial
    refine ⟨'\n' :: d.text, d.node byBytes (width g'.text), ?_⟩
    rw [← hread, htext]
    simp [Gap.text]
  | some form =>
    rcases account.completes hf with hnone | ⟨d, t, htext, hd, htakes⟩
    · rw [hform] at hnone
      simp at hnone
    · have hg' : g.Legal (d.text ++ Gap.text []) := by
        refine hg.congr_head? ?_
        rw [htext, List.append_assoc]
        exact head?_append_congr (Fragment.text_ne_nil hform)
      have hread := alone_ok account hg' (hd (Gap.text []) endsAtom_nil) htakes trivial
      refine ⟨t, d.node byBytes (width g.text), ?_⟩
      rw [← hread, htext]
      simp [Gap.text]

theorem alone_correctPrefix (account : Rule.Account rule) : CorrectPrefix (alone rule) := by
  intro cs s hs
  obtain ⟨g, b, rfl, hg, hends⟩ := gap_split cs
  rcases account.split b hends with ⟨d, b, rfl, hd, htakes⟩ | ⟨f, b, rfl, hf⟩
  · obtain ⟨g', b, rfl, hg', hends'⟩ := gap_split b
    have hne := Derivation.text_ne_nil hd
    cases b with
    | nil =>
      have hread := alone_ok account (by simpa using hg) (by simpa using hd) htakes hg'
      rw [← List.append_nil g'.text] at hread
      rw [List.append_nil] at hs
      rw [List.append_nil, hs] at hread
      simp at hread
    | cons a as =>
      have hread := alone_surplus account hg hd htakes hg' hends' (by simp)
      rw [hread] at hs
      obtain rfl := Except.error.inj hs
      refine ⟨g.text ++ (d.text ++ g'.text), a :: as, by simp, rfl, ?_, ?_⟩
      · have hg'' : g.Legal (d.text ++ g'.text) := by
          refine hg.congr_head? ?_
          rw [head?_append_congr hne]
        have hclosed := alone_ok account hg'' hd.alone htakes (hg'.congr fun _ => rfl)
        exact ⟨[], _, by rw [List.append_nil, hclosed]⟩
      · intro c hc t
        obtain rfl : a = c := by simpa using hc
        have hnext : (a :: as).head? = (a :: t).head? := rfl
        have hhead := head?_append_of_head?_eq hnext g'.text
        have hd' : d.Legal (g'.text ++ a :: t) := hd.congr fun hends => hends.congr hhead
        have hg'' := hg.congr_head? (head?_append_of_head?_eq hhead d.text)
        have hagain := alone_surplus account hg'' hd' htakes (hg'.congr_head? hnext)
          (hends'.congr hnext) (List.cons_ne_nil a t)
        rw [← hagain]
        simp
  · have hread := alone_stalled account hg hf
    rw [hread] at hs
    obtain rfl := Except.error.inj hs
    refine ⟨g.text ++ f.text, b, by simp, rfl, alone_completes account hg hf, ?_⟩
    intro c hc t
    have hhead : b.head? = (c :: t).head? := hc
    obtain ⟨hf', hcause⟩ := account.congr hf hhead
    have hg' := hg.congr_head? (head?_append_of_head?_eq hhead f.text)
    have hagain := alone_stalled account hg' hf'
    rw [List.append_assoc, hagain, ← hcause]

end Alone

/-! ## Programs -/

/-- Where nothing of an expression has been read, the next character does not begin a
shebang line. -/
theorem Fragment.head_of_atStart {f : Fragment} {levels : Nat} {b : List Char}
    (h : f.Stalls levels b) (hform : f.form? = none) : ∀ c ∈ b.head?, c ≠ '#' ∧ c ≠ '!' := by
  intro c hc
  cases f with
  | missing =>
    obtain rfl := h c hc
    decide
  | cut =>
    rcases h.2 with hlist | hquotation
    · obtain ⟨as, rfl⟩ := Form.starting_list hlist
      obtain rfl : '(' = c := Option.some.inj hc
      decide
    · obtain ⟨a, as, rfl, ha⟩ := Form.starting_quotation hquotation
      obtain rfl : a = c := Option.some.inj hc
      rcases ha with rfl | rfl | rfl
      · decide
      · decide
      · decide
  | _ => simp [form?] at hform

namespace Layout

variable {o : Options} {l : Layout} {b : List Char}

theorem form?_of_text_eq_hash (h : l.Legal o b) (htext : l.text = ['#']) :
    l.inner.form? = none := by
  cases hform : l.inner.form? with
  | none => rfl
  | some form =>
    exfalso
    have hne := Fragment.text_ne_nil hform
    have hinner : l.inner.text = ['#'] := by
      have hparts : (l.lead ++ l.items.text) ++ l.inner.text = [] ++ ['#'] := by
        rw [List.append_assoc]
        exact htext
      have hlength := congrArg List.length hparts
      have hpos := List.length_pos_iff.2 hne
      simp only [List.length_append, List.length_nil, List.length_singleton] at hlength
      have hnil : l.lead ++ l.items.text = [] := by
        rw [← List.length_eq_zero_iff, List.length_append]
        omega
      rw [hnil] at hparts
      exact hparts
    have hstart := Fragment.starting_text_append h.inner hform b
    rw [hinner] at hstart
    obtain rfl : Form.atom = form := Option.some.inj hstart
    cases hl : l.inner with
    | atom us =>
      rw [hl] at hinner
      have hlast := congrArg List.getLast? hinner
      simp [Fragment.text] at hlast
    | _ => rw [hl] at hform; simp [Fragment.form?] at hform

/-- Whether a text starts with a shebang line is settled when the layout ends. -/
theorem isPrefix_congr (h : l.Legal o b) {b' : List Char}
    (hb' : l.inner.form? = none → ∀ c ∈ b'.head?, c ≠ '#' ∧ c ≠ '!') :
    ['#', '!'] <+: l.text ++ b ↔ ['#', '!'] <+: l.text ++ b' := by
  have hboth : ∀ x : List Char, (l.inner.form? = none → ∀ c ∈ x.head?, c ≠ '#' ∧ c ≠ '!') →
      (['#', '!'] <+: l.text ++ x ↔ ['#', '!'] <+: l.text) := by
    intro x hx
    match htext : l.text with
    | [] =>
      have hform : l.inner.form? = none := by
        cases hform : l.inner.form? with
        | none => rfl
        | some form =>
          have hne := Fragment.text_ne_nil hform
          rw [text] at htext
          simp [hne] at htext
      cases x with
      | nil => rfl
      | cons c cs =>
        have hc := (hx hform c rfl).1.symm
        simp [hc]
    | [a] =>
      cases x with
      | nil => rfl
      | cons c cs =>
        by_cases ha : a = '#'
        · rw [ha] at htext ⊢
          have hc := (hx (form?_of_text_eq_hash h htext) c rfl).2.symm
          simp [hc]
        · have ha' : '#' ≠ a := fun heq => ha heq.symm
          simp [ha']
    | a :: a' :: cs => simp
  exact (hboth b fun hform => Fragment.head_of_atStart h.inner hform).trans (hboth b' hb').symm

theorem Legal.congr {b' : List Char} (h : l.Legal o b) (hb : b.head? = b'.head?) :
    l.Legal o b' where
  shebang_iff := by
    have hstarts := isPrefix_congr h fun hform => by
      rw [← hb]
      exact Fragment.head_of_atStart h.inner hform
    rw [← hstarts]
    exact h.shebang_iff
  shebang s hs := by
    have hinner := head?_append_of_head?_eq hb l.inner.text
    have hitems := head?_append_of_head?_eq hinner l.items.text
    have hgap := head?_append_of_head?_eq hitems l.gap.text
    exact (h.shebang s hs).congr (eq_nil_of_head?_eq hgap)
  gap := by
    have hinner := head?_append_of_head?_eq hb l.inner.text
    exact h.gap.congr_head? (head?_append_of_head?_eq hinner l.items.text)
  items := h.items.congr_head? (head?_append_of_head?_eq hb l.inner.text)
  depth_le := h.depth_le
  inner := h.inner.congr hb

/-- The shebang line stays as it is if the text does not end in it. -/
theorem Legal.shebang_of_ne_nil (h : l.Legal o b)
    (hne : l.gap.text ++ (l.items.text ++ (l.inner.text ++ b)) ≠ []) (x : List Char) :
    ∀ s ∈ l.shebang, s.Legal x :=
  fun s hs => (h.shebang s hs).congr fun hnil => absurd hnil hne

/-- Where no expression breaks off, a newline makes the program complete. -/
theorem Legal.completes_newline (h : l.Legal o b) (hcomplete : ¬l.Complete b)
    (hform : l.inner.form? = none) : ∃ l' : Layout,
      l'.text = l.text ++ ['\n'] ∧ l'.Legal o [] ∧ l'.Complete [] := by
  have hinner := Fragment.text_eq_nil hform
  have hgap := h.gap
  have hitems := h.items
  rw [hinner, List.nil_append] at hgap hitems
  obtain ⟨g, ds, htext, hg, hds, hdepth, _⟩ := newline_completes l.items l.gap hgap hitems
  have hall : (Layout.mk l.shebang g ds .missing).text = l.text ++ ['\n'] := by
    simp only [text, lead, Fragment.text, hinner, List.append_nil, List.append_assoc]
    rw [htext]
  have hne : l.gap.text ++ (l.items.text ++ (l.inner.text ++ b)) ≠ [] := by
    intro hnil
    simp only [List.append_eq_nil_iff] at hnil
    obtain ⟨_, _, _, rfl⟩ := hnil
    exact hcomplete ⟨Fragment.eq_missing_of_text_eq_nil h.inner hinner, rfl⟩
  refine ⟨⟨l.shebang, g, ds, .missing⟩, hall, ⟨?_, h.shebang_of_ne_nil hne _, hg _, hds _,
    hdepth ▸ h.depth_le, by simp [Fragment.Stalls]⟩, rfl, rfl⟩
  rw [hall, List.append_assoc, ← isPrefix_congr h]
  · exact h.shebang_iff
  · intro _ c hc
    obtain rfl : '\n' = c := Option.some.inj hc
    decide

/-- Where an expression breaks off, the rest of it makes the program complete. -/
theorem Legal.completes_begins {d : Derivation} {t : List Char} (h : l.Legal o b)
    (hd : l.inner.Begins d t) (hdepth : d.depth ≤ o.maxDepth) : ∃ l' : Layout,
      l'.text = l.text ++ t ∧ l'.Legal o [] ∧ l'.Complete [] := by
  have hne := Fragment.text_ne_nil hd.form
  have hhead : (l.inner.text ++ b).head? = (d.text ++ []).head? := by
    rw [hd.text, List.append_assoc]
    exact head?_append_congr hne
  have hall : (Layout.mk l.shebang l.gap (l.items.snoc d) .missing).text = l.text ++ t := by
    simp only [text, lead, Fragment.text, List.append_nil, List.append_assoc]
    rw [Derivations.text_snoc, hd.text]
  refine ⟨⟨l.shebang, l.gap, l.items.snoc d, .missing⟩, hall,
    ⟨?_, h.shebang_of_ne_nil (by simp [hne]) _, ?_, ?_, ?_, by simp [Fragment.Stalls]⟩, rfl, rfl⟩
  · rw [hall, List.append_assoc, ← isPrefix_congr h]
    · exact h.shebang_iff
    · intro hnone
      simp [hd.form] at hnone
  · show l.gap.Legal ((l.items.snoc d).text ++ ([] ++ []))
    rw [Derivations.text_snoc, List.append_assoc]
    exact h.gap.congr_head? (head?_append_of_head?_eq hhead l.items.text)
  · exact Derivations.Legal.snoc (h.items.congr_head? hhead) (hd.legal [] endsAtom_nil)
  · show (l.items.snoc d).depth ≤ o.maxDepth
    rw [Derivations.depth_snoc]
    exact Nat.max_le.2 ⟨h.depth_le, hdepth⟩

theorem Legal.completes (h : l.Legal o b) (hcomplete : ¬l.Complete b) :
    ∃ (l' : Layout) (t : List Char), l'.text = l.text ++ t ∧ l'.Legal o [] ∧ l'.Complete [] := by
  cases hform : l.inner.form? with
  | none =>
    obtain ⟨l', hl'⟩ := h.completes_newline hcomplete hform
    exact ⟨l', _, hl'⟩
  | some form =>
    obtain ⟨d, t, hd, hdepth⟩ := l.inner.exists_begins h.inner hform
    obtain ⟨l', hl'⟩ := h.completes_begins hd hdepth
    exact ⟨l', t, hl'⟩

theorem cause_congr (l : Layout) {b b' : List Char} (hb : b.head? = b'.head?) :
    l.cause b = l.cause b' := by
  unfold cause
  split
  · rfl
  · exact l.inner.cause_congr hb

end Layout

theorem program_correctPrefix (o : Options) : CorrectPrefix (program o) := by
  intro cs s hs
  obtain ⟨l, b, rfl, hl⟩ := layout_split o cs
  have hcomplete : ¬l.Complete b := by
    intro hcomplete
    rw [program_of_complete hl hcomplete] at hs
    simp at hs
  rw [program_of_stalls hl hcomplete] at hs
  obtain rfl := Except.error.inj hs
  refine ⟨l.text, b, rfl, rfl, ?_, ?_⟩
  · obtain ⟨l', t, htext, hl', hdone⟩ := hl.completes hcomplete
    have hread := program_of_complete hl' hdone
    rw [List.append_nil, htext] at hread
    exact ⟨t, _, hread⟩
  · intro c hc t
    have hhead : b.head? = (c :: t).head? := hc
    have hagain := program_of_stalls (hl.congr hhead) fun hdone => List.cons_ne_nil c t hdone.2
    rw [hagain, ← l.cause_congr hhead]

end Grammar
end LispSyntax
