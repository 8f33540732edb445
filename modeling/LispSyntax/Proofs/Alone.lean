/-
Texts that hold one expression.

`alone` reads with one rule a text that holds nothing else but gaps.  The rules that
are used so read expressions of any form, atoms or strings, and the same can be said
of each: there are derivations that it reads and fragments at which it stalls, every
text begins with one or the other, and a fragment at which it stalls can be
completed.  `Rule.Account` collects these facts, and what follows from them for
`alone` is proved once.
-/
import LispSyntax.Grammar.Program
import LispSyntax.Proofs.Completion
import LispSyntax.Proofs.Split

namespace LispSyntax
namespace Grammar

open Text

/-- What a rule makes of the texts that it is given. -/
structure Rule.Account (rule : Rule) where
  /-- The derivations that it reads. -/
  Takes : Derivation → Prop
  /-- The fragments at which it stalls. -/
  Stalls : Fragment → List Char → Prop
  cause : Fragment → List Char → Cause
  matched : ∀ {d : Derivation} {c e : Cursor}, c.Over d.text e → d.Legal e.rest → Takes d →
    rule c = .matched (d.node byBytes c.offset) e.pastGap
  stalled : ∀ {f : Fragment} {c e : Cursor}, c.Over f.text e → Stalls f e.rest →
    rule c = .declined ⟨e, cause f e.rest⟩ ∨ rule c = .failed ⟨e, cause f e.rest⟩
  split : ∀ cs, EndsGap cs →
    (∃ (d : Derivation) (b : List Char), cs = d.text ++ b ∧ d.Legal b ∧ Takes d) ∨
      ∃ (f : Fragment) (b : List Char), cs = f.text ++ b ∧ Stalls f b
  endsGap : ∀ {f : Fragment} {b : List Char}, Stalls f b → EndsGap (f.text ++ b)
  congr : ∀ {f : Fragment} {b b' : List Char}, Stalls f b → b.head? = b'.head? →
    Stalls f b' ∧ cause f b = cause f b'
  completes : ∀ {f : Fragment} {b : List Char}, Stalls f b → f.form? = none ∨
    ∃ (d : Derivation) (t : List Char), d.text = f.text ++ t ∧
      (∀ b', EndsAtom b' → d.Legal b') ∧ Takes d
  nonempty : ∃ d : Derivation, (∀ b', EndsAtom b' → d.Legal b') ∧ Takes d

/-! ## The three rules -/

def expressionAccount (levels : Nat) : Rule.Account (expression levels) where
  Takes d := d.depth ≤ levels
  Stalls f b := f.Stalls levels b
  cause f b := f.cause b
  matched hover hlegal hdepth := expression_matched _ hover hlegal hdepth
  stalled := by
    intro f c e hover hstalls
    have hstall := expression_stalls f hover hstalls
    cases hsoft : f.soft with
    | false => exact Or.inr (by simpa [hsoft] using hstall)
    | true => exact Or.inl (by simpa [hsoft] using hstall)
  split cs hends := expression_split levels cs hends
  endsGap := Fragment.endsGap_text_append
  congr hstalls hb := ⟨hstalls.congr hb, Fragment.cause_congr _ hb⟩
  completes := by
    intro f b hstalls
    cases hform : f.form? with
    | none => exact Or.inl rfl
    | some form =>
      obtain ⟨d, t, ⟨htext, hd, _⟩, hdepth⟩ := f.exists_begins hstalls hform
      exact Or.inr ⟨d, t, htext, hd, hdepth⟩
  nonempty := ⟨letter, fun _ hb => letter_legal hb, Nat.zero_le levels⟩

/-- The form is that of a token, which holds no other expression. -/
def Form.IsToken (form : Form) : Prop := form = .atom ∨ form = .string

theorem Derivation.depth_of_isToken {d : Derivation} (h : d.form.IsToken) : d.depth = 0 := by
  cases d with
  | atom us => rfl
  | string us => rfl
  | list gap items => rcases h with h | h <;> simp [form] at h
  | quotation k gap body => rcases h with h | h <;> simp [form] at h

/-- The rule of a token stalls where no such token starts, or where one breaks
off. -/
def Form.StallsToken (form : Form) (f : Fragment) (b : List Char) : Prop :=
  f = .missing ∧ EndsGap b ∧ Form.starting b ≠ some form ∨ f.form? = some form ∧ f.Stalls 0 b

/-- Where a token starts, its rule reads what an expression reads there. -/
theorem Form.rule_of_starting {form : Form} {c : Cursor} (h : Form.starting c.rest = some form) :
    form.rule none c = expression 0 c := by
  rw [expression_of_starting h]
  rfl

/-- What stalls where a token starts has read something of it. -/
theorem Fragment.form?_of_isToken {form : Form} (htoken : form.IsToken) {f : Fragment}
    {levels : Nat} {b : List Char} (hf : f.Stalls levels b)
    (hstart : Form.starting (f.text ++ b) = some form) : f.form? = some form := by
  cases hform : f.form? with
  | some inside => rwa [Fragment.starting_text_append hf hform b] at hstart
  | none =>
    exfalso
    rw [Fragment.text_eq_nil hform, List.nil_append] at hstart
    cases f with
    | missing =>
      have hnone := (Form.starting_eq_none_iff (endsGap_of_closes hf)).2 hf
      rw [hstart] at hnone
      simp at hnone
    | cut =>
      have hopens := hf.2
      rw [hstart] at hopens
      rcases htoken with rfl | rfl
      · simp at hopens
      · simp at hopens
    | _ => simp [Fragment.form?] at hform

def tokenAccount (form : Form) (htoken : form.IsToken) : Rule.Account (form.rule none) where
  Takes d := d.form = form
  Stalls f b := form.StallsToken f b
  cause f b := if f.form? = none then form.missing else f.cause b
  matched := by
    intro d c e hover hlegal hd
    have hstart : Form.starting c.rest = some form := by
      rw [hover.1, ← hd]
      exact Derivation.starting_text_append hlegal e.rest
    have hdepth := Derivation.depth_of_isToken (hd ▸ htoken)
    rw [Form.rule_of_starting hstart]
    exact expression_matched d hover hlegal (Nat.le_of_eq hdepth)
  stalled := by
    intro f c e hover hstalls
    rcases hstalls with ⟨rfl, _, hno⟩ | ⟨hform, hf⟩
    · obtain rfl := Cursor.Over.eq_of_nil hover
      exact Or.inl (Form.rule_declines none hno)
    · have hstart : Form.starting c.rest = some form := by
        rw [hover.1]
        exact Fragment.starting_text_append hf hform e.rest
      have hstall := (expressionAccount 0).stalled hover hf
      rw [← Form.rule_of_starting hstart] at hstall
      simpa [hform, expressionAccount] using hstall
  split := by
    intro cs hends
    by_cases hstart : Form.starting cs = some form
    · rcases expression_split 0 cs hends with ⟨d, b, rfl, hlegal, _⟩ | ⟨f, b, rfl, hf⟩
      · left
        rw [Derivation.starting_text_append hlegal b] at hstart
        exact ⟨d, b, rfl, hlegal, Option.some.inj hstart⟩
      · right
        exact ⟨f, b, rfl, Or.inr ⟨Fragment.form?_of_isToken htoken hf hstart, hf⟩⟩
    · right
      exact ⟨.missing, cs, rfl, Or.inl ⟨rfl, hends, hstart⟩⟩
  endsGap := by
    intro f b hstalls
    rcases hstalls with ⟨rfl, hends, _⟩ | ⟨_, hf⟩
    · exact hends
    · exact Fragment.endsGap_text_append hf
  congr := by
    intro f b b' hstalls hb
    rcases hstalls with ⟨rfl, hends, hno⟩ | ⟨hform, hf⟩
    · refine ⟨Or.inl ⟨rfl, hends.congr hb, ?_⟩, rfl⟩
      rwa [← Form.starting_congr hb]
    · refine ⟨Or.inr ⟨hform, hf.congr hb⟩, ?_⟩
      rw [f.cause_congr hb]
  completes := by
    intro f b hstalls
    rcases hstalls with ⟨rfl, _, _⟩ | ⟨hform, hf⟩
    · exact Or.inl rfl
    · obtain ⟨d, t, ⟨htext, hd, hdform⟩, _⟩ := f.exists_begins hf hform
      exact Or.inr ⟨d, t, htext, hd, Option.some.inj (hdform.symm.trans hform)⟩
  nonempty := by
    rcases htoken with rfl | rfl
    · exact ⟨letter, fun _ hb => letter_legal hb, rfl⟩
    · exact ⟨.string [], fun _ _ _ hu => absurd hu (by simp), rfl⟩

/-! ## One expression alone -/

section Alone

variable {rule : Rule} {g g' : Gap} {d : Derivation} {f : Fragment} {b : List Char}

theorem pastGap_atStart (hg : g.Legal b) (hends : EndsGap b) :
    (Cursor.atStart (g.text ++ b)).pastGap = ⟨width g.text, b⟩ := by
  have hover : (Cursor.atStart (g.text ++ b)).Over g.text ⟨width g.text, b⟩ :=
    ⟨rfl, (Nat.zero_add _).symm⟩
  exact Cursor.pastGap_eq_of_endsGap hover hg hends

theorem matched_alone (account : Rule.Account rule) (hg : g.Legal (d.text ++ (g'.text ++ b)))
    (hd : d.Legal (g'.text ++ b)) (htakes : account.Takes d) (hg' : g'.Legal b)
    (hends : EndsGap b) :
    rule (Cursor.atStart (g.text ++ (d.text ++ (g'.text ++ b)))).pastGap =
      .matched (d.node byBytes (width g.text)) ⟨width (g.text ++ (d.text ++ g'.text)), b⟩ := by
  have hover : (Cursor.mk (width g.text) (d.text ++ (g'.text ++ b))).Over d.text
      ⟨width (g.text ++ d.text), g'.text ++ b⟩ := ⟨rfl, width_append ..⟩
  have hbehind : (Cursor.mk (width (g.text ++ d.text)) (g'.text ++ b)).Over g'.text
      ⟨width (g.text ++ (d.text ++ g'.text)), b⟩ := by
    refine ⟨rfl, ?_⟩
    show width _ = width _ + width _
    rw [← List.append_assoc, width_append]
  rw [pastGap_atStart hg (Derivation.endsGap_text_append hd _), account.matched hover hd htakes,
    Cursor.pastGap_eq_of_endsGap hbehind hg' hends]

theorem alone_ok (account : Rule.Account rule) (hg : g.Legal (d.text ++ g'.text))
    (hd : d.Legal g'.text) (htakes : account.Takes d) (hg' : g'.Legal []) :
    alone rule (g.text ++ (d.text ++ g'.text)) = .ok (d.node byBytes (width g.text)) := by
  rw [← List.append_nil g'.text] at hg hd
  have hmatched := matched_alone account hg hd htakes hg' endsGap_nil
  rw [List.append_nil] at hmatched
  rw [alone, hmatched]
  rfl

theorem alone_surplus (account : Rule.Account rule) (hg : g.Legal (d.text ++ (g'.text ++ b)))
    (hd : d.Legal (g'.text ++ b)) (htakes : account.Takes d) (hg' : g'.Legal b)
    (hends : EndsGap b) (hb : b ≠ []) :
    alone rule (g.text ++ (d.text ++ (g'.text ++ b))) =
      .error ⟨⟨width (g.text ++ (d.text ++ g'.text)), b⟩, .surplus⟩ := by
  have hempty : b.isEmpty = false := by simpa using hb
  rw [alone, matched_alone account hg hd htakes hg' hends]
  simp [hempty]

theorem alone_stalled (account : Rule.Account rule) (hg : g.Legal (f.text ++ b))
    (hf : account.Stalls f b) :
    alone rule (g.text ++ (f.text ++ b)) =
      .error ⟨⟨width (g.text ++ f.text), b⟩, account.cause f b⟩ := by
  have hover : (Cursor.mk (width g.text) (f.text ++ b)).Over f.text
      ⟨width (g.text ++ f.text), b⟩ := ⟨rfl, width_append ..⟩
  have hstall := account.stalled hover hf
  rw [← pastGap_atStart hg (account.endsGap hf)] at hstall
  rcases hstall with hdeclined | hfailed
  · rw [alone, hdeclined]
  · rw [alone, hfailed]

/-- What is read alone is a derivation between two gaps. -/
theorem exists_of_alone (account : Rule.Account rule) {cs : List Char} {n : Node Nat}
    (h : alone rule cs = .ok n) : ∃ (g : Gap) (d : Derivation) (g' : Gap),
      cs = g.text ++ (d.text ++ g'.text) ∧ n = d.node byBytes (width g.text) := by
  obtain ⟨g, b, rfl, hg, hends⟩ := gap_split cs
  rcases account.split b hends with ⟨d, b, rfl, hd, htakes⟩ | ⟨f, b, rfl, hf⟩
  · obtain ⟨g', b, rfl, hg', hends'⟩ := gap_split b
    cases b with
    | nil =>
      rw [List.append_nil] at h hg hd
      rw [alone_ok account hg hd htakes hg'] at h
      exact ⟨g, d, g', by rw [List.append_nil], (Except.ok.inj h).symm⟩
    | cons a as =>
      rw [alone_surplus account hg hd htakes hg' hends' (by simp)] at h
      simp at h
  · rw [alone_stalled account hg hf] at h
    simp at h

end Alone

end Grammar
end LispSyntax
